import QueryPlanner.CostModel
import QueryPlanner.Memo.View
import QueryPlanner.Operator.Request

/-!
# Lower bounds

A lower bound of an alternative is a cost that no plan with the alternative on top undercuts. Its
children are described by the statistics of their groups and by the lower bounds of these, except
for one that may be costed already. The fixed charge of a node is left out when it has children.
Bounds are stored with the alternative and with the group.
-/

namespace QueryPlanner

/-- The costing input of a child that is known by its statistics. -/
def ChildCosting.ofStatistics (statistics : Option Statistics) (columns : ColumnSet)
    (segments : Nat) (cost : Cost) : ChildCosting :=
  match statistics with
  | some found =>
    { rows := found.rowsPerHost segments
      width := found.width columns
      rebinds := found.rebinds
      cost }
  | none => { rows := 0.0, width := 0.0, rebinds := 1.0, cost }

/-- The rows on one host of a result that is delivered in a certain way. -/
def hostRows (delivered : Option PlanProperties) (statistics : Statistics) (segments : Nat) :
    Float :=
  if (delivered.map (·.distribution.isPartitioned)).getD false then statistics.rowsPerHost segments
  else statistics.rows

namespace Planning

/-- The costing input of a child with a costing. -/
def costedChild (segments : Nat) (id : CostingId) : Planning ChildCosting := do
  let costing ← costing id
  let context ← context costing.context
  let statistics := costing.statistics.getD .empty
  return {
    rows := hostRows costing.delivered statistics segments
    width := statistics.width context.required.columns
    rebinds := statistics.rebinds
    cost := costing.cost }

/-- The costing input of the best plan of a context, if there is one. -/
def bestPlanChild? (segments : Nat) (id : ContextId) : Planning (Option ChildCosting) := do
  (← context id).best.mapM (costedChild segments)

/-- The smallest lower bound over the physical alternatives of a group, enforcers left out. It is
infinite when there is none. -/
def groupBoundBy (bound : ExprId → PlanRequirement → Planning Cost) (id : GroupId)
    (required : PlanRequirement) : Planning Cost := do
  let id ← resolve id
  let found ← group id
  match found.lowerBounds.lookup required with
  | some known => return known
  | none =>
    let memo ← get
    let considered := found.alternatives.filter fun alternative =>
      ((memo.physical? alternative).map (!·.isEnforcer)).getD false
    let least ← considered.foldlM (fun least alternative => do
      let candidate ← bound alternative required
      return if candidate.lowerThan least then candidate else least) Cost.infinite
    modify (·.modifyGroup id fun group =>
      { group with lowerBounds := (required, least) :: group.lowerBounds })
    return least

/-- The costing inputs of the children of an alternative for its lower bound, or nothing when a
child cannot be planned. -/
def boundedChildren (segments : Nat) (op : PhysicalOperator) (view : ExprView)
    (required : PlanRequirement) (costed : Option (Nat × CostingId))
    (bound : GroupId → PlanRequirement → Planning Cost) :
    List (ChildView × Nat) → Planning (Option (List ChildCosting))
  | [] => return some []
  | (child, position) :: rest => do
    if child.isScalar then boundedChildren segments op view required costed bound rest
    else
      match costed.filter (·.1 == position) with
      | some (_, costing) =>
        let input ← costedChild segments costing
        let others ← boundedChildren segments op view required costed bound rest
        return others.map (input :: ·)
      | none =>
        let asked := op.childRequirement view required position [] 0
        let least ← bound child.group asked
        if least.isInfinite then return none
        let input := ChildCosting.ofStatistics child.groupStatistics asked.columns segments least
        let others ← boundedChildren segments op view required costed bound rest
        return others.map (input :: ·)

/-- The cost of a node over bounded children, without its fixed charge if it has any. -/
def boundOver (model : CostModel) (segments : Nat) (view : ExprView) (required : PlanRequirement)
    (children : List ChildCosting) : Cost :=
  let node := ChildCosting.ofStatistics view.groupStatistics required.columns segments .zero
  let cost := model.cost view
    { rows := node.rows, width := node.width, rebinds := node.rebinds, children, segments }
  if children.isEmpty then cost else cost.saturatingSub model.fixedNodeCost

/-- A lower bound of an alternative under a requirement, looking at most the given number of levels
deep. -/
def lowerBoundUpTo (model : CostModel) (segments : Nat) :
    Nat → ExprId → PlanRequirement → Option (Nat × CostingId) → Planning Cost
  | 0, _, _, _ => throw .outOfFuel
  | fuel + 1, id, required, costed => do
    let found ← expr id
    let key : BoundKey := { required, costedChild := costed }
    match found.bounds.lookup key, found.op with
    | some known, _ => return known
    | none, .physical op =>
      let view := (← view id).withRequired required
      let below (child : GroupId) (asked : PlanRequirement) : Planning Cost :=
        groupBoundBy (fun alternative required =>
          lowerBoundUpTo model segments fuel alternative required none) child asked
      let children ← boundedChildren segments op view required costed below view.children.zipIdx
      let bound := match children with
        | some children => boundOver model segments view required children
        | none => .infinite
      modify (·.modifyExpr id fun expr => { expr with bounds := (key, bound) :: expr.bounds })
      return bound
    | none, _ => return .infinite

/-- A lower bound of an alternative under a requirement, with one child costed already or none. It
is infinite for an alternative that is not physical. -/
def lowerBound (model : CostModel) (segments : Nat) (id : ExprId) (required : PlanRequirement)
    (costed : Option (Nat × CostingId)) : Planning Cost := do
  lowerBoundUpTo model segments (← get).depthLimit id required costed

/-- A lower bound of the plans of a group under a requirement. -/
def groupLowerBound (model : CostModel) (segments : Nat) (id : GroupId)
    (required : PlanRequirement) : Planning Cost := do
  let depth := (← get).depthLimit
  groupBoundBy (fun alternative required =>
    lowerBoundUpTo model segments depth alternative required none) id required

end Planning

end QueryPlanner
