import QueryPlanner.LowerBound
import QueryPlanner.Memo.Insert
import QueryPlanner.Memo.Statistics
import QueryPlanner.Operator.Delivery
import QueryPlanner.Planner

/-!
# Optimizing groups

`Planner.optimize` finds the best plan of a group under a requirement. It goes through the physical
alternatives of the group, level by level, and through the requests of each. For a request the
children are optimized first, each under what the request asks of it. Then enforcers are added to
the group where the delivery falls short, and an alternative that needs none is costed by
`Planner.cost`. Enforcers added on the way are optimized in their turn.
-/

namespace QueryPlanner

namespace Optimizer

/-- The name of the rule that enforcers originate from. -/
def enforcerRule : String := "enforcer"

/-- Whether an operator may be used for a requirement at all: it has the columns, and an enforcer
can help with what is required. -/
def servesRequirement (op : PhysicalOperator) (view : ExprView) (required : PlanRequirement) :
    Bool :=
  required.columns.subset view.logical.output &&
    match op.enforcerKind? with
    | some .sort => !required.order.spec.isEmpty
    | some (.motion _) => required.distribution.spec != .any
    | some .spool => required.rewindability.spec != .notRewindable
    | some .partitionSelector => PhysicalProperty.isRequired required.partition.spec
    | none => true

/-- Whether all pairs of distributions in a list are compatible, each with those after it. -/
def allCompatible : List Distribution → Bool
  | [] => true
  | first :: rest => rest.all first.compatible && allCompatible rest

/-- Whether the plans of the children go together: nothing gathers what is on one host already, all
distributions are compatible, and the operator accepts them. -/
def validCombination (op : PhysicalOperator) (view : ExprView) : Bool :=
  let gathersSingleton := match op.enforcerKind?, view.firstRelationalPlan? with
    | some (.motion .gather), some plan | some (.motion .gatherMerge), some plan =>
      plan.distribution.isSingleton
    | _, _ => false
  !gathersSingleton && allCompatible (view.childPlans.map (·.distribution)) && op.acceptsChildren

/-- Whether what an alternative delivers leaves a way to meet the requirement: the common table
expressions are there, no motion separates a partitioned scan from its selector, and no selector is
left over. -/
def leavesWay (op : PhysicalOperator) (required : PlanRequirement) (delivered : PlanProperties) :
    Bool :=
  let isMotion := match op.enforcerKind? with
    | some (.motion _) => true
    | _ => false
  delivered.ctes.satisfies required.ctes &&
    !(isMotion && delivered.partition.scans.hasConsumer) &&
    !delivered.partition.scans.hasRedundantSelectors required.partition.spec.scans

/-- The view of an alternative over the best plans of child contexts. -/
def viewOver (id : ExprId) (children : List (Option ContextId)) (required : PlanRequirement) :
    Planning ExprView := do
  let view ← Planning.withChildContexts (← Planning.view id) children
  return view.withRequired required

/-- Offer a costing that is recorded for a request already as the best of the context. Answers
whether there is one. -/
def installRecorded (id : ExprId) (context : ContextId) (request : Nat) : Planning Bool := do
  match (← Planning.expr id).costings.lookup (context, request) with
  | some recorded =>
    let _ ← Planning.updateBest recorded
    return true
  | none => return false

/-- Record that a request was given up because of its lower bound. -/
def recordPruned (id : ExprId) (context : ContextId) (request : Nat) (bound : Cost)
    (children : List (Option ContextId)) : Planning Unit := do
  let _ ← Planning.insertCosting
    { expr := id
      context
      request
      childContexts := children
      delivered := none
      statistics := none
      cost := bound
      pruned := true }

/-- Insert the enforcers that help an alternative to meet the requirement. -/
def addEnforcers (group : GroupId) (source : ExprId) (enforcers : List PhysicalOperator) :
    Planning Unit :=
  enforcers.forM fun enforcer => do
    let _ ← Planning.insert (.physical enforcer) [group] (some group)
      (some { rule := enforcerRule, source })

end Optimizer

namespace Planner

open Optimizer

/-- The lower bound of an alternative, if the best plan found for the requirement in this stage or
an earlier one undercuts it. -/
def pruneBound? (planner : Planner) (id : ExprId) (context : Context)
    (costed : Option (Nat × CostingId)) : Planning (Option Cost) := do
  match ← Planning.lookupBestContext context.group context.required context.stagesSoFar with
  | none => return none
  | some known =>
    match (← Planning.context known).best with
    | none => return none
    | some best =>
      let best := (← Planning.costing best).cost
      let bound ← Planning.lowerBound planner.model planner.config.segments id context.required
        costed
      return if best.lowerThan bound then some bound else none

/-- Cost an alternative for a request of a context over the best plans of child contexts. Nothing is
recorded when the children do not go together, the requirement is missed, or the costing recorded
for the request is the same or better. -/
def cost (planner : Planner) (id : ExprId) (context : ContextId) (request : Nat)
    (children : List (Option ContextId)) : Planning (Option CostingId) := do
  Planning.checkAbort planner.aborted
  let expr ← Planning.expr id
  match expr.op with
  | .physical op =>
    let recorded ← (expr.costings.lookup (context, request)).mapM Planning.costing
    if recorded.any (·.childContexts == children) then return none
    let found ← Planning.context context
    let view ← viewOver id children found.required
    if !validCombination op view then return none
    let delivered := op.delivered view
    if !found.required.isSatisfiedBy view.logical delivered then return none
    let statistics ← Planning.contextStatistics planner.aborted context
    let segments := planner.config.segments
    match ← inputsOf segments (children.filterMap (·)) with
    | none => return none
    | some inputs =>
      let summary : CostingInputs :=
        { rows := hostRows (some delivered) statistics segments
          width := statistics.width found.required.columns
          rebinds := statistics.rebinds
          children := inputs
          segments }
      Planning.insertCosting
        { expr := id
          context
          request
          childContexts := children
          delivered := some delivered
          statistics := some statistics
          cost := planner.model.cost view summary
          pruned := false }
  | _ => return none
where
  /-- The inputs from the best plans of contexts, or nothing when one has none. -/
  inputsOf (segments : Nat) : List ContextId → Planning (Option (List ChildCosting))
    | [] => return some []
    | id :: rest => do
      match ← Planning.bestPlanChild? segments id with
      | none => return none
      | some input => return (← inputsOf segments rest).map (input :: ·)

/-- How the children of an alternative are optimized: what is done so far. -/
structure ChildProgress where
  contexts : List (Option ContextId)
  /-- What the children visited so far deliver. -/
  siblings : List PlanProperties := []
  /-- Whether a child was optimized already. -/
  started : Bool := false

/-- Optimize the children of an alternative for a request, in the order in which the operator visits
them. Answers their contexts, or nothing when the request is given up: a child has no plan, it would
wait for its own context, or the alternative is pruned after its first child. -/
def optimizeChildren (planner : Planner)
    (optimize : GroupId → PlanRequirement → Planning ContextId)
    (id : ExprId) (op : PhysicalOperator) (view : ExprView) (own : ContextId) (context : Context)
    (request : Nat) : List Nat → ChildProgress → Planning (Option (List (Option ContextId)))
  | [], progress => return some progress.contexts
  | position :: rest, progress => do
    match view.children[position]? with
    | none => planner.optimizeChildren optimize id op view own context request rest progress
    | some child =>
      if child.isScalar then
        planner.optimizeChildren optimize id op view own context request rest progress
      else
        let asked := op.childRequirement view context.required position progress.siblings request
        if child.group = context.group ∧ asked = context.required then return none
        let reached ← optimize child.group asked
        match (← Planning.context reached).best with
        | none => return none
        | some best =>
          let contexts := progress.contexts.set position (some reached)
          let siblings := progress.siblings ++ (← Planning.costing best).delivered.toList
          let bound ←
            if !progress.started && planner.config.pruning then
              planner.pruneBound? id context (some (position, best))
            else pure none
          match bound with
          | some bound =>
            recordPruned id own request bound contexts
            return none
          | none =>
            planner.optimizeChildren optimize id op view own context request rest
              { contexts, siblings, started := true }

/-- Add the enforcers that an alternative over the given child contexts needs to meet the
requirement. Answers whether the alternative itself can be costed. -/
def enforce (planner : Planner) (id : ExprId) (op : PhysicalOperator) (context : Context)
    (children : List (Option ContextId)) : Planning Bool := do
  let required := context.required
  let view ← viewOver id children required
  let delivered := op.delivered view
  if !leavesWay op required delivered then return false
  let decision := EnforcementDecision.decide op view.logical required delivered
  if decision.anyProhibited then return false
  addEnforcers context.group id (decision.enforcers planner.enforcers required delivered)
  return decision.allowsCosting

/-- Try one request of a physical alternative in a context. -/
def optimizeRequest (planner : Planner) (optimize : GroupId → PlanRequirement → Planning ContextId)
    (id : ExprId) (op : PhysicalOperator) (own : ContextId) (request : Nat) : Planning Unit := do
  Planning.checkAbort planner.aborted
  if ← installRecorded id own request then return ()
  let context ← Planning.context own
  let arity := (← Planning.expr id).arity
  let unplanned : List (Option ContextId) := List.replicate arity none
  let bound ← if planner.config.pruning then planner.pruneBound? id context none else pure none
  if let some bound := bound then
    recordPruned id own request bound unplanned
    return ()
  let view := (← Planning.view id).withRequired context.required
  if !servesRequirement op view context.required then return ()
  match ← planner.optimizeChildren optimize id op view own context request (op.visitOrder arity)
      { contexts := unplanned } with
  | none => return ()
  | some children =>
    if ← planner.enforce id op context children then
      match ← planner.cost id own request children with
      | some costed =>
        let _ ← Planning.updateBest costed
      | none =>
        let _ ← installRecorded id own request

/-- Go through the alternatives of a group from a position on, including those that are appended on
the way. -/
def visitAlternatives (group : GroupId) (visit : ExprId → Planning Unit) : Nat → Nat → Planning Unit
  | 0, _ => throw .outOfFuel
  | fuel + 1, position => do
    match ((← get).alternativesOf group)[position]? with
    | none => return ()
    | some id =>
      visit id
      visitAlternatives group visit fuel (position + 1)

/-- Optimize a physical alternative in a context, unless it is the parent, belongs to another level,
or does not want to be optimized below the parent. -/
def visitAlternative (planner : Planner)
    (optimize : ExprId → GroupId → PlanRequirement → Planning ContextId)
    (parent : Option ExprId) (own : ContextId) (level : OptimizationLevel) (id : ExprId) :
    Planning Unit := do
  let memo ← get
  let expr ← Planning.expr id
  match expr.op with
  | .physical op =>
    if parent ≠ some id ∧ expr.level = level ∧
        op.shouldOptimize (parent.bind memo.physical?) then
      (List.range op.requestTotal).forM (planner.optimizeRequest (optimize id) id op own)
  | _ => return ()

/-- Optimize a group under a requirement in a stage, for a parent alternative and within a chain of
contexts. A context that is done, or that is on its own chain, is answered as it is. -/
def optimizeGroup (planner : Planner) (stage : Nat) :
    Nat → Option ExprId → List ContextId → GroupId → PlanRequirement → Planning ContextId
  | 0, _, _, _, _ => throw .outOfFuel
  | fuel + 1, parent, path, group, required => do
    Planning.checkAbort planner.aborted
    let group ← Planning.resolve group
    let (own, created) ← Planning.lookupOrCreateContext group required stage
    if !created && ((← Planning.context own).state == .optimized || path.contains own) then
      return own
    modify (·.modifyContext own fun context => { context with state := .optimizing })
    let optimize (id : ExprId) := planner.optimizeGroup stage fuel (some id) (own :: path)
    (← Planning.group group).maxLevel.downward.forM fun level =>
      visitAlternatives group (planner.visitAlternative optimize parent own level) planner.fuel 0
    modify (·.modifyContext own fun context => { context with state := .optimized })
    return own

/-- The best costing of a group under a requirement in a stage, or nothing when no alternative can
meet the requirement. -/
def optimize (planner : Planner) (stage : Nat) (group : GroupId) (required : PlanRequirement) :
    Planning (Option CostingId) := do
  let own ← planner.optimizeGroup stage planner.fuel none [] group required
  return (← Planning.context own).best

end Planner

end QueryPlanner
