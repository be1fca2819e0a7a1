import QueryPlanner.Binding
import QueryPlanner.Memo.View
import QueryPlanner.Operator.Delivery

/-!
# Plans

The best plan of a group is spread over costings, each of which names an alternative and the
contexts of its children. `Planning.extractPlan` puts it together as a tree of `PlanNode`s. The
delivered properties are derived again from the extracted children and checked against the
requirement of the context that each node was chosen for.
-/

namespace QueryPlanner

/-- A node of a plan. -/
structure PlanNode where
  op : Operator
  group : GroupId
  expr : ExprId
  /-- The cost of the subtree, zero for a scalar. -/
  cost : Cost
  /-- What the subtree delivers, nothing for a scalar. -/
  delivered : Option PlanProperties
  statistics : Option Statistics
  children : List PlanNode

namespace PlanNode

mutual

/-- All nodes, every node before those below it. -/
def nodes : PlanNode → List PlanNode
  | node@⟨_, _, _, _, _, _, children⟩ => node :: nodesAmong children

/-- All nodes of several plans. -/
def nodesAmong : List PlanNode → List PlanNode
  | [] => []
  | node :: rest => node.nodes ++ nodesAmong rest

end

/-- The number of nodes. -/
def size (plan : PlanNode) : Nat := plan.nodes.length

/-- The kinds of all nodes, every node before those below it. -/
def kinds (plan : PlanNode) : List String := plan.nodes.map (·.op.kind)

/-- What is said about the cost of a node, nothing about that of a scalar. -/
def costText (op : Operator) (cost : Cost) (statistics : Option Statistics) : String :=
  if op.isScalar then ""
  else
    let rows := (statistics.map fun found => ", rows=" ++ Decimal.fixedText 1 found.rows).getD ""
    " (cost=" ++ cost.text ++ rows ++ ")"

mutual

/-- The text of a plan: one line for each node, indented by its depth. -/
def textAt (depth : Nat) : PlanNode → String
  | ⟨op, _, _, cost, _, statistics, children⟩ =>
    String.ofList (List.replicate (2 * depth) ' ') ++ op.kind ++ costText op cost statistics ++
      "\n" ++ textsAt (depth + 1) children

/-- The text of several plans. -/
def textsAt (depth : Nat) : List PlanNode → String
  | [] => ""
  | plan :: rest => plan.textAt depth ++ textsAt depth rest

end

/-- The text of a plan. -/
def text (plan : PlanNode) : String := plan.textAt 0

end PlanNode

namespace Planning

mutual

/-- A bound tree of scalars as a plan. -/
def scalarPlan : BoundExpr → Planning PlanNode
  | .leaf group => throw (.noPlan group .scalar .noScalarAlternative)
  | .node expr group op children => do
    return {
      op
      group
      expr
      cost := .zero
      delivered := none
      statistics := none
      children := ← scalarPlans children }

/-- Several bound trees of scalars as plans. -/
def scalarPlans : List BoundExpr → Planning (List PlanNode)
  | [] => return []
  | bound :: rest => do
    let plan ← scalarPlan bound
    return plan :: (← scalarPlans rest)

end

/-- The first expression of a scalar group as a plan. -/
def extractScalar (id : GroupId) : Planning PlanNode := do
  match ← bindGroup .tree id (some 1) with
  | bound :: _ => scalarPlan bound
  | [] => throw (.noPlan id .scalar .noScalarAlternative)

/-- The plans of the children of a costed alternative, with the view of the alternative over
them. -/
def extractChildren (extract : ContextId → Planning PlanNode) (context : Context)
    (costing : Costing) :
    List (GroupId × Nat) → ExprView → Planning (List PlanNode × ExprView)
  | [], view => return ([], view)
  | (child, position) :: rest, view => do
    let child ← resolve child
    if view.isScalarChild position then
      let plan ← extractScalar child
      let (plans, view) ← extractChildren extract context costing rest view
      return (plan :: plans, view)
    else
      match (costing.childContexts[position]?).bind id with
      | none => throw (.noPlan child (.plan context.required) .childNotRecorded)
      | some below =>
        let plan ← extract below
        let view := match plan.delivered with
          | some delivered => view.withChildPlan position (some delivered) plan.statistics
          | none => view
        let (plans, view) ← extractChildren extract context costing rest view
        return (plan :: plans, view)

/-- The best plan of a context, of at most the given number of relational levels. -/
def extractUpTo : Nat → ContextId → Planning PlanNode
  | 0, _ => throw .outOfFuel
  | fuel + 1, id => do
    let context ← context id
    let some best := context.best
      | throw (.noPlan context.group (.plan context.required) .noBestPlan)
    let costing ← costing best
    let expr ← expr costing.expr
    match expr.op with
    | .physical op =>
      let view := (← view costing.expr).withRequired context.required
      let (children, view) ←
        extractChildren (extractUpTo fuel) context costing expr.children.zipIdx view
      let delivered := op.delivered view
      if context.required.isSatisfiedBy view.logical delivered then
        return {
          op := expr.op
          group := context.group
          expr := costing.expr
          cost := costing.cost
          delivered := some delivered
          statistics := costing.statistics
          children }
      else throw (.unsatisfied context.group context.required)
    | _ => throw (.noPlan context.group (.plan context.required) .bestNotPhysical)

/-- The best plan of a context. No chain of child contexts without a repetition is longer than the
number of contexts. -/
def extractContext (id : ContextId) : Planning PlanNode := do
  extractUpTo ((← get).contexts.size + 1) id

/-- The best plan of a group for a requirement over the given number of stages, at least one. -/
def extractPlan (root : GroupId) (required : PlanRequirement) (stages : Nat) :
    Planning PlanNode := do
  let root ← resolve root
  match ← lookupBestContext root required (max stages 1) with
  | some id => extractContext id
  | none => throw (.noPlan root (.plan required) .noCostedPlan)

end Planning

end QueryPlanner
