import QueryPlanner.Memo.Context
import QueryPlanner.Operator.View

/-!
# Views of alternatives

`Planning.view` collects what the operator of an alternative sees of the memo. The best plans of the
children are attached by their contexts, or directly.
-/

namespace QueryPlanner

namespace ExprView

/-- Replace the plan of a child, with its statistics. -/
def withChildPlan (view : ExprView) (child : Nat) (plan : Option PlanProperties)
    (statistics : Option Statistics) : ExprView :=
  { view with
    children := view.children.modify child fun found =>
      { found with plan, planStatistics := statistics } }

/-- Replace the plans of the children, from the first on. Statistics stay as they are. -/
def withChildPlans (view : ExprView) (plans : List (Option PlanProperties)) : ExprView :=
  { view with
    children := view.children.zipIdx.map fun (child, position) =>
      match plans[position]? with
      | some plan => { child with plan }
      | none => child }

/-- Set the requirement that the alternative is considered for. -/
def withRequired (view : ExprView) (required : PlanRequirement) : ExprView :=
  { view with required := some required }

end ExprView

namespace Planning

/-- What an operator sees of a child group. -/
def childView (id : GroupId) : Planning ChildView := do
  let id ← resolve id
  let group ← group id
  return { group := id, properties := group.properties, groupStatistics := group.statistics }

/-- What the operator of an alternative sees of its surroundings, before its children have plans. -/
def view (id : ExprId) : Planning ExprView := do
  let expr ← expr id
  let owner ← resolve expr.group
  let children ← expr.children.mapM childView
  let group ← group owner
  return {
    expr := id
    op := expr.op
    group := owner
    logical := group.logical
    groupStatistics := group.statistics
    children }

/-- Attach the best plan of a context, if there is one, to a child. -/
def withBestPlan (view : ExprView) (child : Nat) (id : Option ContextId) : Planning ExprView := do
  match (← id.mapM context).bind (·.best) with
  | some best =>
    let chosen ← costing best
    return view.withChildPlan child chosen.delivered chosen.statistics
  | none => return view

/-- Attach the best plans of contexts to the children, from the first on. -/
def withChildContexts (view : ExprView) (contexts : List (Option ContextId)) : Planning ExprView :=
  (contexts.take view.arity).zipIdx.foldlM
    (fun view (context, child) => withBestPlan view child context) view

end Planning

end QueryPlanner
