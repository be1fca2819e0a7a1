/-!
# Identifiers

Groups, alternatives, contexts and costings are numbered in creation order, each kind from zero.
-/

namespace QueryPlanner

/-- A group of equivalent alternatives. -/
structure GroupId where
  index : Nat
  deriving DecidableEq, Repr, Inhabited

/-- An alternative of a group. -/
structure ExprId where
  index : Nat
  deriving DecidableEq, Repr, Inhabited

/-- A context in which a group is optimized. -/
structure ContextId where
  index : Nat
  deriving DecidableEq, Repr, Inhabited

/-- An alternative costed within a context. -/
structure CostingId where
  index : Nat
  deriving DecidableEq, Repr, Inhabited

/-- The text of a group, such as `g3`. -/
def GroupId.text (group : GroupId) : String := "g" ++ toString group.index

/-- The text of an alternative, such as `e5`. -/
def ExprId.text (expr : ExprId) : String := "e" ++ toString expr.index

/-- The text of a context, such as `oc1`. -/
def ContextId.text (context : ContextId) : String := "oc" ++ toString context.index

/-- The text of a costing, such as `cc2`. -/
def CostingId.text (costing : CostingId) : String := "cc" ++ toString costing.index

end QueryPlanner
