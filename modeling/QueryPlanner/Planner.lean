import QueryPlanner.Config
import QueryPlanner.CostModel
import QueryPlanner.Operator.Enforcement

/-!
# The setting of a planner

What stays the same while plans are searched: the cost model, the enforcers on offer, the
configuration and the abort signal.
-/

namespace QueryPlanner

/-- The setting in which plans are searched. -/
structure Planner where
  model : CostModel
  enforcers : EnforcerSettings := {}
  config : SearchConfig := {}
  /-- Whether the abort signal is raised. -/
  aborted : Bool := false
  /-- A bound on nested calls and on the steps of one loop. -/
  fuel : Nat := Nat.pow 2 62

end QueryPlanner
