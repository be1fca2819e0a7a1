import QueryPlanner.Proofs.Plan.Requests

/-!
# The recorded best is a maximum

Costings are offered one after the other, and each is compared with the best one of the moment only.
When all costs are equal or well apart, no costing that is registered for a context is better than
the best one when planning is done (`Memo.Reachable.optimizeAll_peaked`). So nothing that is
registered costs less than the plan that is extracted (`Memo.Reachable.extractPlan_cheapest`).
-/

namespace QueryPlanner

open Planning (exec extractPlan)

variable {memo : Memo}

/-- Where nothing is planned, nothing is registered. -/
theorem Memo.Reachable.peaks (h : memo.Reachable) : memo.Peaks := by
  rintro _ _ _ ⟨id, expr, _, hexpr, hentry, _⟩
  simp [h.unplanned.slots id expr hexpr] at hentry

/-- Nothing that is registered for the context of an extracted plan costs less than the plan. -/
theorem PlanNode.Coherent.cheapest {planners : List Planner} {plan : PlanNode} {id : ContextId}
    (h : plan.Coherent planners memo id) {costing : Costing} (hpeaked : memo.Peaked id costing) :
    costing.cost.lowerThan plan.cost = false := by
  obtain ⟨known, hknown, hworse⟩ := hpeaked
  cases h with
  | node context_found best_held costing_found =>
      unfold Memo.bestCosting? Memo.best? at hknown
      rw [context_found, Option.bind_some, best_held, Option.bind_some, costing_found] at hknown
      obtain rfl := Option.some.inj hknown
      unfold Memo.betterThan at hworse
      exact (Bool.or_eq_false_iff.mp hworse).1

/-- Whatever plan is extracted after such calls, it is the best one of a context about the goal, and
nothing that is registered for this context costs less. -/
theorem Memo.Reachable.extractPlan_cheapest (hreachable : memo.Reachable)
    (hcatalogued : ∀ id expr op, memo.expr? id = some expr → expr.op = .physical op →
      op.isCatalogued = true)
    (henforcing : ∀ id expr, memo.expr? id = some expr → expr.op.isEnforcer = true →
      expr.children.map memo.master = [memo.master expr.group])
    (hacyclic : ∀ id, ¬ Relation.TransGen memo.Reads id id)
    (calls : List OptimizeCall) (hprices : PricesApart (calls.map (·.planner)))
    (root : GroupId) (required : PlanRequirement) (stages : Nat) (plan : PlanNode)
    (hplan : (exec (extractPlan root required stages) (memo.optimizeAll calls)).1 = .ok plan) :
    let final := memo.optimizeAll calls
    ∃ id, final.Holds (final.master root, required) (max stages 1) id ∧
      ∀ slot costing, final.Registered id slot costing →
        costing.cost.lowerThan plan.cost = false := by
  obtain ⟨horder, hadvances⟩ :=
    hreachable.advances_optimizeAll hcatalogued henforcing hacyclic calls
  obtain ⟨found, _, hexec, id, hholds, hcoherent⟩ | ⟨_, _, hexec, _⟩ :=
    (Planning.Post.extractedPlan hadvances.settled root required stages).exists_exec
  · rw [hexec] at hplan
    obtain rfl := Except.ok.inj hplan
    exact ⟨id, hholds, fun slot costing hregistered => hcoherent.cheapest
      (hadvances.peaks hprices hreachable.peaks id slot costing hregistered (by simp))⟩
  · rw [hexec] at hplan
    exact absurd hplan (by simp)

/-! ## A table and a sort -/

/-- A model that charges enforcers two units and all other operators one, whatever they read. -/
def CostModel.flat : CostModel where
  cost view _ := if view.op.isEnforcer then ⟨2.0⟩ else ⟨1.0⟩

end QueryPlanner
