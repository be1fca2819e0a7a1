import QueryPlanner.Proofs.Plan.Requests

/-!
# What pruning gives up

Branch-and-bound gives a request of an alternative up when its lower bound is above the best plan
for the goal. So wherever something was given up the goal has a plan, in this stage or an earlier
one, and the bound was above the cost of a plan that was found for the goal
(`Memo.Reachable.optimizeAll_undercut`). This says nothing of plans that need enforcers: those that
an alternative asks for are inserted when it is not pruned, so a plan under a sort, say, may be missed
together with the pruned alternative that would have asked for the sort.
-/

namespace QueryPlanner

open Planning (exec extractPlan)

/-- Take any calls of the optimizer, with or without pruning, on a memo in which nothing is planned
yet, over operators of the catalogue, with enforcers above their own groups and no group above itself.
Every costing that was pruned is undercut: a costing for the same goal, in its stage or an earlier
one, is below its bound, and after all calls a coherent plan is extracted for the goal in the stages
so far. -/
theorem Memo.Reachable.optimizeAll_undercut {memo : Memo} (hreachable : memo.Reachable)
    (hcatalogued : ∀ id expr op, memo.expr? id = some expr → expr.op = .physical op →
      op.isCatalogued = true)
    (henforcing : ∀ id expr, memo.expr? id = some expr → expr.op.isEnforcer = true →
      expr.children.map memo.master = [memo.master expr.group])
    (hacyclic : ∀ id, ¬ Relation.TransGen memo.Reads id id) (calls : List OptimizeCall) :
    let planners := calls.map (·.planner)
    let final := memo.optimizeAll calls
    ∀ id pruned, final.costing? id = some pruned → pruned.pruned = true →
      ∃ own, final.context? pruned.context = some own ∧
        final.Undercut own.goal own.stage pruned.cost ∧
        ∃ plan holder, (exec (extractPlan own.group own.required (own.stage + 1)) final).1 = .ok plan ∧
          final.Holds own.goal (own.stage + 1) holder ∧ plan.Coherent planners final holder := by
  intro planners final id pruned hcosting hpruned
  obtain ⟨horder, hsettled⟩ :=
    hreachable.settled_optimizeAll hcatalogued henforcing hacyclic calls
  obtain ⟨own, hown, hundercut⟩ := hsettled.beaten id pruned hcosting hpruned
  refine ⟨own, hown, hundercut, ?_⟩
  obtain ⟨known, context, _, _, hcontext, hgoal, hstage, hbest, _⟩ := hundercut
  obtain ⟨best, hbest⟩ := Option.isSome_iff_exists.mp hbest
  obtain ⟨group, hgroup, _⟩ := hsettled.filed _ own hown
  have hmaster : final.master own.group = own.group := hsettled.contextHome _ own hown
  have hholds : final.Holds (final.master own.group, own.required) (own.stage + 1) known :=
    ⟨context, best, hcontext, by rw [hmaster, hgoal]; rfl, Nat.lt_succ_of_le hstage, hbest⟩
  obtain ⟨plan, _, hexec, _, holder, hplan⟩ | ⟨_, _, _, hfail⟩ :=
    (Planning.Post.extractPlan hsettled (Memo.exists_group?_eq_some.mp ⟨group, hgroup⟩)
      ⟨known, hholds⟩).exists_exec
  · rw [hmaster] at hplan
    exact ⟨plan, holder, congrArg Prod.fst hexec, hplan⟩
  · exact hfail.elim

/-- One table with an index in one group, with a scan of the table and one of the index. -/
def Memo.indexed : Memo :=
  let index : TableIndex := { name := "", keys := [⟨0⟩] }
  let access : TableAccess :=
    { table := { id := 0, name := "", rows := 0, indexes := [index] }, columns := [⟨0⟩] }
  [(Operator.logical (.get access), none), (.physical (.tableScan access), some ⟨0⟩),
    (.physical (.indexScan access index), some ⟨0⟩)].foldl
      (fun memo (op, target) => (exec (Planning.insert op [] target none) memo).2) {}

/-- A call with pruning that asks for the rows of the first group, where an index costs more. -/
def OptimizeCall.indexed : OptimizeCall where
  planner :=
    { model := { cost := fun view _ => match view.op with
        | .physical (.indexScan ..) => ⟨2.0⟩
        | _ => ⟨1.0⟩ }
      config := { pruning := true }
      fuel := 32 }
  stage := 0
  group := ⟨0⟩
  required := { columns := .ofList [⟨0⟩] }

/-- The index scan is given up for the table scan. -/
theorem Memo.indexed_undercut :
    ∃ id pruned own, (indexed.optimizeAll [.indexed]).costing? id = some pruned ∧
      pruned.pruned = true ∧ (indexed.optimizeAll [.indexed]).context? pruned.context = some own ∧
      (indexed.optimizeAll [.indexed]).Undercut own.goal own.stage pruned.cost := by
  have hstacked : indexed.isStacked = true := by decide +kernel
  have hreachable : indexed.Reachable :=
    ((Reachable.empty.insert _ _ _ _).insert _ _ _ _).insert _ _ _ _
  have hsome : (indexed.optimizeAll [.indexed]).costings.any (·.pruned) = true := by decide +kernel
  obtain ⟨index, hlt, hpruned⟩ := Array.any_eq_true.mp hsome
  obtain ⟨own, hown, hundercut, _⟩ := hreachable.optimizeAll_undercut
    (isCatalogued_of_isStacked hstacked) (enforces_of_isStacked hstacked)
    (acyclic_of_isStacked hstacked hreachable.wellFormed) [.indexed] ⟨index⟩ _
    (Array.getElem?_eq_getElem hlt) hpruned
  exact ⟨⟨index⟩, _, own, Array.getElem?_eq_getElem hlt, hpruned, hown, hundercut⟩

end QueryPlanner
