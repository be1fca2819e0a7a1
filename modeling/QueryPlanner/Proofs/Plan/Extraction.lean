import QueryPlanner.Proofs.Memo.Reachable
import QueryPlanner.Proofs.Optimizer.Run
import QueryPlanner.Proofs.Plan.Coherent

/-!
# Extracting what the optimizer found

Whatever calls of the optimizer are made on a memo, the plan of a call that found one can be
extracted ever after, and it is coherent with the costs (`Memo.Reachable.extractPlan_coherent`): no
best plan that a parent was costed with is replaced later.
-/

namespace QueryPlanner

open Memo (SameContent Settled)

variable {planners : List Planner} {below : GroupId → GroupId → Prop} {memo current : Memo}

namespace Planning

/-- A coherent plan is extracted exactly when a context holds a best plan for the goal. -/
theorem Post.extractAnyPlan [IsStrictOrder GroupId below] {group : GroupId}
    {required : PlanRequirement} {stages : Nat} (h : memo.Settled planners below)
    (hknown : group.index < memo.groups.size) :
    Post (extractPlan group required stages) memo
      (fun plan final => SameContent memo final ∧
        ∃ id, memo.Holds (memo.master group, required) (max stages 1) id ∧
          plan.Coherent planners memo id)
      (fun _ final => SameContent memo final ∧
        ¬ ∃ id, memo.Holds (memo.master group, required) (max stages 1) id) := by
  unfold Planning.extractPlan
  refine (Post.resolve hknown).andThen (fun _ _ hfail => hfail.elim) ?_
  rintro _ looked ⟨rfl, hlooked⟩
  refine (Post.lookupBestContext h hlooked (h.wellFormed.linksEnd.master_master group)
    (h.wellFormed.masterKnown group hknown)).andThen (fun _ _ hfail => hfail.elim) ?_
  rintro (_ | id) found ⟨hfound, hholds, hsome⟩
  · exact Post.throw ⟨hfound, fun hknown => by simpa using hsome hknown⟩
  have hid := hholds id rfl
  have ⟨context, best, hcontext, _, _, hbest⟩ := hid
  -- contexts further down have a lower rank, and there are at most as many ranks as contexts
  obtain ⟨rank, hbound, hfalls⟩ := exists_rank (Asks below)
    (fun index => ((memo.context? ⟨index⟩).map Context.goal).getD (group, required))
    memo.contexts.size
  refine Post.bind (Post.get ((Post.extractUpTo h rank ?_ hfound hcontext hbest
    ?_).mono ?_ (fun _ _ hfail => hfail.elim)))
  · intro upper below lower hlower hasks
    have hgoal : ((memo.context? ⟨below.index⟩).map Context.goal).getD (group, required) =
        lower.goal := by
      rw [show memo.context? ⟨below.index⟩ = some lower from hlower]
      rfl
    have hknown : below.index < memo.contexts.size := by
      unfold Memo.context? at hlower
      exact (Array.getElem?_eq_some_iff.mp hlower).1
    have := hfalls upper below.index hknown
    rw [hgoal] at this
    exact this hasks
  · rw [hfound.contexts]
    exact Nat.lt_succ_of_le (hbound _)
  · rintro plan final ⟨hfinal, hplan⟩
    exact ⟨hfinal, id, hid, hplan⟩

/-- When a context holds a best plan for a goal, a coherent plan is extracted. -/
theorem Post.extractPlan [IsStrictOrder GroupId below] {group : GroupId} {required : PlanRequirement}
    {stages : Nat} (h : memo.Settled planners below) (hknown : group.index < memo.groups.size)
    (hholds : ∃ known, memo.Holds (memo.master group, required) stages known) :
    Post (extractPlan group required stages) memo
      (fun plan final => SameContent memo final ∧
        ∃ id, memo.Holds (memo.master group, required) stages id ∧
          plan.Coherent planners memo id)
      (fun _ _ => False) := by
  have hstages : max stages 1 = stages := by
    obtain ⟨_, _, _, _, _, hstage, _⟩ := hholds
    omega
  have hany : Post (Planning.extractPlan group required stages) memo _ _ :=
    Post.extractAnyPlan h hknown
  rw [hstages] at hany
  exact hany.mono (fun _ _ hok => hok) (fun _ _ hfail => hfail.2 hholds)

/-- Whatever plan is extracted, it is coherent for a context about the goal. -/
theorem Post.extractedPlan [IsStrictOrder GroupId below] (h : memo.Settled planners below)
    (group : GroupId) (required : PlanRequirement) (stages : Nat) :
    Post (Planning.extractPlan group required stages) memo
      (fun plan _ => ∃ id, memo.Holds (memo.master group, required) (max stages 1) id ∧
        plan.Coherent planners memo id)
      (fun _ _ => True) := by
  by_cases hknown : group.index < memo.groups.size
  · exact (Post.extractAnyPlan h hknown).mono (fun _ _ hok => hok.2) (fun _ _ _ => trivial)
  · unfold Planning.extractPlan Planning.resolve
    refine Post.bind (Post.bind (Post.group (fun found hfound => ?_) (fun _ => trivial)))
    exact absurd (Memo.exists_group?_eq_some.mp ⟨found, hfound⟩) hknown

end Planning

/-! ## After any calls -/

/-- A memo in which nothing is planned yet is settled. -/
theorem Memo.Unplanned.settled (h : memo.Unplanned) (htame : memo.Tame below) :
    memo.Settled planners below where
  toTame := htame
  contextHome id context hcontext := by simp [context?, h.contexts] at hcontext
  filed id context hcontext := by simp [context?, h.contexts] at hcontext
  entries id group hgroup entry hentry := by simp [h.filed id group hgroup] at hentry
  best id context best hcontext := by simp [context?, h.contexts] at hcontext
  slots id expr hexpr entry hentry := by simp [h.slots id expr hexpr] at hentry
  accounted id costing hcosting := by simp [costing?, h.costings] at hcosting
  beaten id costing hcosting := by simp [costing?, h.costings] at hcosting

/-- Any calls of the optimizer go on from a memo that is built of operators of the catalogue, with
enforcers above their own groups and no group above itself. -/
theorem Memo.Reachable.advances_optimizeAll {memo : Memo} (hreachable : memo.Reachable)
    (hcatalogued : ∀ id expr op, memo.expr? id = some expr → expr.op = .physical op →
      op.isCatalogued = true)
    (henforcing : ∀ id expr, memo.expr? id = some expr → expr.op.isEnforcer = true →
      expr.children.map memo.master = [memo.master expr.group])
    (hacyclic : ∀ id, ¬ Relation.TransGen memo.Reads id id) (calls : List OptimizeCall) :
    IsStrictOrder GroupId (Relation.TransGen memo.Reads) ∧
      Memo.Advances (calls.map (·.planner)) (Relation.TransGen memo.Reads) [] memo
        (memo.optimizeAll calls) := by
  have horder : IsStrictOrder GroupId (Relation.TransGen memo.Reads) :=
    { irrefl := hacyclic, trans := fun _ _ _ => .trans }
  have hstart : memo.Settled (calls.map (·.planner)) (Relation.TransGen memo.Reads) :=
    hreachable.unplanned.settled
      ⟨hreachable.wellFormed, hcatalogued, henforcing, fun _ _ => .single⟩
  exact ⟨horder, hstart.optimizeAll fun call hcall => List.mem_map_of_mem hcall⟩

/-- They leave all in order. -/
theorem Memo.Reachable.settled_optimizeAll {memo : Memo} (hreachable : memo.Reachable)
    (hcatalogued : ∀ id expr op, memo.expr? id = some expr → expr.op = .physical op →
      op.isCatalogued = true)
    (henforcing : ∀ id expr, memo.expr? id = some expr → expr.op.isEnforcer = true →
      expr.children.map memo.master = [memo.master expr.group])
    (hacyclic : ∀ id, ¬ Relation.TransGen memo.Reads id id) (calls : List OptimizeCall) :
    IsStrictOrder GroupId (Relation.TransGen memo.Reads) ∧
      (memo.optimizeAll calls).Settled (calls.map (·.planner)) (Relation.TransGen memo.Reads) :=
  (hreachable.advances_optimizeAll hcatalogued henforcing hacyclic calls).imp_right (·.settled)

open Planning (exec extractPlan)

/-- Take any calls of the optimizer on a memo in which nothing is planned yet, over operators of the
catalogue, with enforcers above their own groups and no group above itself. When a call finds a
plan, it can be extracted after all calls, and it is coherent; so is what every costing records. The
best plans of the child contexts of a costing do not change after the call that made it. -/
theorem Memo.Reachable.extractPlan_coherent {memo : Memo} (hreachable : memo.Reachable)
    (hcatalogued : ∀ id expr op, memo.expr? id = some expr → expr.op = .physical op →
      op.isCatalogued = true)
    (henforcing : ∀ id expr, memo.expr? id = some expr → expr.op.isEnforcer = true →
      expr.children.map memo.master = [memo.master expr.group])
    (hacyclic : ∀ id, ¬ Relation.TransGen memo.Reads id id)
    (before after : List OptimizeCall) (call : OptimizeCall) :
    let planners := (before ++ call :: after).map (·.planner)
    let earlier := memo.optimizeAll before
    let final := memo.optimizeAll (before ++ call :: after)
    (∀ best, (exec call.run earlier).1 = .ok (some best) →
      ∃ plan id context,
        (exec (extractPlan call.group call.required (call.stage + 1)) final).1 = .ok plan ∧
        final.context? id = some context ∧
        context.goal = (final.master call.group, call.required) ∧ context.stage ≤ call.stage ∧
        plan.Coherent planners final id) ∧
    (∀ id costing, final.costing? id = some costing → costing.pruned = false →
      final.Justified planners (Relation.TransGen memo.Reads) costing) ∧
    ∀ id costing child, earlier.costing? id = some costing → costing.pruned = false →
      some child ∈ costing.childContexts →
      ∃ best, earlier.best? child = some best ∧ final.best? child = some best := by
  intro planners earlier final
  have hplanners (other : OptimizeCall) (hother : other ∈ before ++ call :: after) :
      other.planner ∈ planners := List.mem_map_of_mem hother
  have horder : IsStrictOrder GroupId (Relation.TransGen memo.Reads) :=
    { irrefl := hacyclic, trans := fun _ _ _ => .trans }
  have hstart : memo.Settled planners (Relation.TransGen memo.Reads) :=
    hreachable.unplanned.settled
      ⟨hreachable.wellFormed, hcatalogued, henforcing, fun _ _ => .single⟩
  have hearlier : Memo.Advances planners (Relation.TransGen memo.Reads) [] memo earlier :=
    hstart.optimizeAll fun other hother => hplanners other (by simp [hother])
  -- the calls after this one go on from the memo that it leaves, whether it succeeds or fails
  have hlater {middle : Memo} (hmiddle : (exec call.run earlier).2 = middle)
      (hsettled : middle.Settled planners (Relation.TransGen memo.Reads)) :
      Memo.Advances planners (Relation.TransGen memo.Reads) [] middle final := by
    have hsplit : final = middle.optimizeAll after := by
      show memo.optimizeAll (before ++ call :: after) = _
      unfold Memo.optimizeAll
      rw [List.foldl_append, List.foldl_cons, ← hmiddle]
      rfl
    rw [hsplit]
    exact hsettled.optimizeAll fun other hother => hplanners other (by simp [hother])
  have hcall := Planner.post_optimize (hplanners call (by simp)) call.stage call.group call.required
    hearlier.settled
  have hfinal : Memo.Advances planners (Relation.TransGen memo.Reads) [] earlier final := by
    obtain ⟨_, middle, hexec, hmiddle, _⟩ | ⟨_, middle, hexec, hmiddle⟩ := hcall.exists_exec <;>
      exact hmiddle.trans (hlater (congrArg Prod.snd hexec) hmiddle.settled)
  refine ⟨fun best hfound => ?_, hfinal.settled.justified, ?_⟩
  · obtain ⟨found, middle, hexec, hmiddle, hknown, id, context, hcontext, hoptimized, hbest, hgoal,
      hstage⟩ | ⟨_, middle, hexec, _⟩ := hcall.exists_exec
    · have hafter := (hlater (congrArg Prod.snd hexec) hmiddle.settled).evolves
      obtain rfl : found = some best :=
        Except.ok.inj ((congrArg Prod.fst hexec).symm.trans hfound)
      -- the context that was optimized keeps its plan through the later calls, so one is found
      have hholds : final.Holds (final.master call.group, call.required) (call.stage + 1) id := by
        refine ⟨context, best, hafter.context?_eq hcontext (.inl hoptimized), ?_, by omega, hbest⟩
        rw [hfinal.evolves.master, hgoal]
      obtain ⟨plan, last, hextract, _, chosen, hchosen, hcoherent⟩ | ⟨_, _, _, hfail⟩ :=
        (Planning.Post.extractPlan hfinal.settled (hfinal.evolves.groups_size ▸ hknown)
          ⟨id, hholds⟩).exists_exec
      · obtain ⟨context, _, hcontext, hgoal, hstage, _⟩ := hchosen
        exact ⟨plan, chosen, context, congrArg Prod.fst hextract, hcontext, hgoal, by omega,
          hcoherent⟩
      · exact hfail.elim
    · rw [show (exec call.run earlier).1 = _ from congrArg Prod.fst hexec] at hfound
      exact absurd hfound (by simp)
  · intro id costing child hcosting hpruned hchild
    obtain ⟨_, _, _, hjustifies⟩ := hearlier.settled.justified id costing hcosting hpruned
    obtain ⟨context, _, hchosen⟩ := exists_chosen_of_planned hjustifies.planned hchild
    obtain ⟨best, hbest⟩ := hchosen.exists_best
    unfold best?
    rw [hchosen.found, (hchosen.evolves hfinal.evolves).found]
    exact ⟨best, hbest, hbest⟩

/-- One table in one group, with a scan of it. -/
def Memo.scanned : Memo :=
  let access : TableAccess := { table := { id := 0, name := "", rows := 0 }, columns := [⟨0⟩] }
  let asked := (exec (Planning.insert (.logical (.get access)) [] none none) {}).2
  (exec (Planning.insert (.physical (.tableScan access)) [] (some ⟨0⟩) none) asked).2

/-- A call that asks for the rows of the first group in the order of a column. -/
def OptimizeCall.sorted : OptimizeCall where
  planner := { model := .unit, config := { pruning := false }, fuel := 32 }
  stage := 0
  group := ⟨0⟩
  required := { columns := .ofList [⟨0⟩], order := ⟨.ascending [⟨0⟩], .satisfy⟩ }

/-- The sort over the scan is found and can be extracted. -/
theorem Memo.scanned_sorted_coherent :
    ∃ best plan id, (exec OptimizeCall.sorted.run scanned).1 = .ok (some best) ∧
      (exec (extractPlan ⟨0⟩ OptimizeCall.sorted.required 1)
        (scanned.optimizeAll [.sorted])).1 = .ok plan ∧
      plan.Coherent [OptimizeCall.sorted.planner] (scanned.optimizeAll [.sorted]) id := by
  have hplain : scanned.exprs.all (fun expr => expr.children.isEmpty && !expr.op.isEnforcer &&
      expr.op.physical?.all PhysicalOperator.isCatalogued) = true := by decide +kernel
  have hexpr (id : ExprId) (expr : MemoExpr) (hfound : scanned.expr? id = some expr) :
      (expr.children = [] ∧ expr.op.isEnforcer = false) ∧
        expr.op.physical?.all PhysicalOperator.isCatalogued = true := by
    simpa using Array.all_eq_true'.mp hplain expr (Array.mem_of_getElem? hfound)
  have hleaf (parent child : GroupId) : ¬ scanned.Reads parent child := by
    rintro ⟨_, id, expr, _, hfound, _, below, hbelow, _⟩
    simp [(hexpr id expr hfound).1.1] at hbelow
  have hfound : ((exec OptimizeCall.sorted.run scanned).1.toOption.join).isSome = true := by
    decide +kernel
  obtain ⟨best, hbest⟩ := Option.isSome_iff_exists.mp hfound
  have hbest : (exec OptimizeCall.sorted.run scanned).1 = .ok (some best) := by
    cases hresult : (exec OptimizeCall.sorted.run scanned).1 with
    | error _ => simp [hresult, Except.toOption] at hbest
    | ok found => simpa [hresult, Except.toOption] using hbest
  obtain ⟨hextract, _⟩ := Memo.Reachable.extractPlan_coherent
    ((Memo.Reachable.empty.insert _ _ _ _).insert _ _ _ _ : scanned.Reachable)
    (fun id expr op hfound hop => by simpa [Operator.physical?, hop] using (hexpr id expr hfound).2)
    (fun id expr hfound henforcer => by simp [(hexpr id expr hfound).1.2] at henforcer)
    (fun id hcycle => by
      obtain ⟨_, hreads, _⟩ := (Relation.TransGen.head'_iff).mp hcycle
      exact hleaf _ _ hreads)
    [] [] .sorted
  obtain ⟨plan, id, _, hplan, _, _, _, hcoherent⟩ := hextract best hbest
  exact ⟨best, plan, id, hbest, hplan, hcoherent⟩

end QueryPlanner
