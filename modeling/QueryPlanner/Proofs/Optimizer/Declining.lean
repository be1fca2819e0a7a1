import QueryPlanner.Proofs.Optimizer.Improvement
import QueryPlanner.Proofs.Optimizer.TableCosting
import QueryPlanner.Proofs.Plan.Pruning

/-!
# Costings that are declined

`Planner.cost` answers nothing when the child contexts do not go together, the requirement is missed,
a child context has no plan, or the costing recorded for the request is not beaten. It also answers
nothing when that one is over the same child contexts, even if it was only given up
(`Planner.Declines`).
-/

namespace QueryPlanner

open Memo (SameContent)
open Planning (Post Keeps exec)
open Optimizer (validCombination)

variable {memo : Memo} {planner : Planner} {id : ExprId} {op : PhysicalOperator} {expr : MemoExpr}
  {own : ContextId} {context : Context} {request : Nat} {children : List (Option ContextId)}

/-- The costing that is recorded with an alternative for a request of a context. -/
def Memo.recorded? (memo : Memo) (id : ExprId) (own : ContextId) (request : Nat) : Option Costing :=
  ((memo.expr? id).bind (·.costings.lookup (own, request))).bind memo.costing?

theorem Memo.SameContent.recorded? {memo memo' : Memo} (h : SameContent memo memo') (id : ExprId)
    (own : ContextId) (request : Nat) :
    memo'.recorded? id own request = memo.recorded? id own request := by
  have hslot : (memo'.expr? id).map (·.costings.lookup (own, request)) =
      (memo.expr? id).map (·.costings.lookup (own, request)) := h.map_expr? (fun _ => rfl) id
  have hjoin (found : Option MemoExpr) (find : CostingId → Option Costing) :
      (found.bind (·.costings.lookup (own, request))).bind find =
        (found.map (·.costings.lookup (own, request))).join.bind find := by
    cases found <;> rfl
  unfold Memo.recorded?
  rw [hjoin, hjoin, hslot, funext h.costing?]

/-! ## What is offered -/

namespace Planner

/-- What costing an alternative offers for a request of a context: nothing when the combination is of
no use, otherwise a costing that is charged what the model says. -/
def weigh (planner : Planner) (id : ExprId) (op : PhysicalOperator) (own : ContextId) (request : Nat)
    (children : List (Option ContextId)) : Planning (Option Costing) := do
  let found ← Planning.context own
  let view ← Optimizer.viewOver id children found.required
  if !validCombination op view then return none
  let delivered := op.delivered view
  if !found.required.isSatisfiedBy view.logical delivered then return none
  let statistics ← Planning.contextStatistics planner.aborted own
  match ← cost.inputsOf planner.config.segments (children.filterMap (·)) with
  | none => return none
  | some inputs =>
    return some
      { expr := id
        context := own
        request
        childContexts := children
        delivered := some delivered
        statistics := some statistics
        cost := planner.model.cost view
          { rows := hostRows (some delivered) statistics planner.config.segments
            width := statistics.width found.required.columns
            rebinds := statistics.rebinds
            children := inputs
            segments := planner.config.segments }
        pruned := false }

/-- What is offered is recorded, unless the slot holds a costing over the same child contexts. -/
theorem cost_eq (planner : Planner) (id : ExprId) (own : ContextId) (request : Nat)
    (children : List (Option ContextId)) :
    planner.cost id own request children = (do
      Planning.checkAbort planner.aborted
      let expr ← Planning.expr id
      match expr.op with
      | .physical op =>
        let recorded ← (expr.costings.lookup (own, request)).mapM Planning.costing
        if recorded.any (·.childContexts == children) then return none
        match ← planner.weigh id op own request children with
        | none => return none
        | some candidate => Planning.insertCosting candidate
      | _ => return none) := by
  unfold cost weigh
  refine congrArg _ (funext fun _ => congrArg _ (funext fun expr => ?_))
  cases expr.op with
  | logical _ | scalar _ => rfl
  | physical op =>
      dsimp only
      refine congrArg _ (funext fun recorded => ?_)
      split
      · rfl
      · rw [bind_assoc]
        refine congrArg _ (funext fun found => ?_)
        rw [bind_assoc]
        refine congrArg _ (funext fun view => ?_)
        split
        · rfl
        · split
          · rfl
          · rw [bind_assoc]
            refine congrArg _ (funext fun statistics => ?_)
            rw [bind_assoc]
            refine congrArg _ (funext fun inputs => ?_)
            cases inputs <;> rfl

end Planner

namespace Planning

/-- A child context has a costing input if and only if it has a best plan. -/
theorem Post.bestPlanKnown {segments : Nat} {child : ContextId} :
    Post (Planning.bestPlanChild? segments child) memo
      (fun input final => final = memo ∧ (input = none ↔ memo.best? child = none))
      (fun _ _ => True) := by
  unfold Planning.bestPlanChild? Memo.best?
  refine Post.bind (Post.context (fun found hfound => ?_) fun _ => trivial)
  rw [hfound, Option.bind_some]
  cases found.best with
  | none => exact Post.pure ⟨rfl, by simp⟩
  | some best =>
      refine Post.bind (Post.bind (Post.costing (fun costing _ => ?_) fun _ => trivial))
      exact Post.bind (Post.context (fun _ _ => Post.pure (Post.pure ⟨rfl, by simp⟩)) fun _ => trivial)

/-- There are costing inputs if and only if all child contexts have best plans. -/
theorem Post.inputsOfKnown {segments : Nat} {ids : List ContextId} :
    Post (Planner.cost.inputsOf segments ids) memo
      (fun inputs final => final = memo ∧ (inputs = none ↔ ∃ child ∈ ids, memo.best? child = none))
      (fun _ _ => True) := by
  induction ids with
  | nil => exact Post.pure ⟨rfl, by simp⟩
  | cons child rest ih =>
      unfold Planner.cost.inputsOf
      refine Post.bestPlanKnown.andThen (fun _ _ _ => trivial) ?_
      rintro (_ | input) same ⟨hsame, hinput⟩ <;> obtain rfl := hsame.symm
      · exact Post.pure ⟨rfl, by simp [hinput.mp rfl]⟩
      · refine ih.andThen (fun _ _ _ => trivial) ?_
        rintro inputs same ⟨hsame, hinputs⟩
        obtain rfl := hsame.symm
        refine Post.pure ⟨rfl, ?_⟩
        have hknown : memo.best? child ≠ none := fun hnone => by simpa using hinput.mpr hnone
        simpa [hknown] using hinputs

/-- What keeps its place: a costing that was not given up, unless the candidate is costed over other
children and better. -/
theorem Post.mayReplace_iff {candidate recorded : Costing} (hends : memo.LinksEnd)
    (hcosted : candidate.pruned = false) :
    Post (Planning.mayReplace candidate recorded) memo
      (fun replaces final => SameContent memo final ∧ (replaces = false ↔ recorded.pruned = false ∧
        (recorded.childContexts = candidate.childContexts ∨
          memo.betterThan candidate recorded = false)))
      (fun _ _ => True) := by
  unfold Planning.mayReplace
  split
  · rename_i hpruned
    exact Post.pure ⟨.refl memo, by simp [hpruned]⟩
  · rename_i hunpruned
    rw [hcosted, Bool.or_false]
    split
    · rename_i hsame
      exact Post.pure ⟨.refl memo, by simpa [hunpruned] using .inl (beq_iff_eq.mp hsame)⟩
    · rename_i hother
      refine (Post.compared (R := SameContent)).mono ?_ fun _ _ _ => trivial
      rintro _ final ⟨hlooked, rfl⟩
      refine ⟨hlooked, ?_⟩
      rw [hlooked.betterThan hends]
      simpa [hunpruned] using fun hsame => absurd (beq_iff_eq.mpr hsame) hother

/-- A costing is recorded unless one that was not given up keeps the slot. -/
theorem Post.insertCosting_iff {candidate : Costing} (hends : memo.LinksEnd)
    (hcosted : candidate.pruned = false) :
    Post (Planning.insertCosting candidate) memo
      (fun added _ => added = none ↔ ∃ recorded,
        memo.recorded? candidate.expr candidate.context candidate.request = some recorded ∧
        recorded.pruned = false ∧ (recorded.childContexts = candidate.childContexts ∨
          memo.betterThan candidate recorded = false))
      (fun _ _ => True) := by
  unfold Planning.insertCosting Memo.recorded?
  refine Post.bind (Post.expr (fun expr hexpr => ?_) fun _ => trivial)
  rw [hexpr, Option.bind_some]
  cases hslot : expr.costings.lookup (candidate.context, candidate.request) with
  | none => exact Post.bind (Post.get (Post.bind (Post.modify (Post.pure (by simp)))))
  | some slot =>
      refine Post.bind (Post.costing (fun recorded hrecorded => ?_) fun _ => trivial)
      rw [Option.bind_some, hrecorded]
      refine (Post.mayReplace_iff hends hcosted).andThen (fun _ _ _ => trivial) ?_
      rintro (_ | _) current ⟨_, hkeeps⟩
      · exact Post.pure (by simpa using hkeeps)
      · refine Post.bind (Post.get (Post.bind (Post.modify (Post.bind
          (Post.context (fun found _ => ?_) fun _ => trivial)))))
        dsimp only
        have hnot : ∀ id : CostingId, (some id = none ↔ ∃ other, some recorded = some other ∧
            other.pruned = false ∧ (other.childContexts = candidate.childContexts ∨
              memo.betterThan candidate other = false)) := by
          simpa using hkeeps
        split
        · exact Post.bind (Post.modify (Post.pure (hnot _)))
        · exact Post.pure (hnot _)

end Planning

namespace Planner

/-- What is offered is a costing over the child contexts. There is nothing to offer if and only if the
combination is not valid, the requirement is missed, or a child context has no plan. -/
theorem post_weigh (hwell : memo.WellFormed) (hexpr : memo.expr? id = some expr)
    (hcontext : memo.context? own = some context) :
    Post (planner.weigh id op own request children) memo
      (fun offered final => SameContent memo final ∧
        (offered = none ↔ validCombination op (memo.planView id expr children) = false ∨
          context.required.isSatisfiedBy (memo.planView id expr children).logical
            (op.delivered (memo.planView id expr children)) = false ∨
          ∃ child, some child ∈ children ∧ memo.best? child = none) ∧
        ∀ candidate ∈ offered, candidate.IsOf id own request children)
      (fun _ _ => True) := by
  unfold weigh
  refine Post.bind (Post.context (fun found hfound => ?_) fun _ => trivial)
  obtain rfl := Option.some.inj (hcontext.symm.trans hfound)
  refine (Planning.Post.viewOverBests hwell hexpr).andThen (fun _ _ _ => trivial) ?_
  rintro view viewed ⟨hviewed, hview⟩
  have hvalid : validCombination op view = validCombination op (memo.planView id expr children) := by
    rw [← Optimizer.validCombination_bare, hview]
    rfl
  have hdelivered : op.delivered view = op.delivered (memo.planView id expr children) := by
    rw [← PhysicalOperator.delivered_bare, hview, PhysicalOperator.delivered_withRequired]
    rfl
  have hlogical : view.logical = (memo.planView id expr children).logical := by
    rw [← ExprView.bare_logical, hview]
    rfl
  rw [hvalid]
  split
  · rename_i hinvalid
    exact Post.pure ⟨hviewed, by simpa using .inl (by simpa using hinvalid), by simp⟩
  · rename_i hfits
    dsimp only
    rw [hdelivered, hlogical]
    split
    · rename_i hmissed
      exact Post.pure ⟨hviewed, by simpa using .inr (.inl (by simpa using hmissed)), by simp⟩
    · rename_i hmet
      refine (Planning.keeps_contextStatistics viewed).andThen (fun _ _ _ => trivial) ?_
      intro statistics derived hderived
      have hsame := hviewed.trans hderived
      refine Planning.Post.inputsOfKnown.andThen (fun _ _ _ => trivial) ?_
      rintro inputs _ ⟨rfl, hinputs⟩
      have hplanned : inputs = none ↔ ∃ child, some child ∈ children ∧ memo.best? child = none := by
        rw [hinputs]
        simp [Memo.best?, hsame.context?]
      cases inputs with
      | none => exact Post.pure ⟨hsame, by simpa using .inr (.inr (hplanned.mp rfl)), by simp⟩
      | some inputs =>
          refine Post.pure ⟨hsame, ?_, ?_⟩
          · have hnone : ¬ ∃ child, some child ∈ children ∧ memo.best? child = none :=
              fun hmissing => by simpa using hplanned.mpr hmissing
            simp_all
          · simpa using ⟨rfl, rfl, rfl, rfl, rfl, _, rfl⟩

/-! ## What is declined -/

/-- Why costing an alternative for a request of a context answers nothing. -/
inductive Declines (planner : Planner) (memo : Memo) (id : ExprId) (expr : MemoExpr)
    (op : PhysicalOperator) (own : ContextId) (context : Context) (request : Nat)
    (children : List (Option ContextId)) : Prop
  /-- The slot holds a costing over the same child contexts, whether it was given up or not. -/
  | repeated (costing : Costing) (slot : memo.recorded? id own request = some costing)
      (same : costing.childContexts = children)
  | mismatched (h : validCombination op (memo.planView id expr children) = false)
  | missed (h : context.required.isSatisfiedBy (memo.planView id expr children).logical
      (op.delivered (memo.planView id expr children)) = false)
  | unplanned (child : ContextId) (given : some child ∈ children) (h : memo.best? child = none)
  /-- The slot holds a costing that was not given up and that what is offered does not beat. -/
  | unbeaten (costing candidate : Costing) (slot : memo.recorded? id own request = some costing)
      (costed : costing.pruned = false)
      (offered : (exec (planner.weigh id op own request children) memo).1 = .ok (some candidate))
      (h : memo.betterThan candidate costing = false)

/-- Where something is offered and the slot holds no costing over the same child contexts, costing is
declined if and only if the slot holds a costing that was not given up and is not beaten. -/
theorem declines_iff_of_offered {candidate : Costing}
    (hoffered : (exec (planner.weigh id op own request children) memo).1 = .ok (some candidate))
    (hfits : ¬ (validCombination op (memo.planView id expr children) = false ∨
      context.required.isSatisfiedBy (memo.planView id expr children).logical
        (op.delivered (memo.planView id expr children)) = false ∨
      ∃ child, some child ∈ children ∧ memo.best? child = none))
    (hfresh : ∀ costing, memo.recorded? id own request = some costing →
      costing.childContexts ≠ children) :
    planner.Declines memo id expr op own context request children ↔
      ∃ costing, memo.recorded? id own request = some costing ∧ costing.pruned = false ∧
        memo.betterThan candidate costing = false := by
  constructor
  · intro hdeclines
    cases hdeclines with
    | repeated costing slot same => exact absurd same (hfresh costing slot)
    | mismatched h => exact absurd (.inl h) hfits
    | missed h => exact absurd (.inr (.inl h)) hfits
    | unplanned child given h => exact absurd (.inr (.inr ⟨child, given, h⟩)) hfits
    | unbeaten costing known slot costed offered h =>
        obtain rfl := Option.some.inj (Except.ok.inj (hoffered.symm.trans offered))
        exact ⟨costing, slot, costed, h⟩
  · rintro ⟨costing, hslot, hcosted, hbeaten⟩
    exact .unbeaten costing candidate hslot hcosted hoffered hbeaten

/-- The slot of an alternative is looked up and its costing read. -/
theorem post_recorded (hexpr : memo.expr? id = some expr) :
    Post ((expr.costings.lookup (own, request)).mapM Planning.costing) memo
      (fun recorded final => final = memo ∧ recorded = memo.recorded? id own request)
      (fun _ _ => True) := by
  unfold Memo.recorded?
  rw [hexpr, Option.bind_some]
  cases expr.costings.lookup (own, request) with
  | none => exact Post.pure ⟨rfl, rfl⟩
  | some slot =>
      refine Post.bind (Post.costing (fun costing hcosting => ?_) fun _ => trivial)
      exact Post.pure ⟨rfl, by rw [Option.bind_some, hcosting]⟩

/-- Costing an alternative answers nothing for these reasons only, and for each of them. -/
theorem post_cost (hwell : memo.WellFormed) (hexpr : memo.expr? id = some expr)
    (hop : expr.op = .physical op) (hcontext : memo.context? own = some context) :
    Post (planner.cost id own request children) memo
      (fun added _ => added = none ↔
        planner.Declines memo id expr op own context request children)
      (fun _ _ => True) := by
  rw [cost_eq]
  refine Post.bind ?_
  unfold Planning.checkAbort
  split
  · exact Post.throw trivial
  refine Post.pure (Post.bind (Post.expr (fun found hfound => ?_) fun _ => trivial))
  obtain rfl := Option.some.inj (hexpr.symm.trans hfound)
  rw [hop]
  refine (post_recorded hexpr).andThen (fun _ _ _ => trivial) ?_
  rintro recorded same ⟨hsame, rfl⟩
  obtain rfl := hsame.symm
  split
  · rename_i hrepeated
    obtain ⟨costing, hcosting, hchildren⟩ := (Option.any_eq_true _ _).mp hrepeated
    exact Post.pure ⟨fun _ => .repeated costing hcosting (beq_iff_eq.mp hchildren), fun _ => rfl⟩
  rename_i hother
  have hfresh (costing : Costing) (hcosting : memo.recorded? id own request = some costing) :
      costing.childContexts ≠ children := fun hchildren =>
    hother ((Option.any_eq_true _ _).mpr ⟨costing, hcosting, beq_iff_eq.mpr hchildren⟩)
  have hweigh : Post (planner.weigh id op own request children) memo _ (fun _ _ => True ∧ True) :=
    (Post.of_exec (fun _ _ hexec => hexec) fun _ _ _ => trivial).both
      (post_weigh hwell hexpr hcontext)
  refine hweigh.andThen (fun _ _ _ => trivial) ?_
  rintro (_ | candidate) weighed ⟨hexec, hlooked, hnothing, hcandidate⟩
  · refine Post.pure ⟨fun _ => ?_, fun _ => rfl⟩
    obtain hvalid | hmissed | ⟨child, hgiven, hplan⟩ := hnothing.mp rfl
    · exact .mismatched hvalid
    · exact .missed hmissed
    · exact .unplanned child hgiven hplan
  · have hof := hcandidate candidate rfl
    have hdeclines := declines_iff_of_offered (by rw [hexec])
      (fun hreason => by simpa using hnothing.mpr hreason) hfresh
    refine (Planning.Post.insertCosting_iff (hlooked.links hwell.linksEnd).1 hof.costed).mono ?_
      fun _ _ _ => trivial
    intro added _ hadded
    rw [hadded, hdeclines, hof.expr, hof.context, hof.request, hof.children,
      hlooked.recorded?]
    refine exists_congr fun costing => and_congr_right fun hslot => and_congr_right fun _ => ?_
    rw [hlooked.betterThan hwell.linksEnd]
    exact or_iff_right (hfresh costing hslot)

end Planner

namespace Memo

/-- Whatever calls come before: where costing an alternative ends without an error, it answers
nothing for the reasons of `Planner.Declines` only, and for each of them. So a slot whose costing was
given up keeps a valid costing out if it was given up over the same child contexts. -/
theorem cost_eq_none_iff (hcalls : Relation.ReflTransGen Call {} memo)
    (hexpr : memo.expr? id = some expr) (hop : expr.op = .physical op)
    (hcontext : memo.context? own = some context) {added : Option CostingId} {final : Memo}
    (hexec : exec (planner.cost id own request children) memo = (.ok added, final)) :
    added = none ↔ planner.Declines memo id expr op own context request children := by
  have hwell := (staysInOrder_of_transitions (transitions_of_calls hcalls) inOrder_empty).1
  have hpost : Post (planner.cost id own request children) memo _ _ :=
    Planner.post_cost hwell hexpr hop hcontext
  unfold Post at hpost
  rwa [hexec] at hpost

/-- The index scan was given up for the table scan. It delivers what is asked for and has no children
that lack a plan, and still costing it is declined. -/
theorem indexed_declines :
    let memo := indexed.optimizeAll [.indexed]
    ∃ expr op context, memo.expr? ⟨2⟩ = some expr ∧ expr.op = .physical op ∧
      memo.context? ⟨0⟩ = some context ∧
      (memo.recorded? ⟨2⟩ ⟨0⟩ 0).any (·.pruned) = true ∧
      validCombination op (memo.planView ⟨2⟩ expr []) = true ∧
      context.required.isSatisfiedBy (memo.planView ⟨2⟩ expr []).logical
        (op.delivered (memo.planView ⟨2⟩ expr [])) = true ∧
      OptimizeCall.indexed.planner.Declines memo ⟨2⟩ expr op ⟨0⟩ context 0 [] := by
  intro memo
  have hcalls : Relation.ReflTransGen Call {} memo :=
    (((Relation.ReflTransGen.single (.step (.insert ..))).tail (.step (.insert ..))).tail
      (.step (.insert ..))).tail (.optimize ..)
  have hfits : ((memo.expr? ⟨2⟩).any fun expr => (memo.context? ⟨0⟩).any fun context =>
      expr.op.physical?.any fun op => validCombination op (memo.planView ⟨2⟩ expr []) &&
        context.required.isSatisfiedBy (memo.planView ⟨2⟩ expr []).logical
          (op.delivered (memo.planView ⟨2⟩ expr []))) = true := by
    decide +kernel
  simp only [Option.any_eq_true, Bool.and_eq_true] at hfits
  obtain ⟨expr, hexpr, context, hcontext, op, hop, hvalid, hmet⟩ := hfits
  have hop : expr.op = .physical op := by
    unfold Operator.physical? at hop
    split at hop <;> simp_all
  refine ⟨expr, op, context, hexpr, hop, hcontext, by decide +kernel, hvalid, hmet, ?_⟩
  have hdeclined : (exec (OptimizeCall.indexed.planner.cost ⟨2⟩ ⟨0⟩ 0 []) memo).1.toOption =
      some none := by
    decide +kernel
  generalize hexec : exec (OptimizeCall.indexed.planner.cost ⟨2⟩ ⟨0⟩ 0 []) memo = result
    at hdeclined
  obtain ⟨error | added, final⟩ := result
  · simp [Except.toOption] at hdeclined
  · exact (cost_eq_none_iff hcalls hexpr hop hcontext hexec).mp (Option.some.inj hdeclined)

end Memo

end QueryPlanner
