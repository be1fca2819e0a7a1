import QueryPlanner.Proofs.Optimizer.Frame

/-!
# The best plan of a context only improves

The best costing of a context is set in two places. `Planning.updateBest` compares what is offered
with the best one; `Planning.insertCosting` compares it with what is recorded for the same context
and request, which may be the best one. What was given up because of its bound is replaced without a
comparison, so it matters that it is never a best (`Memo.BestsInOrder`). Every step then leaves a
context its best or gives it a better one (`Memo.Improves`). The main result is
`Memo.bests_improve`, about any calls one after the other.
-/

namespace QueryPlanner

open Memo (SameContent)
open Planning (Keeps Post exec)

/-! ## Offering and recording -/

namespace Planning

variable {memo : Memo}

/-- A costing that is offered is compared with the best one of its context, and becomes the best if
there is none or it is better. -/
theorem Post.updateBest_cases {id : CostingId} :
    Post (Planning.updateBest id) memo
      (fun _ final => SameContent memo final ∨ ∃ looked candidate, SameContent memo looked ∧
        looked.costing? id = some candidate ∧ candidate.pruned = false ∧
        (∀ best, memo.best? candidate.context = some best → ∃ known,
          memo.costing? best = some known ∧ looked.betterThan candidate known = true) ∧
        final = looked.setBest id candidate)
      (fun _ final => SameContent memo final) := by
  unfold Planning.updateBest
  refine Post.bind (Post.costing (fun candidate hcandidate => ?_) fun _ => .refl memo)
  split
  · exact Post.pure (.inl (.refl memo))
  · rename_i hpruned
    refine Post.bind (Post.context (fun context hcontext => ?_) fun _ => .refl memo)
    have hheld : memo.best? candidate.context = context.best :=
      congrArg (Option.bind · Context.best) hcontext
    extract_lets current finish
    have hfinish (improves : Bool) (looked : Memo) (hsame : SameContent memo looked)
        (hbetter : improves = true → ∀ best, context.best = some best → ∃ known,
          memo.costing? best = some known ∧ looked.betterThan candidate known = true) :
        Post (finish improves) looked
          (fun _ final => SameContent memo final ∨ ∃ looked candidate, SameContent memo looked ∧
            looked.costing? id = some candidate ∧ candidate.pruned = false ∧
            (∀ best, memo.best? candidate.context = some best → ∃ known,
              memo.costing? best = some known ∧ looked.betterThan candidate known = true) ∧
            final = looked.setBest id candidate)
          (fun _ final => SameContent memo final) := by
      dsimp only [finish]
      split
      · rename_i himproves
        refine Post.bind (Post.modify (Post.pure (.inr ⟨looked, candidate, hsame, ?_, ?_, ?_, rfl⟩)))
        · rw [hsame.costing?, hcandidate]
        · simpa using hpruned
        · rw [hheld]
          exact hbetter himproves
      · exact Post.pure (.inl hsame)
    cases hbest : context.best with
    | none =>
        simp only [current, hbest]
        exact Post.bind (Post.pure (hfinish true memo (.refl memo) (by simp [hbest])))
    | some best =>
        simp only [current, hbest]
        split
        · exact Post.bind (Post.pure (hfinish false memo (.refl memo) (by simp)))
        · refine Post.bind (Post.costing (fun known hknown => ?_) fun _ => .refl memo)
          refine Post.compared.andThen (fun _ _ hsame => hsame) ?_
          rintro better looked ⟨hsame, rfl⟩
          refine hfinish _ looked hsame fun hbetter other hother => ?_
          obtain rfl := Option.some.inj (hbest.symm.trans hother)
          exact ⟨known, hknown, hbetter⟩

/-- A costing that is recorded is added under the next number, unless one that is recorded for the
same context and request stands. If it takes the place of the best one, it becomes the best one. -/
theorem Post.insertCosting_cases {candidate : Costing} :
    Post (Planning.insertCosting candidate) memo
      (fun recorded final => ∃ looked, SameContent memo looked ∧
        (recorded = none ∧ final = looked ∨ recorded = some ⟨looked.costings.size⟩ ∧
          (final = looked.addCosting candidate ∨
            (∃ best known, memo.best? candidate.context = some best ∧
              memo.costing? best = some known ∧ (known.pruned = true ∨
                candidate.pruned = false ∧ looked.betterThan candidate known = true)) ∧
            final = (looked.addCosting candidate).setBest ⟨looked.costings.size⟩ candidate)))
      (fun _ final => ∃ looked, SameContent memo looked ∧
        (final = looked ∨ final = looked.addCosting candidate)) := by
  refine Post.bind (Post.expr (fun owner _ => ?_) fun _ => ⟨memo, .refl memo, .inl rfl⟩)
  cases owner.costings.lookup (candidate.context, candidate.request) with
  | none =>
      exact Post.bind (Post.get (Post.bind (Post.modify (Post.pure
        ⟨memo, .refl memo, .inr ⟨rfl, .inl rfl⟩⟩))))
  | some recordedId =>
      refine Post.bind (Post.costing (fun recorded hrecorded => ?_)
        fun _ => ⟨memo, .refl memo, .inl rfl⟩)
      refine Post.mayReplace.andThen (fun _ final hsame => ⟨final, hsame, .inl rfl⟩) ?_
      rintro replaces looked ⟨hsame, hreplaces⟩
      cases replaces with
      | false => exact Post.pure ⟨looked, hsame, .inl ⟨rfl, rfl⟩⟩
      | true =>
          refine Post.bind (Post.get (Post.bind (Post.modify ?_)))
          refine Post.bind (Post.context (fun context hcontext => ?_)
            fun _ => ⟨looked, hsame, .inr rfl⟩)
          dsimp only
          split
          · rename_i hbest
            have hcontext : looked.context? candidate.context = some context := hcontext
            have hheld : memo.best? candidate.context = some recordedId := by
              unfold Memo.best?
              rw [← hsame.context?, hcontext, Option.bind_some, hbest]
            exact Post.bind (Post.modify (Post.pure ⟨looked, hsame, .inr ⟨rfl, .inr
              ⟨⟨recordedId, recorded, hheld, hrecorded, hreplaces rfl⟩, rfl⟩⟩⟩))
          · exact Post.pure ⟨looked, hsame, .inr ⟨rfl, .inl rfl⟩⟩

end Planning

namespace Memo

variable {memo memo' decided : Memo}

/-- Every best is a costed alternative of its own context, and not one that was given up. -/
def BestsInOrder (memo : Memo) : Prop :=
  ∀ id best, memo.best? id = some best →
    ∃ costing, memo.costing? best = some costing ∧ costing.context = id ∧ costing.pruned = false

/-- From one memo to the next the bests stay in order, and every best is still there or was replaced
by a better one, as they compare in the first memo. -/
structure Improves (memo memo' : Memo) : Prop where
  inOrder : memo'.BestsInOrder
  better : ∀ id best, memo.best? id = some best → ∃ best', memo'.best? id = some best' ∧
    (best' = best ∨ ∃ costing known, memo'.costing? best' = some costing ∧
      memo.costing? best = some known ∧ memo.betterThan costing known = true)

/-! ## Changes that leave the bests -/

/-- The bests are the same, and costings stay. -/
structure SameBests (memo memo' : Memo) : Prop where
  best? : ∀ id, memo'.best? id = memo.best? id
  costing? : ∀ id costing, memo.costing? id = some costing → memo'.costing? id = some costing

namespace SameBests

theorem of_eq (hcontexts : memo'.contexts = memo.contexts)
    (hcostings : memo'.costings = memo.costings) : SameBests memo memo' where
  best? id := by
    unfold Memo.best? context?
    rw [hcontexts]
  costing? id costing hcosting := by
    unfold Memo.costing? at hcosting ⊢
    rw [hcostings, hcosting]

theorem addContext {owner : GroupId} {required : PlanRequirement} {stage : Nat} :
    SameBests memo (memo.addContext owner required stage) where
  best? _ := best?_addContext
  costing? _ _ hcosting := hcosting

theorem mark {id : ContextId} {state : ContextState} :
    SameBests memo (memo.modifyContext id fun context => { context with state }) where
  best? _ := best?_setState
  costing? _ _ hcosting := hcosting

theorem addCosting {candidate : Costing} : SameBests memo (memo.addCosting candidate) where
  best? _ := rfl
  costing? _ _ := costing?_addCosting_of_some

theorem trans {memo'' : Memo} (h : SameBests memo memo') (h' : SameBests memo' memo'') :
    SameBests memo memo'' where
  best? id := (h'.best? id).trans (h.best? id)
  costing? id costing hcosting := h'.costing? id costing (h.costing? id costing hcosting)

theorem improves (h : SameBests memo memo') (horder : memo.BestsInOrder) :
    Improves memo memo' where
  inOrder id best hbest := by
    obtain ⟨costing, hcosting, hcosted⟩ := horder id best ((h.best? id).symm.trans hbest)
    exact ⟨costing, h.costing? best costing hcosting, hcosted⟩
  better id best hbest := ⟨best, (h.best? id).trans hbest, .inl rfl⟩

end SameBests

theorem SameContent.sameBests (h : SameContent memo memo') : SameBests memo memo' :=
  .of_eq h.contexts h.costings

/-! ## A new best -/

/-- A costed alternative may become the best of its context. -/
theorem BestsInOrder.setBest (h : memo.BestsInOrder) {id : CostingId} {costing : Costing}
    (hcosting : memo.costing? id = some costing) (hcosted : costing.pruned = false) :
    (memo.setBest id costing).BestsInOrder := by
  intro other best hbest
  rw [best?_setBest] at hbest
  split at hbest
  · rename_i hown
    obtain ⟨_, _, rfl⟩ := Option.map_eq_some_iff.mp hbest
    exact ⟨costing, hcosting, hown, hcosted⟩
  · exact h other best hbest

/-- A costed alternative becomes the best of its context once it was found better than the best so
far. -/
theorem SameBests.improves_setBest (h : SameBests memo decided) (horder : memo.BestsInOrder)
    {id : CostingId} {costing : Costing} (hcosting : decided.costing? id = some costing)
    (hcosted : costing.pruned = false)
    (hbetter : ∀ best, memo.best? costing.context = some best →
      ∃ known, memo.costing? best = some known ∧ memo.betterThan costing known = true) :
    Improves memo (decided.setBest id costing) where
  inOrder := (h.improves horder).inOrder.setBest hcosting hcosted
  better other best hbest := by
    have hheld := (h.best? other).trans hbest
    rw [best?_setBest]
    split
    · rename_i hown
      obtain ⟨context, hcontext, _⟩ := Option.bind_eq_some_iff.mp hheld
      obtain ⟨known, hknown, hbetter⟩ := hbetter best (hown ▸ hbest)
      exact ⟨id, by rw [hcontext]; rfl, .inr ⟨costing, known, hcosting, hknown, hbetter⟩⟩
    · exact ⟨best, hheld, .inl rfl⟩

/-- Offering a costing as the best one of its context. -/
theorem improves_updateBest (hends : memo.LinksEnd) (horder : memo.BestsInOrder) (id : CostingId) :
    Post (Planning.updateBest id) memo (fun _ => Improves memo) (fun _ => Improves memo) := by
  have hlooked {final : Memo} (hsame : SameContent memo final) : Improves memo final :=
    hsame.sameBests.improves horder
  refine Planning.Post.updateBest_cases.mono ?_ fun _ _ hsame => hlooked hsame
  rintro _ final (hsame | ⟨looked, candidate, hsame, hcandidate, hcosted, hbetter, rfl⟩)
  · exact hlooked hsame
  · refine hsame.sameBests.improves_setBest horder hcandidate hcosted fun best hbest => ?_
    obtain ⟨known, hknown, hbetter⟩ := hbetter best hbest
    exact ⟨known, hknown, (hsame.betterThan hends _ _).symm.trans hbetter⟩

/-- Recording a costing. If the one that is recorded so far is the best of the context, it was not
given up, so the two were compared. -/
theorem improves_insertCosting (hends : memo.LinksEnd) (horder : memo.BestsInOrder)
    (candidate : Costing) :
    Post (Planning.insertCosting candidate) memo (fun _ => Improves memo)
      (fun _ => Improves memo) := by
  have hadded {looked : Memo} (hsame : SameContent memo looked) :
      SameBests memo (looked.addCosting candidate) := hsame.sameBests.trans .addCosting
  refine Planning.Post.insertCosting_cases.mono ?_ ?_
  · rintro _ _ ⟨looked, hsame, ⟨_, rfl⟩ | ⟨_, rfl | ⟨⟨best, known, hbest, hknown, hcompared⟩, rfl⟩⟩⟩
    · exact hsame.sameBests.improves horder
    · exact (hadded hsame).improves horder
    · obtain ⟨found, hfound, _, hunpruned⟩ := horder _ _ hbest
      obtain rfl := Option.some.inj (hknown.symm.trans hfound)
      obtain hgiven | ⟨hcosted, hbetter⟩ := hcompared
      · exact absurd hgiven (by simp [hunpruned])
      · refine (hadded hsame).improves_setBest horder ?_ hcosted fun other hother => ?_
        · rw [costing?_addCosting, if_pos rfl]
        · obtain rfl := Option.some.inj (hbest.symm.trans hother)
          exact ⟨known, hknown, (hsame.betterThan hends _ _).symm.trans hbetter⟩
  · rintro _ _ ⟨looked, hsame, rfl | rfl⟩
    · exact hsame.sameBests.improves horder
    · exact (hadded hsame).improves horder

/-! ## Steps and calls -/

/-- Every step improves the bests at most. -/
theorem Transition.improves (h : Transition memo memo') (hends : memo.LinksEnd)
    (horder : memo.BestsInOrder) : Improves memo memo' := by
  have hfilled (hsame : memo.SamePlans memo') : Improves memo memo' :=
    (SameBests.of_eq hsame.contexts hsame.costings).improves horder
  cases h with
  | insert op children target origin => exact hfilled (Planning.samePlans_insert memo).exec_snd
  | addDuplicate left right => exact hfilled (Linking.keeps_addDuplicate memo).exec_snd
  | mergeInto source target => exact hfilled (Moving.keeps_mergeInto memo).exec_snd
  | mergeDuplicates => exact hfilled (Moving.mergeDuplicates memo)
  | look same => exact same.sameBests.improves horder
  | addContext owner required stage => exact SameBests.addContext.improves horder
  | mark id state => exact SameBests.mark.improves horder
  | insertCosting candidate => exact (improves_insertCosting hends horder candidate).exec_snd
  | updateBest id => exact (improves_updateBest hends horder id).exec_snd

/-- What is called on a memo: a step, the optimization of a group, or the costing of an alternative.
A call that fails counts with the memo it leaves. -/
inductive Call : Memo → Memo → Prop
  | step {memo memo' : Memo} (step : Transition memo memo') : Call memo memo'
  | optimize (memo : Memo) (planner : Planner) (stage : Nat) (group : GroupId)
      (required : PlanRequirement) :
      Call memo (exec (planner.optimize stage group required) memo).2
  | cost (memo : Memo) (planner : Planner) (id : ExprId) (context : ContextId) (request : Nat)
      (children : List (Option ContextId)) :
      Call memo (exec (planner.cost id context request children) memo).2

theorem Call.transitions (h : Call memo memo') : Relation.ReflTransGen Transition memo memo' := by
  cases h with
  | step step => exact .single step
  | optimize planner stage group required =>
      have hkeeps : Keeps (Relation.ReflTransGen Transition)
          (planner.optimize stage group required) := Optimizer.Works.keeps_optimize
      exact (hkeeps memo).exec_snd
  | cost planner id context request children =>
      have hkeeps : Keeps (Relation.ReflTransGen Transition)
          (planner.cost id context request children) := Optimizer.Records.keeps_cost
      exact (hkeeps memo).exec_snd

/-- Several calls are a run of steps. -/
theorem transitions_of_calls (h : Relation.ReflTransGen Call memo memo') :
    Relation.ReflTransGen Transition memo memo' := by
  induction h with
  | refl => exact .refl
  | tail _ hcall ih => exact ih.trans hcall.transitions

/-- A run of steps, each of which improves the bests at most. -/
abbrev Improvement : Memo → Memo → Prop :=
  Relation.ReflTransGen fun memo memo' => Transition memo memo' ∧ Improves memo memo'

/-- Every step of a run improves the bests at most, by induction on the run. -/
theorem improvement_of_transitions (h : Relation.ReflTransGen Transition memo memo')
    (hwell : memo.WellFormed ∧ memo.Filed) (horder : memo.BestsInOrder) :
    Improvement memo memo' ∧ memo'.BestsInOrder := by
  induction h with
  | refl => exact ⟨.refl, horder⟩
  | @tail middle _ hbefore hstep ih =>
      have hmiddle := staysInOrder_of_transitions hbefore hwell
      have himproves := hstep.improves hmiddle.1.linksEnd ih.2
      exact ⟨ih.1.tail ⟨hstep, himproves⟩, himproves.inOrder⟩

/-- A best is not cleared by improvements. -/
theorem Improvement.exists_best (h : Improvement memo memo') {id : ContextId} {best : CostingId}
    (hbest : memo.best? id = some best) : ∃ best', memo'.best? id = some best' := by
  induction h with
  | refl => exact ⟨best, hbest⟩
  | tail _ hstep ih =>
      obtain ⟨middle, hmiddle⟩ := ih
      obtain ⟨best', hbest', _⟩ := hstep.2.better id middle hmiddle
      exact ⟨best', hbest'⟩

/-- Whatever calls come one after the other on a memo: the best of a context is always a costed
alternative of this context, a context that has a best keeps one, and each step either leaves the
best or replaces it by a better one. -/
theorem bests_improve (h : Relation.ReflTransGen Call {} memo)
    (h' : Relation.ReflTransGen Call memo memo') :
    memo.BestsInOrder ∧ Improvement memo memo' ∧
      ∀ id best, memo.best? id = some best → ∃ best', memo'.best? id = some best' := by
  have hempty : ({} : Memo).BestsInOrder := fun id best hbest => by simp [best?, context?] at hbest
  have hbefore := transitions_of_calls h
  have horder := (improvement_of_transitions hbefore inOrder_empty hempty).2
  have himproves := (improvement_of_transitions (transitions_of_calls h')
    (staysInOrder_of_transitions hbefore inOrder_empty) horder).1
  exact ⟨horder, himproves, fun _ _ hbest => himproves.exists_best hbest⟩

/-- A scan of a table, recorded as an alternative for a context over the given children. -/
def scanCosting (children : List (Option ContextId)) (total : Float) : Costing :=
  { expr := ⟨1⟩
    context := ⟨0⟩
    request := 0
    childContexts := children
    delivered := none
    statistics := none
    cost := ⟨total⟩
    pruned := false }

/-- A table and its scan, which is recorded for a context and offered as its best. -/
def offered : Memo :=
  let access : TableAccess := { table := { id := 0, name := "", rows := 0 }, columns := [⟨0⟩] }
  let filled := (exec (Planning.insert (.physical (.tableScan access)) [] (some ⟨0⟩) none)
    (exec (Planning.insert (.logical (.get access)) [] none none) {}).2).2
  (exec (Planning.updateBest ⟨0⟩) (exec (Planning.insertCosting (scanCosting [] 2.0))
    (filled.addContext ⟨0⟩ {} 0)).2).2

theorem calls_offered : Relation.ReflTransGen Call {} offered := by
  unfold offered
  refine .tail ?_ (.step (.updateBest ..))
  refine .tail ?_ (.step (.insertCosting ..))
  refine .tail ?_ (.step (.addContext ..))
  exact .tail (.single (.step (.insert ..))) (.step (.insert ..))

/-- Whatever is recorded next for the same context and request, the context keeps a best. -/
theorem offered_improves :
    offered.best? ⟨0⟩ = some ⟨0⟩ ∧
      let later := (exec (Planning.insertCosting (scanCosting [some ⟨0⟩] 1.0)) offered).2
      Improvement offered later ∧ ∃ best, later.best? ⟨0⟩ = some best := by
  have hbest : offered.best? ⟨0⟩ = some ⟨0⟩ := by decide +kernel
  have himproves := bests_improve calls_offered
    (.single (.step (.insertCosting offered (scanCosting [some ⟨0⟩] 1.0))))
  exact ⟨hbest, himproves.2.1, himproves.2.2 _ _ hbest⟩

end Memo

end QueryPlanner
