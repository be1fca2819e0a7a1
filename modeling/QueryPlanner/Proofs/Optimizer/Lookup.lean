import QueryPlanner.Proofs.Optimizer.Growth

/-!
# Looking up the best plan for a goal

The best plan for a goal is looked up among the contexts of the goal in the first stages. The look-up
succeeds in every settled memo, and it finds a plan when one of these contexts holds one
(`Planning.Post.lookupBestContext`). Branch-and-bound compares a lower bound with what it finds, so
an alternative is given up only when its bound is undercut (`Planning.Post.pruneBound?`).
-/

namespace QueryPlanner

open Memo (SameContent Settled)

variable {planners : List Planner} {below : GroupId → GroupId → Prop} {memo current : Memo}

/-- The contexts of the children of a costing are there, and so are their groups. -/
def Memo.Comparable (memo : Memo) (costing : Costing) : Prop :=
  ∀ id, some id ∈ costing.childContexts →
    ∃ context, memo.context? id = some context ∧ context.group.index < memo.groups.size

/-- Justified costings can be compared. -/
theorem Memo.Settled.comparable (h : memo.Settled planners below) {id : CostingId}
    {costing : Costing} (hcosting : memo.costing? id = some costing)
    (hpruned : costing.pruned = false) : memo.Comparable costing := by
  obtain ⟨context, expr, op, hjustifies⟩ := h.justified id costing hcosting hpruned
  intro child hchild
  obtain ⟨context, _, hchosen⟩ := exists_chosen_of_planned hjustifies.planned hchild
  obtain ⟨group, hgroup, _⟩ := h.filed child context hchosen.found
  exact ⟨context, hchosen.found, exists_group?_eq_some.mp ⟨group, hgroup⟩⟩

/-- A context for a goal, in one of the first stages, that holds a best plan. -/
def Memo.Holds (memo : Memo) (goal : GroupId × PlanRequirement) (stages : Nat) (id : ContextId) :
    Prop :=
  ∃ context best, memo.context? id = some context ∧ context.goal = goal ∧ context.stage < stages ∧
    context.best = some best

/-- The contexts of a group for a requirement in the first stages. -/
theorem Group.mem_contextsInStages {group : Group} {required : PlanRequirement} {stages : Nat}
    {id : ContextId} : id ∈ group.contextsInStages required stages ↔
      ∃ stage, (⟨required, stage⟩, id) ∈ group.contexts ∧ stage < stages := by
  unfold contextsInStages
  simp only [List.mem_map, List.mem_mergeSort, List.mem_filter, Bool.and_eq_true, beq_iff_eq,
    decide_eq_true_eq]
  constructor
  · rintro ⟨⟨⟨_, stage⟩, _⟩, ⟨hmem, rfl, hstage⟩, rfl⟩
    exact ⟨stage, hmem, hstage⟩
  · rintro ⟨stage, hmem, hstage⟩
    exact ⟨_, ⟨hmem, rfl, hstage⟩, rfl⟩

namespace Planning

theorem Post.visitJoinInputs {costing : Costing} (hsame : SameContent memo current)
    (h : memo.Comparable costing) :
    Post (visitJoinInputs costing) current (fun _ final => SameContent memo final)
      (fun _ _ => False) := by
  unfold Planning.visitJoinInputs
  cases hjoin : costing.joinContexts? with
  | none => exact Post.pure hsame
  | some contexts =>
      obtain ⟨outer, inner⟩ := contexts
      obtain ⟨houterMem, hinnerMem⟩ := Costing.mem_of_joinContexts? hjoin
      obtain ⟨outerContext, houter, _⟩ := h outer houterMem
      obtain ⟨innerContext, hinner, hknown⟩ := h inner hinnerMem
      dsimp only
      refine Post.bind (Post.context (fun _ _ => ?_) (fun hnone => ?_))
      · refine Post.bind (Post.context (fun found hfound => ?_) (fun hnone => ?_))
        · rw [hsame.context?, hinner] at hfound
          obtain rfl := Option.some.inj hfound
          exact (Post.resolve (hsame.groups_size ▸ hknown)).andThen (fun _ _ hfail => hfail)
            (fun _ _ hresolved => Post.pure (hsame.trans hresolved.2))
        · simp [hsame.context?, hinner] at hnone
      · simp [hsame.context?, houter] at hnone

/-- Comparing costings succeeds when their children can be looked up. -/
theorem Post.betterThan {left right : Costing} (hsame : SameContent memo current)
    (hleft : memo.Comparable left) (hright : memo.Comparable right) :
    Post (betterThan left right) current (fun _ final => SameContent memo final)
      (fun _ _ => False) := by
  unfold Planning.betterThan
  refine Post.bind (Post.get ?_)
  refine (Post.forM _ hsame fun costing hcosting middle hmiddle => ?_).andThen
    (fun _ _ hfail => hfail) (fun _ _ hfinal => Post.bind (Post.get (Post.pure hfinal)))
  refine Post.visitJoinInputs hmiddle ?_
  unfold Memo.comparedJoins at hcosting
  split at hcosting
  · rcases List.mem_pair.mp hcosting with rfl | rfl
    · exact hleft
    · exact hright
  · simp at hcosting

/-- What is found holds a best plan, and something is found when a context does. -/
theorem Post.lookupBestContext {id : GroupId} {required : PlanRequirement} {stages : Nat}
    (h : memo.Settled planners below) (hsame : SameContent memo current)
    (hmaster : memo.master id = id) (hknown : id.index < memo.groups.size) :
    Post (lookupBestContext id required stages) current
      (fun found final => SameContent memo final ∧
        (∀ best ∈ found, memo.Holds (id, required) stages best) ∧
        ((∃ known, memo.Holds (id, required) stages known) → found.isSome))
      (fun _ _ => False) := by
  obtain ⟨group, hgroup⟩ := Memo.exists_group?_eq_some.mpr hknown
  unfold Planning.lookupBestContext
  split
  · rename_i hnone
    refine Post.pure ⟨hsame, by simp, fun ⟨_, _, _, _, _, hstage, _⟩ => ?_⟩
    omega
  refine (Post.resolve (hsame.groups_size ▸ hknown)).andThen (fun _ _ hfail => hfail) ?_
  rintro _ looked ⟨rfl, hlooked⟩
  rw [hsame.master h.wellFormed.linksEnd, hmaster]
  have hsame := hsame.trans hlooked
  refine Post.bind (Post.group (fun found hfound => ?_) (fun hnone => ?_))
  · have hcontexts : found.contexts = group.contexts := by
      obtain ⟨before, hbefore, hcontent⟩ := hsame.exists_group_before hfound
      obtain rfl := Option.some.inj (hbefore.symm.trans hgroup)
      exact congrArg (·.contexts) hcontent
    -- what is chosen holds a best plan, and something is chosen once a context with one was seen
    refine (Post.foldlM_seen (fun seen chosen current =>
      SameContent memo current ∧
        (∀ entry ∈ chosen, memo.Holds (id, required) stages entry.1 ∧ memo.Comparable entry.2) ∧
        ((∃ found ∈ seen, memo.Holds (id, required) stages found) → chosen.isSome)) []
      ⟨hsame, by simp, by simp⟩ ?_).andThen (fun _ _ hfail => hfail) ?_
    · rintro seen chosen item hitem current ⟨hcurrent, hchosen, hseen⟩
      obtain ⟨stage, hlisted, hitemStage⟩ := Group.mem_contextsInStages.mp hitem
      rw [hcontexts] at hlisted
      obtain ⟨itemContext, hitemContext, hitemGoal, hsameStage⟩ :=
        h.entries _ group hgroup _ hlisted
      refine Post.bind (Post.context (fun again hagain => ?_) (fun hnone => ?_))
      · rw [hcurrent.context?, hitemContext] at hagain
        obtain rfl := Option.some.inj hagain
        cases hitemBest : itemContext.best with
        | none =>
            -- a context without a best plan is passed over
            refine Post.pure ⟨hcurrent, hchosen, fun ⟨id, hid, hholds⟩ => ?_⟩
            rcases List.mem_append.mp hid with hid | hid
            · exact hseen ⟨id, hid, hholds⟩
            · obtain rfl := List.mem_singleton.mp hid
              obtain ⟨other, held, hother, _, _, hheld⟩ := hholds
              rw [hitemContext] at hother
              rw [← Option.some.inj hother, hitemBest] at hheld
              exact absurd hheld (by simp)
        | some candidate =>
            obtain ⟨costing, hcosting, _, hpruned⟩ :=
              h.best item itemContext candidate hitemContext hitemBest
            have hholds : memo.Holds (id, required) stages item :=
              ⟨itemContext, candidate, hitemContext, hitemGoal, hsameStage ▸ hitemStage, hitemBest⟩
            have hcomparable := h.comparable hcosting hpruned
            refine Post.bind (Post.costing (fun again hagain => ?_) (fun hnone => ?_))
            · rw [hcurrent.costing?, hcosting] at hagain
              obtain rfl := Option.some.inj hagain
              cases chosen with
              | none => exact Post.pure ⟨hcurrent, by simpa using ⟨hholds, hcomparable⟩, by simp⟩
              | some best =>
                  refine (Post.betterThan hcurrent hcomparable (hchosen best rfl).2).andThen
                    (fun _ _ hfail => hfail) (fun better final hfinal => ?_)
                  split
                  · exact Post.pure ⟨hfinal, by simpa using ⟨hholds, hcomparable⟩, by simp⟩
                  · exact Post.pure ⟨hfinal, hchosen, by simp⟩
            · simp [hcurrent.costing?, hcosting] at hnone
      · simp [hcurrent.context?, hitemContext] at hnone
    · rintro chosen final ⟨hfinal, hchosen, hseen⟩
      refine Post.pure ⟨hfinal, fun best hbest => ?_, fun ⟨known, hholds⟩ => ?_⟩
      · obtain ⟨entry, hentry, rfl⟩ := Option.map_eq_some_iff.mp hbest
        exact (hchosen entry hentry).1
      · rw [Option.isSome_map]
        -- a context for the goal is filed with the group, so it was seen
        refine hseen ⟨known, ?_, hholds⟩
        obtain ⟨context, best, hcontext, hgoal, hstage, hbest⟩ := hholds
        obtain ⟨owner, howner, hfiled⟩ := h.filed known context hcontext
        obtain rfl : context.group = id := congrArg Prod.fst hgoal
        obtain rfl : context.required = required := congrArg Prod.snd hgoal
        obtain rfl := Option.some.inj (howner.symm.trans hgroup)
        rw [List.nil_append, Group.mem_contextsInStages, hcontexts]
        exact ⟨context.stage, hfiled, hstage⟩
  · rw [Memo.group?_eq_none, hsame.groups_size] at hnone
    omega

/-- The bound of an alternative is answered only when the best plan that is found for the goal in this
stage or an earlier one costs less. -/
theorem Post.pruneBound? {planner : Planner} {id : ExprId} {context : Context}
    {costed : Option (Nat × CostingId)} (h : memo.Settled planners below)
    (hmaster : memo.master context.group = context.group)
    (hknown : context.group.index < memo.groups.size) :
    Post (planner.pruneBound? id context costed) memo
      (fun result final => SameContent memo final ∧
        ∀ bound ∈ result, memo.Undercut context.goal context.stage bound)
      (fun _ final => SameContent memo final) := by
  unfold Planner.pruneBound?
  refine (Post.lookupBestContext h (.refl memo) hmaster hknown).andThen
    (fun _ _ hfail => hfail.elim) ?_
  rintro (_ | known) looked ⟨hlooked, hholds, _⟩
  · exact Post.pure ⟨hlooked, by simp⟩
  obtain ⟨found, best, hfound, hgoal, hstage, hbest⟩ := hholds known rfl
  have hstage : found.stage ≤ context.stage :=
    Nat.le_of_lt_succ (Nat.lt_of_lt_of_le hstage (Nat.mod_le _ _))
  obtain ⟨costing, hcosting, hown, hpruned⟩ := h.best known found best hfound hbest
  refine Post.bind (Post.context (fun again hagain => ?_) (fun _ => hlooked))
  obtain rfl := Option.some.inj (hfound.symm.trans ((hlooked.context? _).symm.trans hagain))
  rw [hbest]
  refine Post.bind (Post.costing (fun again hagain => ?_) (fun _ => hlooked))
  obtain rfl := Option.some.inj (hcosting.symm.trans ((hlooked.costing? _).symm.trans hagain))
  refine (keeps_lowerBound looked).andThen (fun _ _ hsame => hlooked.trans hsame) ?_
  intro bound final hsame
  refine Post.pure ⟨hlooked.trans hsame, ?_⟩
  intro undercut hundercut
  split at hundercut
  · rename_i hlower
    obtain rfl := Option.some.inj hundercut
    exact ⟨known, found, best, costing, hfound, hgoal, hstage, by rw [hbest]; rfl, hcosting, hown,
      hpruned, hlower⟩
  · exact absurd hundercut (by simp)

end Planning

end QueryPlanner
