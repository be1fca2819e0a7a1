import Mathlib.Data.Prod.Lex
import QueryPlanner.Proofs.Search.Budget
import QueryPlanner.Proofs.Search.Closure

/-!
# Explorations end

A rule is only started below the limit of rule applications, and a pass that brings something new has
applied a rule. A group is explored after it was visited for the first time. So what is left of the
limit and the groups that were not visited yet bound the work of an exploration (`SearchState.work`),
and it ends whatever the memo is: with enough fuel it succeeds, and more fuel changes nothing
(`Planner.succeeds_exploreGroup`).
-/

namespace QueryPlanner

open Memo (SameContent)
open Planning (Keeps Post exec)

variable {β γ : Type} {state : SearchState}

/-! ## Enough fuel -/

namespace Searching

/-- With enough fuel for the passes and for the calls the computation succeeds, and more fuel changes
nothing. -/
def Succeeds (action : ℕ → ℕ → Searching β) (state : SearchState) (post : β → SearchState → Prop) : Prop :=
  ∃ bound value final, post value final ∧ ∀ passes ≥ bound, ∀ calls ≥ bound,
    exec (action passes calls) state = (.ok value, final)

namespace Succeeds

variable {action : ℕ → ℕ → Searching β} {post : β → SearchState → Prop}

theorem mono {post' : β → SearchState → Prop} (h : Succeeds action state post)
    (hpost : ∀ value final, post value final → post' value final) : Succeeds action state post' := by
  obtain ⟨bound, value, final, hfinal, hexec⟩ := h
  exact ⟨bound, value, final, hpost value final hfinal, hexec⟩

/-- A computation without fuel that cannot fail. -/
theorem of_post {action : Searching β} (h : Post action state post fun _ _ => False) :
    Succeeds (fun _ _ => action) state post := by
  obtain ⟨value, final, hexec, hfinal⟩ | ⟨_, _, _, hfail⟩ := h.exists_exec
  · exact ⟨0, value, final, hfinal, fun _ _ _ _ => hexec⟩
  · exact hfail.elim

theorem bind {next : β → ℕ → ℕ → Searching γ} {last : γ → SearchState → Prop}
    (h : Succeeds action state post)
    (hnext : ∀ value middle, post value middle → Succeeds (next value) middle last) :
    Succeeds (fun passes calls => action passes calls >>= fun value => next value passes calls) state
      last := by
  obtain ⟨bound, value, middle, hmiddle, hexec⟩ := h
  obtain ⟨bound', value', final, hfinal, hexec'⟩ := hnext value middle hmiddle
  refine ⟨max bound bound', value', final, hfinal, fun passes hpasses calls hcalls => ?_⟩
  rw [Planning.exec_bind, hexec passes (le_of_max_le_left hpasses) calls (le_of_max_le_left hcalls)]
  exact hexec' passes (le_of_max_le_right hpasses) calls (le_of_max_le_right hcalls)

/-- A computation after one without fuel that cannot fail. -/
theorem after {first : Searching γ} {next : γ → ℕ → ℕ → Searching β} {middle : γ → SearchState → Prop}
    (h : Post first state middle fun _ _ => False)
    (hnext : ∀ value current, middle value current → Succeeds (next value) current post) :
    Succeeds (fun passes calls => first >>= fun value => next value passes calls) state post :=
  bind (of_post h) hnext

theorem getThen {next : SearchState → ℕ → ℕ → Searching β} (h : Succeeds (next state) state post) :
    Succeeds (fun passes calls => get >>= fun current => next current passes calls) state post := h

/-- A computation that takes one call more. -/
theorem succ (h : Succeeds (fun passes calls => action passes (calls + 1)) state post) :
    Succeeds action state post := by
  obtain ⟨bound, value, final, hfinal, hexec⟩ := h
  refine ⟨bound + 1, value, final, hfinal, fun passes hpasses calls hcalls => ?_⟩
  obtain ⟨calls, rfl⟩ := Nat.exists_eq_add_of_le' (Nat.zero_lt_of_lt hcalls)
  exact hexec passes (Nat.le_of_succ_le hpasses) calls (Nat.le_of_succ_le_succ hcalls)

theorem forM {items : List γ} {body : ℕ → ℕ → γ → Searching PUnit} (inv : SearchState → Prop)
    (hstart : inv state) (hround : ∀ item ∈ items, ∀ current, inv current →
      Succeeds (fun passes calls => body passes calls item) current fun _ => inv) :
    Succeeds (fun passes calls => items.forM (body passes calls)) state fun _ => inv := by
  induction items generalizing state with
  | nil => exact of_post (Post.pure hstart)
  | cons item rest ih =>
      exact bind (hround item (by simp) state hstart) fun _ middle hmiddle =>
        ih hmiddle fun other hother => hround other (by simp [hother])

/-- Repeated passes end if every pass that is not the last one leaves less to do, by induction on what
is left. -/
theorem repeatPasses {pass : ℕ → ℕ → Searching PassOutcome} (inv : SearchState → Prop)
    (left : SearchState → ℕ) (hstart : inv state) (hpass : ∀ current, inv current →
      Succeeds pass current fun outcome final =>
        inv final ∧ (outcome = .progressed → left final < left current)) :
    Succeeds (fun passes calls => Searching.repeatPasses (pass passes calls) passes) state fun _ => inv := by
  -- the fuel of the pass and the number of rounds are bounded apart, for only the latter falls
  suffices hrounds : ∃ bound value final, inv final ∧ ∀ passes ≥ bound, ∀ calls ≥ bound,
      ∀ rounds ≥ bound, exec (Searching.repeatPasses (pass passes calls) rounds) state =
        (.ok value, final) by
    obtain ⟨bound, value, final, hfinal, hexec⟩ := hrounds
    exact ⟨bound, value, final, hfinal, fun passes hpasses calls hcalls =>
      hexec passes hpasses calls hcalls passes hpasses⟩
  induction hleft : left state using Nat.strong_induction_on generalizing state with
  | _ remaining ih =>
    subst hleft
    obtain ⟨bound, outcome, middle, ⟨hmiddle, hless⟩, hexec⟩ := hpass state hstart
    -- a pass that does not go on ends the rounds
    have hlast (settled : Bool) (hend : outcome ≠ .progressed)
        (hsettled : settled = decide (outcome = .settled)) :
        ∃ bound value final, inv final ∧ ∀ passes ≥ bound, ∀ calls ≥ bound, ∀ rounds ≥ bound,
          exec (Searching.repeatPasses (pass passes calls) rounds) state = (.ok value, final) := by
      refine ⟨bound + 1, settled, middle, hmiddle, fun passes hpasses calls hcalls rounds hrounds => ?_⟩
      obtain ⟨rounds, rfl⟩ := Nat.exists_eq_add_of_le' (Nat.zero_lt_of_lt hrounds)
      unfold Searching.repeatPasses
      rw [Planning.exec_bind, hexec passes (Nat.le_of_succ_le hpasses) calls (Nat.le_of_succ_le hcalls)]
      cases outcome with
      | stopped | settled => rw [hsettled]; rfl
      | progressed => exact absurd rfl hend
    cases outcome with
    | stopped => exact hlast false (by decide) rfl
    | settled => exact hlast true (by decide) rfl
    | progressed =>
        obtain ⟨bound', value, final, hfinal, hexec'⟩ := ih _ (hless rfl) hmiddle rfl
        refine ⟨max bound bound' + 1, value, final, hfinal,
          fun passes hpasses calls hcalls rounds hrounds => ?_⟩
        obtain ⟨rounds, rfl⟩ := Nat.exists_eq_add_of_le' (Nat.zero_lt_of_lt hrounds)
        unfold Searching.repeatPasses
        rw [Planning.exec_bind, hexec passes (by omega) calls (by omega)]
        exact hexec' passes (by omega) calls (by omega) rounds (by omega)

end Succeeds

end Searching

/-! ## The work that is left -/

/-- Known alternatives stay known. -/
theorem Memo.Widens.isSome {memo memo' : Memo} (h : memo.Widens memo') {id : ExprId}
    (hknown : (memo.expr? id).isSome) : (memo'.expr? id).isSome :=
  (Memo.expr?_isSome id).mpr (((Memo.expr?_isSome id).mp hknown).trans_le h.exprs_size)

namespace Planner

open Searching

variable {planner : Planner} {limits : StageLimits} {rules : List Rule} {rule : Rule}
  {middle final : SearchState} {source : ExprId} {group : GroupId}

/-- The search goes on. Groups are only added while rules are applied, and none is applied at the
limit. -/
structure Consumes (planner : Planner) (state final : SearchState) : Prop
    extends state.Proceeds final where
  idle : final.iterations = state.iterations → final.memo.groups.size = state.memo.groups.size
  spent : planner.config.maxIterations ≤ state.iterations → final.iterations = state.iterations

/-- The groups that were not visited yet. -/
def unvisited (state : SearchState) : Finset ℕ :=
  (Finset.range state.memo.groups.size).filter fun index => ⟨index⟩ ∉ state.visited

/-- What is left of the limit, and the groups that were not visited yet. -/
def work (planner : Planner) (state : SearchState) : ℕ ×ₗ ℕ :=
  toLex (planner.config.maxIterations - state.iterations, (unvisited state).card)

namespace Consumes

protected theorem refl (planner : Planner) (state : SearchState) : planner.Consumes state state :=
  { SearchState.Proceeds.refl state with idle := fun _ => rfl, spent := fun _ => rfl }

protected theorem trans (h : planner.Consumes state middle) (h' : planner.Consumes middle final) :
    planner.Consumes state final where
  toProceeds := h.toProceeds.trans h'.toProceeds
  idle hsame := by
    have hfirst : middle.iterations = state.iterations :=
      Nat.le_antisymm (h'.iterations.trans_eq hsame) h.iterations
    exact (h'.idle (hsame.trans hfirst.symm)).trans (h.idle hfirst)
  spent hspent := (h'.spent (hspent.trans h.iterations)).trans (h.spent hspent)

instance : Std.Refl planner.Consumes := ⟨Consumes.refl planner⟩

instance : IsTrans SearchState planner.Consumes := ⟨fun _ _ _ => Consumes.trans⟩

theorem observed {memo : Memo} (h : state.memo.Observes memo) :
    planner.Consumes state (state.withMemo memo) where
  toProceeds := .withMemo (.of_observes h)
  idle _ := h.same.groups_size
  spent _ := rfl

instance : Searching.Stepping planner.Consumes where
  observed _ _ _ h := observed h
  visited state id hnew :=
    { Searching.Stepping.visited (R := SearchState.Proceeds) state id hnew with
      idle := fun _ => rfl, spent := fun _ => rfl }
  started state id rule hknown hnew :=
    { Searching.Stepping.started (R := SearchState.Proceeds) state id rule hknown hnew with
      idle := fun _ => SearchState.sameContent_started.groups_size, spent := fun _ => rfl }

/-- The work gets less. -/
theorem work_le (h : planner.Consumes state final) : planner.work final ≤ planner.work state := by
  refine Prod.Lex.toLex_le_toLex.mpr ?_
  obtain hmore | hsame := Nat.lt_or_eq_of_le h.iterations
  · left
    by_contra hless
    exact absurd (h.spent (by omega)) (by omega)
  · have hless : (unvisited final).card ≤ (unvisited state).card := by
      refine Finset.card_le_card fun index hindex => ?_
      obtain ⟨hknown, hnew⟩ := Finset.mem_filter.mp hindex
      rw [h.idle hsame.symm] at hknown
      exact Finset.mem_filter.mpr ⟨hknown, fun hvisited => hnew (h.visited.subset hvisited)⟩
    exact .inr ⟨by rw [hsame], hless⟩

end Consumes

/-- Visiting a group for the first time leaves less to do. -/
theorem work_visit_lt (hknown : group.index < state.memo.groups.size) (hnew : group ∉ state.visited) :
    planner.work { state with visited := group :: state.visited } < planner.work state := by
  have hsubset : unvisited { state with visited := group :: state.visited } ⊆ unvisited state := by
    intro index hindex
    obtain ⟨hknown, hnew⟩ := Finset.mem_filter.mp hindex
    exact Finset.mem_filter.mpr ⟨hknown, fun hvisited => hnew (List.mem_cons_of_mem _ hvisited)⟩
  have hless : (unvisited { state with visited := group :: state.visited }).card <
      (unvisited state).card := by
    refine Finset.card_lt_card ((Finset.ssubset_iff_of_subset hsubset).mpr ⟨group.index, ?_, ?_⟩)
    · exact Finset.mem_filter.mpr ⟨Finset.mem_range.mpr hknown, hnew⟩
    · simp [unvisited]
  exact Prod.Lex.toLex_lt_toLex.mpr (.inr ⟨rfl, hless⟩)

/-! ## Rules succeed -/

section Succeeding

variable (hgo : planner.aborted = false)
include hgo

/-- Applying a rule to a tree counts, and its results are inserted. -/
theorem post_applyRule {bound : BoundExpr} (hattainable : state.memo.Attainable)
    (hgroup : group.index < state.memo.groups.size)
    (hfits : ∀ result ∈ rule.apply state.memo bound, result.Fits state.memo) :
    Post (planner.applyRule rule source group bound) state
      (fun _ final => state.Proceeds final ∧ state.iterations < final.iterations) fun _ _ => False := by
  have hcounted : state.Proceeds { state with iterations := state.iterations + 1 } :=
    Searching.Filling.counted state
  unfold applyRule
  refine Post.bind (Searching.post_onMemo (Post.checkAbort (fun _ => ?_) fun habort => ?_))
  · refine Post.bind (Post.modify (Post.bind (Post.get ?_)))
    refine Post.foldlM (fun _ current => state.Proceeds current ∧ state.iterations < current.iterations)
      ⟨hcounted, Nat.lt_succ_self _⟩ fun found result hresult current hcurrent => ?_
    have hgrown := hcurrent.1.widens.groups_size
    refine Post.bind (Searching.post_onMemo ((Planning.Post.insertResult_settles
      (hcurrent.1.attainable hattainable) (hgroup.trans_le hgrown)
      ((hfits result hresult).mono hgrown)).mono (fun _ memo hmemo => ?_) fun _ _ hfail => hfail))
    exact Post.pure ⟨hcurrent.1.trans (.withMemo hmemo.1), hcurrent.2⟩
  · exact absurd habort (by simp [hgo])

/-- A rule is applied to all trees at an alternative. It brings nothing new without being applied. -/
theorem post_fire (hstable : rule.IsStable) (hattainable : state.memo.Attainable)
    (hsource : (state.memo.expr? source).isSome) (hgroup : group.index < state.memo.groups.size)
    (hbelow : state.iterations < planner.config.maxIterations) :
    Post (planner.fire rule source group) state
      (fun found final => planner.Consumes state final ∧
        (found = true → state.iterations < final.iterations)) fun _ _ => False := by
  have hwell := hattainable.inOrder.1
  obtain ⟨expr, hexpr⟩ := Option.isSome_iff_exists.mp hsource
  have hlists : Post (Planning.bindExpr rule.pattern source none) state.memo
      (fun _ _ => True) fun _ _ => False :=
    Post.bind (Post.expr (fun _ _ => Post.bind (Post.get (Post.bind (Post.set (Post.pure trivial)))))
      fun hnone => by simp [hnone] at hexpr)
  unfold fire
  refine Post.bind (Searching.post_onMemo (((observes_bindExpr state.memo).both
    ((Planning.Post.bindExpr hwell).both hlists)).mono ?_ fun _ _ hfail => hfail.2.2))
  rintro trees memo ⟨hobserves, ⟨-, expr, -, hbinds⟩, -⟩
  refine Post.foldlM (fun found current => planner.Consumes state current ∧
    (found = true → state.iterations < current.iterations)) ⟨.observed hobserves, by simp⟩ ?_
  rintro found bound hbound current ⟨hproceeds, hfound⟩
  have hwidens := hproceeds.widens
  obtain ⟨happly, hbuilt⟩ := hstable state.memo current.memo _ bound hwell (hbinds bound hbound) hwidens
  refine Post.bind ((post_applyRule hgo (hproceeds.attainable hattainable)
    (hgroup.trans_le hwidens.groups_size) fun result hresult =>
      (hbuilt result (happly ▸ hresult)).fits.mono hwidens.groups_size).mono (fun _ final hfinal => ?_)
      fun _ _ hfail => hfail)
  have hmore := hproceeds.iterations.trans_lt hfinal.2
  exact Post.pure ⟨⟨hproceeds.toProceeds.trans hfinal.1, fun hsame => absurd hsame hmore.ne',
    fun hspent => absurd hspent hbelow.not_ge⟩, fun _ => hmore⟩

/-- Starting rules on an alternative. Something new is only found by applying rules. -/
theorem post_transform (hrules : Transformations rules) {rest : List Rule} (hrest : rest ⊆ rules)
    {progressed : Bool} (hattainable : state.memo.Attainable)
    (hsource : (state.memo.expr? source).isSome) (hgroup : group.index < state.memo.groups.size) :
    Post (planner.transform limits source group rest progressed) state
      (fun outcome final => planner.Consumes state final ∧
        (outcome = .progressed → progressed = true ∨ state.iterations < final.iterations))
      fun _ _ => False := by
  induction rest generalizing state progressed with
  | nil =>
      refine Post.pure ⟨.refl planner state, ?_⟩
      cases progressed <;> simp
  | cons rule rest ih =>
      obtain ⟨hrule, hrest⟩ := List.cons_subset.mp hrest
      unfold transform
      refine post_wasApplied.andThen (fun _ _ hfail => ?_) ?_
      · simp [hfail.2] at hsource
      rintro _ _ ⟨rfl, -, rfl⟩
      split
      · exact ih hrest hattainable hsource hgroup
      · rename_i hnew
        refine Post.bind (Post.get ?_)
        split
        · rename_i hmay
          -- a rule that finds something counts as an iteration
          have hbelow := iterations_lt_of_mayExplore hmay
          have hstarted : planner.Consumes _ _ := Searching.Stepping.started _ source rule hsource
            (by simpa using hnew)
          refine Post.bind (post_onMemo (Post.modify (Post.bind (Post.modify ?_))))
          refine (post_fire hgo (hrules.stable rule hrule) (hstarted.attainable hattainable)
            (hstarted.widens.isSome hsource) (hgroup.trans_le hstarted.widens.groups_size)
            hbelow).andThen (fun _ _ hfail => hfail) ?_
          rintro found middle ⟨hmiddle, hfound⟩
          have hconsumes := hstarted.trans hmiddle
          refine (ih hrest (hconsumes.attainable hattainable) (hconsumes.widens.isSome hsource)
            (hgroup.trans_le hconsumes.widens.groups_size)).mono ?_ fun _ _ hfail => hfail
          rintro outcome final ⟨hfinal, hprogressed⟩
          refine ⟨hconsumes.trans hfinal, fun h => ?_⟩
          obtain hor | hmore := hprogressed h
          · obtain hbefore | hnow := Bool.or_eq_true_iff.mp hor
            · exact .inl hbefore
            · exact .inr ((hfound hnow).trans_le hfinal.iterations)
          · exact .inr (hconsumes.iterations.trans_lt hmore)
        · refine Post.pure ⟨.refl planner _, ?_⟩
          simp

/-- The planner with other fuel. -/
def withFuel (planner : Planner) (fuel : ℕ) : Planner := { planner with fuel }

omit hgo in
theorem transform_withFuel {fuel : ℕ} {progressed : Bool} :
    (planner.withFuel fuel).transform limits source group rules progressed =
      planner.transform limits source group rules progressed := by
  induction rules generalizing progressed with
  | nil => rfl
  | cons rule rest ih =>
      unfold transform
      simp only [ih]
      rfl

theorem succeeds_explorePass (hrules : Transformations rules) {explore : ℕ → ℕ → GroupId → Searching Unit}
    {left : ℕ ×ₗ ℕ} (hexplore : ∀ current child, current.memo.Attainable →
      child.index < current.memo.groups.size → planner.work current < left →
      Succeeds (fun passes calls => explore passes calls child) current
        fun _ final => planner.Consumes current final)
    {ids : List ExprId} {progressed : Bool} (hattainable : state.memo.Attainable)
    (hids : ∀ id ∈ ids, (state.memo.expr? id).isSome) (hgroup : group.index < state.memo.groups.size)
    (hwork : planner.work state < left) :
    Succeeds (fun passes calls => (planner.withFuel passes).explorePass limits rules (explore passes calls)
      group ids progressed) state fun outcome final => planner.Consumes state final ∧
        (outcome = .progressed → progressed = true ∨ state.iterations < final.iterations) := by
  induction ids generalizing state progressed with
  | nil =>
      refine Succeeds.of_post (Post.pure ⟨.refl planner state, ?_⟩)
      cases progressed <;> simp
  | cons id rest ih =>
      obtain ⟨hid, hrest⟩ := List.forall_mem_cons.mp hids
      obtain ⟨expr, hexpr⟩ := Option.isSome_iff_exists.mp hid
      unfold explorePass
      have hread : Post (onMemo (Planning.expr id)) state
          (fun found current => expr = found ∧ state = current) fun _ _ => False :=
        post_onMemo (Post.expr (fun found hfound => ⟨Option.some.inj (hexpr.symm.trans hfound), rfl⟩)
          fun hnone => by simp [hnone] at hexpr)
      refine Succeeds.after hread ?_
      rintro _ _ ⟨rfl, rfl⟩
      simp only [transform_withFuel]
      split
      · refine Succeeds.bind (Succeeds.forM (fun current => planner.Consumes state current) (.refl planner state)
          fun child hchild current hcurrent => ?_) fun _ below hbelow => ?_
        · have hknown := hattainable.inOrder.1.childKnown id expr hexpr child hchild
          exact (hexplore current child (hcurrent.attainable hattainable)
            (hknown.trans_le hcurrent.widens.groups_size) (hcurrent.work_le.trans_lt hwork)).mono
            fun _ _ hfinal => hcurrent.trans hfinal
        refine Succeeds.after (post_transform hgo hrules (List.Subset.refl rules)
          (hbelow.attainable hattainable) (hbelow.widens.isSome hid)
          (hgroup.trans_le hbelow.widens.groups_size)) ?_
        rintro outcome middle ⟨hmiddle, hprogressed⟩
        have hconsumes := hbelow.trans hmiddle
        split
        · exact Succeeds.of_post (Post.pure ⟨hconsumes, by simp⟩)
        have hnoted : Post (onMemo (modify (·.modifyExpr id fun expr => { expr with explored := true })))
            middle (fun _ noted => planner.Consumes middle noted) fun _ _ => False :=
          post_onMemo (Post.modify (.observed (.modifyExpr (fun _ => rfl) fun _ => rfl)))
        refine Succeeds.after hnoted fun _ noted hnoted => ?_
        have hconsumes := hconsumes.trans hnoted
        refine (ih (hconsumes.attainable hattainable) (fun other hother =>
          hconsumes.widens.isSome (hrest other hother)) (hgroup.trans_le hconsumes.widens.groups_size)
          (hconsumes.work_le.trans_lt hwork)).mono ?_
        rintro last final ⟨hfinal, hlater⟩
        refine ⟨hconsumes.trans hfinal, fun h => ?_⟩
        -- a pass that goes on found something, in the children or by the rules
        obtain hearlier | hmore := hlater h
        · obtain hbefore | hmore := hprogressed (by simpa using hearlier)
          · exact .inl hbefore
          · have := hbelow.iterations
            have := hnoted.iterations
            have := hfinal.iterations
            exact .inr (by omega)
        · exact .inr (hconsumes.iterations.trans_lt hmore)
      · exact ih hattainable hrest hgroup hwork

/-- Passes over a group end, because every one that brings something new has applied a rule. -/
theorem succeeds_passes (hrules : Transformations rules) {explore : ℕ → ℕ → GroupId → Searching Unit}
    {left : ℕ ×ₗ ℕ} (hexplore : ∀ current child, current.memo.Attainable →
      child.index < current.memo.groups.size → planner.work current < left →
      Succeeds (fun passes calls => explore passes calls child) current
        fun _ final => planner.Consumes current final)
    (hattainable : state.memo.Attainable) (hgroup : group.index < state.memo.groups.size)
    (hwork : planner.work state < left) :
    Succeeds (fun passes calls => Searching.repeatPasses (do
        onMemo (Planning.checkAbort planner.aborted)
        (planner.withFuel passes).explorePass limits rules (explore passes calls) group
          ((← get).memo.alternativesOf group) false) passes) state
      fun _ final => planner.Consumes state final := by
  refine Succeeds.repeatPasses (planner.Consumes state)
    (fun current => planner.config.maxIterations - current.iterations) (.refl planner state)
    fun current hcurrent => ?_
  have hattainable := hcurrent.attainable hattainable
  have hgoes : Post (onMemo (Planning.checkAbort planner.aborted)) current
      (fun _ checked => current = checked) fun _ _ => False :=
    post_onMemo (Post.checkAbort (fun _ => rfl) fun habort => by simp [hgo] at habort)
  refine Succeeds.after hgoes ?_
  rintro _ _ rfl
  refine Succeeds.getThen ((succeeds_explorePass hgo hrules hexplore hattainable (fun id hid => ?_)
    (hgroup.trans_le hcurrent.widens.groups_size) (hcurrent.work_le.trans_lt hwork)).mono ?_)
  · obtain ⟨_, expr, hexpr, _⟩ := hattainable.inOrder.1.owned hid
    exact Option.isSome_of_eq_some hexpr
  · rintro outcome final ⟨hfinal, hprogressed⟩
    refine ⟨hcurrent.trans hfinal, fun h => ?_⟩
    have hmore : current.iterations < final.iterations :=
      (hprogressed h).resolve_left Bool.false_ne_true
    have hbelow : current.iterations < planner.config.maxIterations := by
      by_contra hspent
      exact absurd (hfinal.spent (Nat.le_of_not_lt hspent)) hmore.ne'
    omega

omit hgo in
theorem post_setPhase {phase : Phase} :
    Post (setPhase group phase) state (fun _ final => planner.Consumes state final)
      fun _ _ => False :=
  post_onMemo (Post.modify (.observed (.modifyGroup
    (Memo.sameContent_modifyGroup (fun _ => rfl) fun _ => rfl))))

/-- Exploring a group ends, by induction on the work that is left. -/
theorem succeeds_exploreGroup (hrules : Transformations rules) {id : GroupId}
    (hattainable : state.memo.Attainable) (hknown : id.index < state.memo.groups.size) :
    Succeeds (fun passes calls => (planner.withFuel passes).exploreGroup limits rules calls id) state
      fun _ final => planner.Consumes state final := by
  induction hwork : planner.work state using WellFoundedLT.induction generalizing state id with
  | _ remaining ih =>
    subst hwork
    refine Succeeds.succ ?_
    unfold exploreGroup
    have hresolved : Post (onMemo (Planning.resolve id)) state (fun group looked =>
        planner.Consumes state looked ∧ group.index < looked.memo.groups.size) fun _ _ => False := by
      have hobserves : Keeps Memo.Observes (Planning.resolve id) := Planning.keeps_resolve
      refine post_onMemo (((hobserves state.memo).both (Planning.Post.resolve hknown)).mono ?_
        fun _ _ hfail => hfail.2)
      rintro _ memo ⟨hobserves, rfl, hsame⟩
      exact ⟨.observed hobserves,
        hsame.groups_size ▸ hattainable.inOrder.1.masterKnown id hknown⟩
    refine Succeeds.after hresolved ?_
    rintro group looked ⟨hlooked, hgroup⟩
    -- entering a group for the first time leaves less work to do
    have hvisit : Post (visit group) looked (fun first visited => planner.Consumes looked visited ∧
        group.index < visited.memo.groups.size ∧
        (first = true → planner.work visited < planner.work looked)) fun _ _ => False := by
      refine Post.bind (Post.get ?_)
      split
      · exact Post.pure ⟨.refl planner looked, hgroup, by simp⟩
      · rename_i hnew
        have hnew : group ∉ looked.visited := by simpa using hnew
        exact Post.bind (Post.modify (Post.pure ⟨Searching.Stepping.visited looked group hnew, hgroup,
          fun _ => work_visit_lt hgroup hnew⟩))
    refine Succeeds.after hvisit ?_
    rintro first visited ⟨hvisited, hgroup, hless⟩
    have hstarted := hlooked.trans hvisited
    split
    · rename_i hfirst
      have hread : Post (onMemo (Planning.group group)) visited (fun _ current => visited = current)
          fun _ _ => False := by
        refine post_onMemo (Post.group (fun _ _ => rfl) fun hnone => ?_)
        rw [Memo.group?_eq_none] at hnone
        exact absurd hgroup hnone.not_gt
      refine Succeeds.after hread ?_
      rintro found _ rfl
      have hphase : Post (setPhase group .exploring) visited
          (fun _ entered => planner.Consumes visited entered) fun _ _ => False := post_setPhase
      refine Succeeds.after hphase fun _ entered hentered => ?_
      have hconsumes := hstarted.trans hentered
      refine Succeeds.bind (succeeds_passes hgo hrules (fun current child hcurrent hchild hwork =>
          ih (planner.work current) (hwork.trans_le hlooked.work_le) hcurrent hchild rfl)
        (hconsumes.attainable hattainable) (hgroup.trans_le hentered.widens.groups_size)
        (hentered.work_le.trans_lt (hless hfirst))) fun settled passed hpassed => ?_
      exact Succeeds.of_post (post_setPhase.mono (fun _ _ hfinal => hconsumes.trans (hpassed.trans hfinal))
        fun _ _ hfail => hfail)
    · exact Succeeds.of_post (Post.pure hstarted)

end Succeeding

end Planner

end QueryPlanner
