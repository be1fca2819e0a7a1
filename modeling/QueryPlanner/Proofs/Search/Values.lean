import QueryPlanner.Proofs.Search.Steps

/-!
# A search leaves groups their values

With rules that are sound for a reading of operators, `Planner.search` leaves every group its value,
whether it finds a plan, fails or stops early (`Planner.continues_search`). Rules are applied to
alternatives of a known group; this stays so when the search inserts alternatives, finds duplicates
and merges groups.
-/

namespace QueryPlanner

open Memo (Grows SameContent)
open Planning (Keeps Post)
open Searching (Preserves)

variable {α : Type} {reading : Reading α} {meaning : GroupId → α} {state : SearchState}

namespace Planner

variable {planner : Planner} {rule : Rule} {rules : List Rule} {limits : StageLimits}
  {source : ExprId} {group : GroupId}

/-! ## Applying rules -/

/-- A sound rule is applied to a tree that was listed before, of a group with the value of the
target. -/
theorem preserves_applyRule (hsound : rule.Sound reading) {listed : Memo} {owner : GroupId}
    {bound : BoundExpr} (hlisted : listed.Models reading meaning)
    (hgrows : Grows reading listed meaning state.memo meaning)
    (hbinds : listed.Binds rule.pattern owner bound) (howner : owner.index < listed.groups.size)
    (hgroup : group.index < state.memo.groups.size) (hvalue : meaning owner = meaning group) :
    Preserves reading meaning (planner.applyRule rule source group bound) state := by
  unfold applyRule
  refine Preserves.bind (Preserves.quiet hgrows.models Planning.keeps_checkAbort)
    fun _ checked checkedMeaning hchecked => ?_
  refine Preserves.bind (Preserves.modify hchecked.models rfl) fun _ counted meaning' hcounted => ?_
  refine Post.bind (Post.get ?_)
  have hcurrent := hchecked.trans hcounted
  have hlater := hgrows.trans hcurrent
  have hknown := hcurrent.known hgroup
  have hsame : meaning' owner = meaning' group := by
    rw [hlater.agrees owner howner, hcurrent.agrees group hgroup, hvalue]
  refine Preserves.foldlM hcounted.models fun found result hresult current final hfinal => ?_
  have hcomputes := hfinal.resultValue?
    (hsound listed counted.memo meaning' (hlater.models_before hlisted) hlater.settled owner bound
      hbinds result hresult)
  rw [hsame, ← hfinal.agrees group hknown] at hcomputes
  have hinsert := Post.insertResult { rule := rule.name, source } hfinal.models
    (hfinal.known hknown) hcomputes
  exact Preserves.bind (Searching.post_onMemo hinsert) fun _ _ _ hinserted =>
    Preserves.pure hinserted.models

/-- A sound rule is applied to all trees at an alternative. -/
theorem preserves_fire (hsound : rule.Sound reading) (h : state.memo.Models reading meaning)
    (hserves : state.memo.Serves meaning group source) :
    Preserves reading meaning (planner.fire rule source group) state := by
  obtain ⟨hgroup, expr, hexpr, hvalue⟩ := hserves
  have howner := h.wellFormed.masterKnown _ (h.wellFormed.ownerKnown source expr hexpr)
  have hlisting : Post (Searching.onMemo (Planning.bindExpr rule.pattern source none)) state
      (fun trees final => SameContent state.memo final.memo ∧
        ∃ expr, state.memo.expr? source = some expr ∧
          ∀ bound ∈ trees, state.memo.Binds rule.pattern (state.memo.master expr.group) bound)
      (fun _ final => final.memo = state.memo) :=
    Searching.post_onMemo (Post.bindExpr h.wellFormed)
  unfold fire
  refine hlisting.andThen ?_ ?_
  · rintro _ final hfinal
    refine ⟨meaning, ?_⟩
    rw [hfinal]
    exact .refl h
  · rintro trees listed ⟨hsame, found, hfound, hbinds⟩
    obtain rfl := Option.some.inj (hexpr.symm.trans hfound)
    have hlooked := h.regroups (hsame.regroups h.wellFormed)
    refine Preserves.after hlooked (Preserves.foldlM hlooked.models
      fun _ bound hbound current meaning' hcurrent => ?_)
    have hlater := hlooked.trans hcurrent
    refine Preserves.bind (preserves_applyRule hsound (hlater.models_before h) hlater.settled
      (hbinds bound hbound) howner (hlater.known hgroup) ?_)
      fun _ _ _ hfinal => Preserves.pure hfinal.models
    rw [hlater.agrees _ howner, hlater.agrees group hgroup, h.linked, hvalue]

/-- Transformation rules are started on an alternative, by induction on the rules. -/
theorem preserves_transform (hsound : ∀ rule ∈ rules, rule.Sound reading)
    (h : state.memo.Models reading meaning) (hserves : state.memo.Serves meaning group source)
    {progressed : Bool} :
    Preserves reading meaning (planner.transform limits source group rules progressed) state := by
  induction rules generalizing state meaning progressed with
  | nil => exact Preserves.pure h
  | cons rule rest ih =>
      have hrest : ∀ rule ∈ rest, rule.Sound reading := fun other hother =>
        hsound other (by simp [hother])
      unfold transform
      refine Preserves.bind (Searching.preserves_wasApplied h) fun applied current _ hcurrent => ?_
      split
      · exact ih hrest hcurrent.models (hcurrent.serves h hserves)
      · refine Post.bind (Post.get ?_)
        split
        · refine Preserves.bind (Searching.preserves_markApplied hcurrent.models)
            fun _ marked _ hmarked => ?_
          refine Preserves.bind (Preserves.modify hmarked.models rfl) fun _ counted _ hcounted => ?_
          have hnow := (hcurrent.trans hmarked).trans hcounted
          refine Preserves.bind (preserves_fire (hsound rule (by simp)) hnow.models
            (hnow.serves h hserves)) fun _ fired _ hfired => ?_
          have hnow := hnow.trans hfired
          exact ih hrest hnow.models (hnow.serves h hserves)
        · exact Preserves.pure hcurrent.models

/-! ## Exploration -/

/-- One pass over alternatives of a group, by induction on them. -/
theorem preserves_explorePass (hsound : ∀ rule ∈ rules, rule.Sound reading)
    {explore : GroupId → Searching Unit} {ids : List ExprId} {progressed : Bool}
    (hexplore : ∀ child current meaning', current.memo.Models reading meaning' →
      Preserves reading meaning' (explore child) current)
    (h : state.memo.Models reading meaning) (hserves : ∀ id ∈ ids, state.memo.Serves meaning group id) :
    Preserves reading meaning (planner.explorePass limits rules explore group ids progressed)
      state := by
  induction ids generalizing state meaning progressed with
  | nil => exact Preserves.pure h
  | cons id rest ih =>
      have hgoOn {current : SearchState} {meaning' : GroupId → α} {progressed : Bool}
          (hgrows : Grows reading state.memo meaning current.memo meaning') :
          Preserves reading meaning'
            (planner.explorePass limits rules explore group rest progressed) current :=
        ih hgrows.models fun other hother => hgrows.serves h (hserves other (by simp [hother]))
      unfold explorePass
      refine Preserves.bind (Preserves.quiet h Planning.keeps_expr) fun expr found _ hfound => ?_
      split
      · refine Preserves.bind (Preserves.forM hfound.models fun child _ current meaning' hcurrent =>
          hexplore child current meaning' hcurrent.models) fun _ below _ hbelow => ?_
        have hnow := hfound.trans hbelow
        refine Preserves.bind (preserves_transform hsound hnow.models
          (hnow.serves h (hserves id (by simp)))) fun outcome done _ hdone => ?_
        split
        · exact Preserves.pure hdone.models
        · refine Preserves.bind (Preserves.quiet hdone.models (Keeps.modify fun _ =>
            Memo.sameContent_modifyExpr fun _ => rfl)) fun _ marked _ hmarked => ?_
          exact hgoOn ((hnow.trans hdone).trans hmarked)
      · exact hgoOn hfound

/-- Exploring a group, by induction on the depth of the calls. -/
theorem preserves_exploreGroup (hsound : ∀ rule ∈ rules, rule.Sound reading) {fuel : Nat}
    {id : GroupId} (h : state.memo.Models reading meaning) :
    Preserves reading meaning (planner.exploreGroup limits rules fuel id) state := by
  induction fuel generalizing state meaning id with
  | zero => exact Preserves.throw h
  | succ fuel ih =>
      unfold exploreGroup
      refine Preserves.bind (Preserves.quiet h Planning.keeps_resolve) fun id found _ hfound => ?_
      refine Preserves.bind (Searching.preserves_visit hfound.models) fun first seen _ hseen => ?_
      split
      · refine Preserves.bind (Preserves.quiet hseen.models Planning.keeps_group)
          fun group looked _ hlooked => ?_
        refine Preserves.bind (Searching.preserves_setPhase hlooked.models)
          fun _ started startMeaning hstarted => ?_
        refine Preserves.bind (Searching.preserves_repeatPasses hstarted.models ?_)
          fun settled done _ hdone => Searching.preserves_setPhase hdone.models
        intro current meaning' hcurrent
        refine Preserves.bind (Preserves.quiet hcurrent.models Planning.keeps_checkAbort)
          fun _ checked _ hchecked => ?_
        refine Post.bind (Post.get ?_)
        exact preserves_explorePass hsound (fun _ _ _ hmodels => ih hmodels) hchecked.models
          fun _ hother => hchecked.models.serves hother
      · exact Preserves.pure hseen.models

/-! ## Implementation -/

/-- Implementation rules are started on an alternative, by induction on the rules. -/
theorem preserves_implementExpr (hsound : ∀ rule ∈ rules, rule.Sound reading)
    (h : state.memo.Models reading meaning) (hserves : state.memo.Serves meaning group source) :
    Preserves reading meaning (planner.implementExpr source group rules) state := by
  induction rules generalizing state meaning with
  | nil => exact Preserves.pure h
  | cons rule rest ih =>
      have hrest : ∀ rule ∈ rest, rule.Sound reading := fun other hother =>
        hsound other (by simp [hother])
      unfold implementExpr
      refine Preserves.bind (Searching.preserves_wasApplied h) fun applied current _ hcurrent => ?_
      split
      · exact ih hrest hcurrent.models (hcurrent.serves h hserves)
      · refine Post.bind (Post.get ?_)
        split
        · refine Preserves.bind (Searching.preserves_markApplied hcurrent.models)
            fun _ marked _ hmarked => ?_
          have hnow := hcurrent.trans hmarked
          refine Preserves.bind (preserves_fire (hsound rule (by simp)) hnow.models
            (hnow.serves h hserves)) fun _ fired _ hfired => ?_
          have hnow := hnow.trans hfired
          exact ih hrest hnow.models (hnow.serves h hserves)
        · exact Preserves.pure hcurrent.models

/-- Alternatives of a group are implemented, by induction on them. -/
theorem preserves_implementPass (hsound : ∀ rule ∈ rules, rule.Sound reading)
    {implement : GroupId → Searching Unit} {ids : List ExprId}
    (himplement : ∀ child current meaning', current.memo.Models reading meaning' →
      Preserves reading meaning' (implement child) current)
    (h : state.memo.Models reading meaning) (hserves : ∀ id ∈ ids, state.memo.Serves meaning group id) :
    Preserves reading meaning (planner.implementPass rules implement group ids) state := by
  induction ids generalizing state meaning with
  | nil => exact Preserves.pure h
  | cons id rest ih =>
      have hgoOn {current : SearchState} {meaning' : GroupId → α}
          (hgrows : Grows reading state.memo meaning current.memo meaning') :
          Preserves reading meaning' (planner.implementPass rules implement group rest) current :=
        ih hgrows.models fun other hother => hgrows.serves h (hserves other (by simp [hother]))
      unfold implementPass
      refine Preserves.bind (Preserves.quiet h Planning.keeps_checkAbort)
        fun _ checked _ hchecked => ?_
      refine Preserves.bind (Preserves.quiet hchecked.models Planning.keeps_expr)
        fun expr found _ hfound => ?_
      have hnow := hchecked.trans hfound
      split
      · refine Preserves.bind (Preserves.forM hnow.models fun child _ current meaning' hcurrent =>
          himplement child current meaning' hcurrent.models) fun _ below _ hbelow => ?_
        refine Preserves.bind (Preserves.quiet hbelow.models Planning.keeps_expr)
          fun again looked _ hlooked => ?_
        have hnow := (hnow.trans hbelow).trans hlooked
        split
        · exact hgoOn hnow
        · refine Preserves.bind (preserves_implementExpr hsound hnow.models
            (hnow.serves h (hserves id (by simp)))) fun lasted done _ hdone => ?_
          split
          · refine Preserves.bind (Preserves.quiet hdone.models (Keeps.modify fun _ =>
              Memo.sameContent_modifyExpr fun _ => rfl)) fun _ marked _ hmarked => ?_
            exact hgoOn ((hnow.trans hdone).trans hmarked)
          · exact Preserves.pure hdone.models
      · exact hgoOn hnow

/-- Implementing a group, by induction on the depth of the calls. -/
theorem preserves_implementGroup (hsound : ∀ rule ∈ rules, rule.Sound reading) {fuel : Nat}
    {id : GroupId} (h : state.memo.Models reading meaning) :
    Preserves reading meaning (planner.implementGroup rules fuel id) state := by
  induction fuel generalizing state meaning id with
  | zero => exact Preserves.throw h
  | succ fuel ih =>
      unfold implementGroup
      refine Preserves.bind (Preserves.quiet h Planning.keeps_resolve) fun id found _ hfound => ?_
      refine Preserves.bind (Searching.preserves_visit hfound.models) fun first seen _ hseen => ?_
      split
      · refine Preserves.bind (Searching.preserves_setPhase hseen.models)
          fun _ started _ hstarted => ?_
        refine Post.bind (Post.get ?_)
        refine Preserves.bind (preserves_implementPass hsound (fun _ _ _ hmodels => ih hmodels)
          hstarted.models fun _ hother => hstarted.models.serves hother) fun lasted done _ hdone => ?_
        split
        · exact Searching.preserves_setPhase hdone.models
        · exact Preserves.pure hdone.models
      · exact Preserves.pure hseen.models

/-! ## Stages -/

/-- Deriving missing statistics leaves the content, whatever fails. -/
theorem keeps_deriveMissing {id : GroupId} : Keeps SameContent (planner.deriveMissing id) := by
  unfold deriveMissing
  refine Keeps.bind Planning.keeps_group fun found => ?_
  split
  · refine Keeps.tryCatch (Keeps.bind Planning.keeps_deriveStatistics fun _ => Keeps.pure)
      fun error => ?_
    split
    · exact Keeps.throw
    · exact Keeps.pure
  · exact Keeps.pure

/-- Finishing an exploration moves alternatives between groups with the same master at most. -/
theorem continues_finishExploration {root : GroupId} {required : PlanRequirement} :
    Keeps (Memo.Continues reading) (planner.finishExploration root required) := by
  unfold finishExploration
  refine Keeps.bind (Keeps.modify fun memo meaning h =>
    ⟨meaning, h.regroups h.wellFormed.mergeDuplicates⟩) fun _ => ?_
  refine Keeps.bind (.quiet Planning.keeps_resolve) fun root => ?_
  refine Keeps.bind (Keeps.modify fun _ => Memo.sameContent_setRoot.continues) fun _ => ?_
  refine Keeps.bind (.quiet Planning.keeps_resetStatistics) fun _ => ?_
  refine Keeps.bind (.quiet Planning.keeps_deriveStatistics) fun _ => ?_
  split
  · refine Keeps.bind Keeps.get fun memo => ?_
    refine Keeps.bind (Keeps.forM fun id _ => ?_) fun _ => Keeps.pure
    exact .quiet keeps_deriveMissing
  · exact Keeps.pure

/-- Extracting the best plan so far leaves the content. -/
theorem keeps_planSoFar {root : GroupId} {required : PlanRequirement} {stages : Nat} :
    Keeps SameContent (planSoFar root required stages) := by
  unfold planSoFar
  refine Keeps.bind (Keeps.tryCatch (Keeps.bind Planning.keeps_extractPlan fun _ => ?_)
    fun error => ?_) fun early => ?_
  · exact Keeps.pure
  · split
    · exact Keeps.pure
    · exact Keeps.bind Keeps.throw fun _ => Keeps.pure
  · cases early <;> exact Keeps.pure

/-- One stage. -/
theorem preserves_runStage (hsound : ∀ rule ∈ rules, rule.Sound reading) {root : GroupId}
    {required : PlanRequirement} {stage : Nat} (h : state.memo.Models reading meaning) :
    Preserves reading meaning (planner.runStage rules root required stage) state := by
  have hkind (kind : RuleKind) : ∀ rule ∈ rules.filter (·.kind == kind), rule.Sound reading :=
    fun rule hrule => hsound rule (List.mem_of_mem_filter hrule)
  unfold runStage
  refine Preserves.bind (Preserves.quiet h Planning.keeps_resolve) fun root found _ hfound => ?_
  refine Preserves.bind (Preserves.modify hfound.models rfl) fun _ counted _ hcounted => ?_
  refine Preserves.bind (Preserves.modify hcounted.models rfl) fun _ started _ hstarted => ?_
  refine Preserves.bind (preserves_exploreGroup (hkind .transformation) hstarted.models)
    fun _ explored _ hexplored => ?_
  refine Preserves.bind (Preserves.continues hexplored.models continues_finishExploration)
    fun root finished _ hfinished => ?_
  refine Preserves.bind (Preserves.modify hfinished.models rfl) fun _ again _ hagain => ?_
  refine Preserves.bind (preserves_implementGroup (hkind .implementation) hagain.models)
    fun _ implemented _ himplemented => ?_
  refine Preserves.bind (Preserves.continues himplemented.models Optimizer.Works.keeps_optimize)
    fun _ optimized _ hoptimized => ?_
  exact Preserves.quiet hoptimized.models keeps_planSoFar

/-- Several stages, by induction on them. -/
theorem preserves_runStages (hsound : ∀ rule ∈ rules, rule.Sound reading) {root : GroupId}
    {required : PlanRequirement} {stages : List Nat} {best : Option PlanNode}
    (h : state.memo.Models reading meaning) :
    Preserves reading meaning (planner.runStages rules root required stages best) state := by
  induction stages generalizing state meaning best with
  | nil => exact Preserves.pure h
  | cons stage rest ih =>
      unfold runStages
      refine Preserves.bind (preserves_runStage hsound h) fun found ran _ hran => ?_
      dsimp only
      split
      · split
        · exact Preserves.pure hran.models
        · exact ih hran.models
      · exact ih hran.models

/-- All stages for a root. -/
theorem preserves_searchRoot (hsound : ∀ rule ∈ rules, rule.Sound reading) {root : GroupId}
    {required : PlanRequirement} (h : state.memo.Models reading meaning) :
    Preserves reading meaning (planner.searchRoot rules root required) state := by
  unfold searchRoot
  refine Preserves.bind (Preserves.quiet h (Keeps.modify fun _ => Memo.sameContent_setRoot))
    fun _ started _ hstarted => ?_
  refine Preserves.bind (preserves_runStages hsound hstarted.models) fun best ran _ hran => ?_
  split
  · exact Preserves.pure hran.models
  · exact Preserves.bind (Preserves.quiet hran.models Planning.keeps_resolve)
      fun _ _ _ hlooked => Preserves.throw hlooked.models

/-- However a search with sound rules ends, every group keeps its value, and every alternative in the
final memo computes the value of its group. -/
theorem continues_search (hsound : ∀ rule ∈ rules, rule.Sound reading) (planner : Planner)
    (root : GroupId) (required : PlanRequirement) (memo : Memo) :
    memo.Continues reading (planner.search rules root required memo).state.memo := by
  intro meaning h
  have hrun : Preserves reading meaning (planner.searchRoot rules root required) { memo } :=
    preserves_searchRoot hsound h
  have hfinal := hrun.exec_snd
  exact hfinal

end Planner

end QueryPlanner
