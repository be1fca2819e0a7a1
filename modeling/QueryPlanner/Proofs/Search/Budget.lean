import QueryPlanner.Proofs.Optimizer.Columns
import QueryPlanner.Proofs.Rule.Enumeration
import QueryPlanner.Proofs.Search.Properties

/-!
# The limit of rule applications

A rule is started at an alternative only below the limit, and is then applied to all trees there. So
a session of searches applies rules at most as often as the limit says, or it goes beyond the limit
while one rule is applied to several trees, and applies no rule from then on
(`Planner.searchAll_iterations`). Rules that look at one alternative only have one tree to be applied
to, so they keep to the limit.
-/

namespace QueryPlanner

open Memo (SameContent)
open Planning (Keeps Post exec)

/-! ## Rules that look at one alternative -/

/-- The pattern takes the children of an alternative as whole groups. -/
def Pattern.IsFlat (pattern : Pattern) : Prop :=
  ∀ position below, pattern.child? position = some below → below.isLeaf = true

namespace Memo

variable {memo : Memo} {pattern : Pattern} {id : ExprId} {rule : Rule}

/-- The trees that a rule is applied to when it is started at an alternative. -/
def treesFor (memo : Memo) (rule : Rule) (id : ExprId) : List BoundExpr :=
  memo.treesAmong rule.pattern [id] (memo.countTrees rule.pattern [id] + 1)

/-- Whole groups cannot be advanced. -/
theorem advanceLast_leaves {cursors : List Cursor}
    (hleaves : ∀ cursor ∈ cursors, ∃ group, cursor = .leaf group) :
    memo.advanceLast cursors = none := by
  induction cursors with
  | nil => rfl
  | cons cursor rest ih =>
      obtain ⟨⟨group, rfl⟩, hrest⟩ := List.forall_mem_cons.mp hleaves
      rw [advanceLast, ih hrest]
      rfl

/-- A flat pattern opens no group, so no tree comes after the first one. -/
theorem advance_firstTree (hflat : pattern.IsFlat) {cursor : Cursor}
    (hfirst : memo.firstTree pattern id = some cursor) : memo.advance cursor = none := by
  unfold firstTree at hfirst
  cases hdepth : memo.treeDepth pattern with
  | zero => simp [hdepth, firstTreeUpTo] at hfirst
  | succ depth =>
      rw [hdepth, firstTreeUpTo] at hfirst
      obtain ⟨expr, -, hfirst⟩ := Option.bind_eq_some_iff.mp hfirst
      split at hfirst
      · obtain ⟨children, hchildren, hcursor⟩ := Option.bind_eq_some_iff.mp hfirst
        obtain rfl := Option.some.inj hcursor
        rw [advance, advanceLast_leaves, Option.map_none]
        intro cursor hcursor
        obtain ⟨⟨child, position⟩, -, hchild⟩ := exists_of_mem_mapM hchildren hcursor
        obtain ⟨below, hasked, hchild⟩ := Option.bind_eq_some_iff.mp hchild
        rw [if_pos (hflat position below hasked)] at hchild
        exact ⟨_, (Option.some.inj hchild).symm⟩
      · simp at hfirst

/-- A flat pattern has one tree at an alternative at most. -/
theorem length_treesFor_le (hflat : rule.pattern.IsFlat) : (memo.treesFor rule id).length ≤ 1 := by
  unfold treesFor treesAmong firstChoice Cursor.choose
  cases hfirst : memo.firstTree rule.pattern id with
  | none => simp [Cursor.choose, treesFrom]
  | some cursor =>
      have hlast : memo.advance (.choice rule.pattern [id] [] cursor) = none := by
        rw [advance, advance_firstTree hflat hfirst]
        rfl
      dsimp only
      rw [treesFrom, hlast]
      cases memo.countTrees rule.pattern [id] <;> simp [treesFrom]

/-! ## What a session does to a memo -/

/-- The alternatives of the memo are still there, and apply the same operators to the same
children. -/
def KeepsAlternatives (memo memo' : Memo) : Prop :=
  ∀ id expr, memo.expr? id = some expr →
    ∃ expr', memo'.expr? id = some expr' ∧ expr'.op = expr.op ∧ expr'.children = expr.children

namespace KeepsAlternatives

variable {memo' : Memo}

theorem of_expr? (h : ∀ id expr, memo.expr? id = some expr → memo'.expr? id = some expr) :
    memo.KeepsAlternatives memo' := fun id expr hexpr => ⟨expr, h id expr hexpr, rfl, rfl⟩

theorem modifyExpr {id : ExprId} {change : MemoExpr → MemoExpr}
    (h : ∀ expr, (change expr).op = expr.op ∧ (change expr).children = expr.children) :
    memo.KeepsAlternatives (memo.modifyExpr id change) := by
  intro other expr hexpr
  rw [expr?_modifyExpr, hexpr]
  split
  · exact ⟨change expr, rfl, h expr⟩
  · exact ⟨expr, rfl, rfl, rfl⟩

theorem sameQuery (h : memo.SameQuery memo') : memo.KeepsAlternatives memo' := by
  intro id expr hexpr
  obtain ⟨expr', hexpr', houtline⟩ := h.exists_expr hexpr
  exact ⟨expr', hexpr', congrArg (·.op) houtline, congrArg (·.children) houtline⟩

instance : Std.Refl KeepsAlternatives := ⟨fun _ => of_expr? fun _ _ hexpr => hexpr⟩

instance : IsTrans Memo KeepsAlternatives where
  trans _ _ _ h h' id expr hexpr := by
    obtain ⟨between, hbetween, hop, hchildren⟩ := h id expr hexpr
    obtain ⟨expr', hexpr', hop', hchildren'⟩ := h' id between hbetween
    exact ⟨expr', hexpr', hop'.trans hop, hchildren'.trans hchildren⟩

instance : Moving KeepsAlternatives where
  looked _ _ hsame id expr hexpr := by
    obtain ⟨expr', hexpr', hcontent⟩ := hsame.exists_expr hexpr
    exact ⟨expr', hexpr', congrArg (·.op) hcontent, congrArg (·.children) hcontent⟩
  regrouped _ _ _ _ := of_expr? fun _ _ hexpr => hexpr
  rehomed _ _ _ h := modifyExpr fun expr => ⟨(h expr).1, (h expr).2.2.2⟩

instance : Inserting KeepsAlternatives where
  linked := Moving.addDuplicate
  pushed _ _ := of_expr? fun _ _ hexpr => hexpr
  added _ _ _ _ _ := of_expr? fun _ _ => expr?_addAlternative_of_some

instance : Optimizer.Frame KeepsAlternatives where
  stored _ _ hstores := sameQuery hstores.toSameQuery
  created _ _ _ _ := sameQuery sameQuery_addContext
  enforced _ _ _ _ _ := Inserting.keeps_insert

instance : Memo.Filling KeepsAlternatives where
  observed _ _ h := Looking.looked _ _ h.same
  inserted _ := Inserting.keeps_insert

end KeepsAlternatives

end Memo

/-! ## One rule at one alternative -/

/-- No rule was applied in between. -/
def SearchState.SameIterations (state final : SearchState) : Prop :=
  final.iterations = state.iterations

instance : Std.Refl SearchState.SameIterations := ⟨fun _ => rfl⟩

instance : IsTrans SearchState SearchState.SameIterations := ⟨fun _ _ _ h h' => h'.trans h⟩

theorem Searching.sameIterations_onMemo {α : Type} {action : Planning α} :
    Keeps SearchState.SameIterations (onMemo action) := .of_exec fun _ => rfl

namespace Planner

open Searching

variable {planner : Planner} {rule : Rule} {rules : List Rule} {source : ExprId} {group : GroupId}
  {state final : SearchState}

theorem post_applyRule_iterations {bound : BoundExpr} :
    Post (planner.applyRule rule source group bound) state
      (fun _ final => final.iterations = state.iterations + 1)
      (fun _ final => final.iterations ≤ state.iterations + 1) := by
  unfold applyRule
  refine (sameIterations_onMemo state).andThen
    (fun _ _ hfail => (show _ = _ from hfail).trans_le (Nat.le_succ _)) fun _ checked hchecked => ?_
  refine Post.bind (Post.modify (Post.bind (Post.get ?_)))
  have hinserts {results : List RuleResult} : Keeps SearchState.SameIterations
      (results.foldlM (fun found result => do
        let inserted ← onMemo (Planning.insertResult group { rule := rule.name, source } result)
        return found || inserted.isNew) false) :=
    Keeps.foldlM fun _ _ _ => Keeps.bind sameIterations_onMemo fun _ => Keeps.pure
  have hcounted : checked.iterations + 1 = state.iterations + 1 := congrArg (· + 1) hchecked
  exact (hinserts _).mono (fun _ _ hfinal => (show _ = _ from hfinal).trans hcounted)
    fun _ _ hfinal => ((show _ = _ from hfinal).trans hcounted).le

/-- A rule is applied once per tree, by induction on the trees. -/
theorem post_applyRules_iterations {trees : List BoundExpr} {found : Bool} :
    Post (trees.foldlM (fun found bound => do
        let inserted ← planner.applyRule rule source group bound
        return found || inserted) found) state
      (fun _ final => final.iterations = state.iterations + trees.length)
      (fun _ final => final.iterations ≤ state.iterations + trees.length) := by
  induction trees generalizing found state with
  | nil => exact Post.pure rfl
  | cons bound rest ih =>
      rw [List.foldlM_cons, bind_assoc]
      refine post_applyRule_iterations.andThen
        (fun _ _ hfail => hfail.trans (by rw [List.length_cons]; omega)) fun _ middle hmiddle => ?_
      refine Post.bind (Post.pure (ih.mono (fun _ final hfinal => ?_) fun _ final hfinal => ?_)) <;>
        (rw [List.length_cons]; omega)

/-- Starting a rule at an alternative applies it to all trees there, unless it fails. -/
theorem post_fire_iterations :
    Post (planner.fire rule source group) state
      (fun _ final => final.iterations = state.iterations + (state.memo.treesFor rule source).length)
      (fun _ final =>
        final.iterations ≤ state.iterations + (state.memo.treesFor rule source).length) := by
  unfold fire
  have hlisted : Post (Planning.bindExpr rule.pattern source none) state.memo
      (fun trees _ => trees = state.memo.treesFor rule source) fun _ _ => True :=
    Post.bind (Post.expr (fun _ _ => Post.bind (Post.get (Post.bind (Post.set (Post.pure rfl)))))
      fun _ => trivial)
  refine Post.bind (post_onMemo (hlisted.mono ?_ fun _ _ _ => Nat.le_add_right _ _))
  rintro _ looked rfl
  exact post_applyRules_iterations

end Planner

/-! ## Sessions -/

/-- A rule was started below the limit, at an alternative where it has several trees, and went beyond
the limit. No rule was applied after it. -/
structure SearchState.Overruns (planner : Planner) (rules : List Rule) (state final : SearchState)
    (rule : Rule) (source : ExprId) (group : GroupId) (before : SearchState) : Prop where
  listed : rule ∈ rules
  earlier : state.memo.KeepsAlternatives before.memo
  below : before.iterations < planner.config.maxIterations
  beyond : planner.config.maxIterations < final.iterations
  last : final.iterations = (exec (planner.fire rule source group) before).2.iterations
  later : (exec (planner.fire rule source group) before).2.memo.KeepsAlternatives final.memo

/-- What a search of a session does to its state at most. -/
structure SearchState.Spends (planner : Planner) (rules : List Rule) (state final : SearchState) :
    Prop where
  kept : state.memo.KeepsAlternatives final.memo
  /-- At the limit no rule is applied any more. -/
  idle : planner.config.maxIterations ≤ state.iterations → final.iterations = state.iterations
  spent : state.iterations < planner.config.maxIterations →
    final.iterations ≤ planner.config.maxIterations ∨
      ∃ rule source group before, state.Overruns planner rules final rule source group before

namespace SearchState

variable {planner : Planner} {rules : List Rule} {rule : Rule} {source : ExprId} {group : GroupId}
  {state middle final before : SearchState}

namespace Overruns

variable (h : state.Overruns planner rules final rule source group before)
include h

/-- The limit is exceeded by less than the number of trees that the rule was applied to. -/
theorem iterations_lt : final.iterations <
    planner.config.maxIterations + (before.memo.treesFor rule source).length := by
  have hfired : (exec (planner.fire rule source group) before).2.iterations ≤
      before.iterations + (before.memo.treesFor rule source).length :=
    Post.exec_snd (P := fun final : SearchState => final.iterations ≤ _)
      (Planner.post_fire_iterations.mono (fun _ _ hfinal => hfinal.le) fun _ _ hfinal => hfinal)
  have := h.below
  have := h.last
  omega

/-- A rule that goes beyond the limit looks below an alternative. -/
theorem not_isFlat : ¬ rule.pattern.IsFlat := by
  intro hflat
  have := h.iterations_lt
  have := h.beyond
  have : (before.memo.treesFor rule source).length ≤ 1 := Memo.length_treesFor_le hflat
  omega

end Overruns

namespace Spends

instance : Std.Refl (Spends planner rules) where
  refl state := ⟨Std.Refl.refl state.memo, fun _ => rfl, fun hbelow => .inl hbelow.le⟩

/-- Once the limit is reached, the state of the search stays as it is. -/
instance : IsTrans SearchState (Spends planner rules) where
  trans first middle last h h' :=
    { kept := IsTrans.trans _ _ _ h.kept h'.kept
      idle := fun hlimit => by
        have hmiddle := h.idle hlimit
        rw [h'.idle (hmiddle ▸ hlimit), hmiddle]
      spent := fun hbelow => by
        rcases h.spent hbelow with hwithin | ⟨rule, source, group, before, hover⟩
        · rcases hwithin.lt_or_eq with hmore | hreached
          · refine (h'.spent hmore).imp id fun ⟨rule, source, group, before, hover⟩ => ?_
            exact ⟨rule, source, group, before,
              { hover with earlier := IsTrans.trans _ _ _ h.kept hover.earlier }⟩
          · exact .inl ((h'.idle hreached.ge).trans_le hwithin)
        · have hsame := h'.idle hover.beyond.le
          exact .inr ⟨rule, source, group, before,
            { hover with
              beyond := hsame ▸ hover.beyond
              last := hsame.trans hover.last
              later := IsTrans.trans _ _ _ hover.later h'.kept }⟩ }

/-- Steps that apply no rule. -/
theorem of_sameIterations (hkept : state.memo.KeepsAlternatives final.memo)
    (hsame : final.iterations = state.iterations) : state.Spends planner rules final :=
  ⟨hkept, fun _ => hsame, fun hbelow => .inl (hsame.trans_le hbelow.le)⟩

instance : Searching.Marking (Spends planner rules) where
  observed _ memo memo' h :=
    of_sameIterations (Memo.Looking.looked memo memo' h.same) rfl
  visited state _ _ := of_sameIterations (Std.Refl.refl state.memo) rfl
  started _ _ _ _ _ := of_sameIterations (.modifyExpr fun _ => ⟨rfl, rfl⟩) rfl
  marked _ _ _ := of_sameIterations (.modifyExpr fun _ => ⟨rfl, rfl⟩) rfl

theorem onMemo {α : Type} {action : Planning α} (h : Keeps Memo.KeepsAlternatives action) :
    Keeps (Spends planner rules) (Searching.onMemo action) := fun state =>
  Searching.post_onMemo ((h state.memo).mono (fun _ _ hfinal => of_sameIterations hfinal rfl)
    fun _ _ hfinal => of_sameIterations hfinal rfl)

end Spends

end SearchState

namespace Planner

open Searching SearchState

variable {planner : Planner} {rules : List Rule} {rule : Rule} {source : ExprId} {group : GroupId}
  {root : GroupId} {required : PlanRequirement} {stage : Nat}

theorem keepsAlternatives_fire :
    Keeps (Within Memo.KeepsAlternatives) (planner.fire rule source group) := by
  have hlook {α : Type} {action : Planning α} (h : Keeps Memo.Observes action) :
      Keeps (Within Memo.KeepsAlternatives) (onMemo action) :=
    Within.onMemo (h.mono fun _ _ hseen => Memo.Looking.looked _ _ hseen.same)
  unfold fire
  refine Keeps.bind (hlook observes_bindExpr) fun trees => Keeps.foldlM fun _ bound _ => ?_
  refine Keeps.bind ?_ fun _ => Keeps.pure
  unfold applyRule
  refine Keeps.bind (hlook Planning.keeps_checkAbort) fun _ => ?_
  refine Keeps.bind (Within.modify fun _ => rfl) fun _ => Keeps.bind Keeps.get fun state => ?_
  refine Keeps.foldlM fun _ result _ => Keeps.bind (Within.onMemo ?_) fun _ => Keeps.pure
  exact Keeps.bind (Planning.keeps_childGroups _ result.children) fun _ =>
    Memo.Inserting.keeps_insert

/-- A rule that is started below the limit stays within it, or goes beyond it as the last one. -/
theorem fires_spends (hrule : rule ∈ rules) : planner.Fires (Spends planner rules) rule := by
  intro source group before hbelow
  have hmemo : before.memo.KeepsAlternatives (exec (planner.fire rule source group) before).2.memo :=
    Post.exec_snd (P := fun final : SearchState => before.memo.KeepsAlternatives final.memo)
      (keepsAlternatives_fire before)
  suffices hspends : before.Spends planner rules (exec (planner.fire rule source group) before).2 by
    refine Post.of_exec (fun _ _ hexec => ?_) fun _ _ hexec => ?_ <;> rwa [hexec] at hspends
  refine ⟨hmemo, fun hlimit => absurd hbelow hlimit.not_gt, fun _ => ?_⟩
  by_cases hwithin : (exec (planner.fire rule source group) before).2.iterations ≤
      planner.config.maxIterations
  · exact .inl hwithin
  · exact .inr ⟨rule, source, group, before,
      { listed := hrule
        earlier := Std.Refl.refl before.memo
        below := hbelow
        beyond := Nat.lt_of_not_le hwithin
        last := rfl
        later := Std.Refl.refl _ }⟩

theorem spends_runStage :
    Keeps (Spends planner rules) (planner.runStage rules root required stage) := by
  have hlook {α : Type} {action : Planning α} (h : Keeps SameContent action) :
      Keeps (Spends planner rules) (onMemo action) :=
    Spends.onMemo (h.mono Memo.Looking.looked)
  have hnote {change : SearchState → SearchState}
      (hmemo : ∀ state, (change state).memo = state.memo)
      (hsame : ∀ state, (change state).iterations = state.iterations) :
      Keeps (Spends planner rules) (modify change) :=
    Keeps.modify fun state =>
      Spends.of_sameIterations (by rw [hmemo]; exact Std.Refl.refl _) (hsame state)
  have hfires (kind : RuleKind) :
      ∀ rule ∈ rules.filter (·.kind == kind), planner.Fires (Spends planner rules) rule :=
    fun rule hrule => fires_spends (List.mem_of_mem_filter hrule)
  unfold runStage
  refine Keeps.bind (hlook Planning.keeps_resolve) fun root => ?_
  refine Keeps.bind (hnote (fun _ => rfl) fun _ => rfl) fun _ => ?_
  refine Keeps.bind (hnote (fun _ => rfl) fun _ => rfl) fun _ => ?_
  refine Keeps.bind (keeps_exploreGroup (hfires .transformation)) fun _ => ?_
  refine Keeps.bind (Spends.onMemo fun memo => ?_) fun root => ?_
  · have hmerged : memo.KeepsAlternatives memo.mergeDuplicates := Memo.Moving.mergeDuplicates memo
    exact post_finishExploration.mono
      (fun _ _ hfinal => IsTrans.trans _ _ _ hmerged (Memo.Looking.looked _ _ hfinal.2))
      fun _ _ hfinal => IsTrans.trans _ _ _ hmerged (Memo.Looking.looked _ _ hfinal)
  refine Keeps.bind (hnote (fun _ => rfl) fun _ => rfl) fun _ => ?_
  refine Keeps.bind (keeps_implementGroup (hfires .implementation)) fun _ => ?_
  refine Keeps.bind (Spends.onMemo Optimizer.Works.keeps_optimize) fun _ => ?_
  exact hlook keeps_planSoFar

/-- Several stages, by induction on them. -/
theorem spends_runStages {stages : List Nat} {best : Option PlanNode} :
    Keeps (Spends planner rules) (planner.runStages rules root required stages best) := by
  induction stages generalizing best with
  | nil => exact Keeps.pure
  | cons stage rest ih =>
      unfold runStages
      refine Keeps.bind spends_runStage fun found => ?_
      dsimp only
      split
      · split
        · exact Keeps.pure
        · exact ih
      · exact ih

theorem spends_searchRoot :
    Keeps (Spends planner rules) (planner.searchRoot rules root required) := by
  unfold searchRoot
  refine Keeps.bind (Spends.onMemo (Keeps.modify fun _ =>
    Memo.KeepsAlternatives.of_expr? fun _ _ hexpr => hexpr)) fun _ => ?_
  refine Keeps.bind spends_runStages fun best => ?_
  cases best with
  | some plan => exact Keeps.pure
  | none =>
      exact Keeps.bind (Spends.onMemo (Keeps.mono Planning.keeps_resolve Memo.Looking.looked))
        fun _ => Keeps.throw

/-- A session: searches one after the other, in one memo and with one count of what rules were
applied to. A search that fails ends only itself. -/
def searchAll (planner : Planner) (rules : List Rule) (goals : List (GroupId × PlanRequirement))
    (memo : Memo) : SearchState :=
  goals.foldl (fun state goal => (exec (planner.searchRoot rules goal.1 goal.2) state).2) { memo }

/-- Take any session, with any rules and from any memo. Rules are applied at most as often as the
limit says, or the limit is exceeded by a single rule: it looks below alternatives, was started below
the limit at an alternative where it has several trees, and exceeded the limit by less than their
number; no rule was applied after it. -/
theorem searchAll_iterations (planner : Planner) (rules : List Rule)
    (goals : List (GroupId × PlanRequirement)) (memo : Memo) :
    let final := planner.searchAll rules goals memo
    final.iterations ≤ planner.config.maxIterations ∨
      ∃ rule source group before,
        SearchState.Overruns planner rules { memo } final rule source group before ∧
        ¬ rule.pattern.IsFlat ∧
        final.iterations <
          planner.config.maxIterations + (before.memo.treesFor rule source).length := by
  intro final
  have hspends : SearchState.Spends planner rules { memo } final := by
    refine List.foldlRecOn goals _ (Std.Refl.refl _) fun state hstate goal _ => ?_
    exact IsTrans.trans _ _ _ hstate (Post.exec_snd (spends_searchRoot state))
  rcases Nat.eq_zero_or_pos planner.config.maxIterations with hzero | hpositive
  · exact .inl ((hspends.idle hzero.le).trans_le (Nat.zero_le _))
  · refine (hspends.spent hpositive).imp id fun ⟨rule, source, group, before, hover⟩ => ?_
    exact ⟨rule, source, group, before, hover, hover.not_isFlat, hover.iterations_lt⟩

/-- A rule is started once at an aggregate over two tables, and is applied twice. -/
example :
    let rule : Rule :=
      { name := "GbAggOverTree", kind := .transformation, pattern := .node (.kind "GbAgg") [.tree],
        apply := fun _ _ => [] }
    let planner : Planner := { model := .unit, config := { maxIterations := 1 }, fuel := 8 }
    (planner.searchAll [rule] [(⟨2⟩, {})] Memo.folded).iterations = 2 := by
  decide +kernel

end Planner

end QueryPlanner
