import QueryPlanner.Proofs.Rule.Odometer
import QueryPlanner.Proofs.Search.Undisturbed

/-!
# Alternatives with nothing left to do

A rule has nothing left to do at an alternative when the group knows all its results for all trees
there (`Memo.Saturated`). A rule that is applied in an undisturbed exploration leaves it at that
(`Planner.ensures_fire`), and so it stays as long as the groups that the pattern opens get no further
alternatives (`Memo.Saturated.mono`).
-/

namespace QueryPlanner

open Memo (SameContent)
open Planning (Keeps Post)

/-! ## The patterns of the transformations -/

/-- The patterns of the transformations, and those inside them that open groups. -/
inductive Pattern.Transforms : Pattern → Prop
  | tree : Transforms .tree
  | join : Transforms Rule.joinPattern
  | commutativity : Transforms Rule.joinCommutativity.pattern
  | associativity : Transforms Rule.joinAssociativity.pattern
  | pushdown : Transforms Rule.predicatePushdown.pattern

namespace Pattern.Transforms

variable {pattern below : Pattern}

/-- They take no physical alternatives. -/
theorem plain (h : pattern.Transforms) {op : Operator} {arity : Nat}
    (hadmits : pattern.admits op arity = true) : op.isPhysical = false := by
  have hjoin (hkind : op.kind = "InnerJoin") : op.isPhysical = false := by
    rw [Operator.eq_innerJoin hkind]
    rfl
  cases h with
  | tree => simpa [admits] using hadmits
  | join => exact hjoin (by simpa [OperatorTest.accepts] using (Bool.and_eq_true_iff.mp hadmits).1)
  | commutativity =>
      exact hjoin (by simpa [OperatorTest.accepts] using (Bool.and_eq_true_iff.mp hadmits).1)
  | associativity =>
      exact hjoin (by simpa [OperatorTest.accepts] using (Bool.and_eq_true_iff.mp hadmits).1)
  | pushdown =>
      have hkind : op.kind = "Select" := by
        simpa [OperatorTest.accepts] using (Bool.and_eq_true_iff.mp hadmits).1
      rw [Operator.eq_select hkind]
      rfl

theorem isLeaf (h : pattern.Transforms) : pattern.isLeaf = false := by
  cases h <;> rfl

/-- The groups they open are opened for patterns among them. -/
theorem child (h : pattern.Transforms) {position : Nat}
    (hasked : pattern.child? position = some below) (hopen : below.isLeaf = false) :
    below.Transforms := by
  have hinside {test : OperatorTest} {children : List Pattern}
      (hasked : (Pattern.node test children).child? position = some below)
      (hchildren : ∀ child ∈ children, child.isLeaf = false → child.Transforms) : below.Transforms :=
    hchildren below (mem_of_child? hasked) hopen
  cases h with
  | tree =>
      obtain rfl := Option.some.inj hasked
      exact .tree
  | join =>
      refine hinside hasked ?_
      simp [Pattern.isLeaf, tree]
  | commutativity =>
      refine hinside hasked ?_
      simp [Pattern.isLeaf]
  | associativity =>
      refine hinside hasked ?_
      simp [Pattern.isLeaf, tree, join]
  | pushdown =>
      refine hinside hasked ?_
      simp [tree, join]

end Pattern.Transforms

theorem standardRules_transforms : ∀ rule ∈ standardRules, rule.kind = .transformation →
    rule.pattern.Transforms := by
  intro rule hrule hkind
  simp only [standardRules, List.mem_cons, List.not_mem_nil, or_false] at hrule
  rcases hrule with rfl | rfl | rfl | rfl | rfl | rfl | rfl | rfl | rfl | rfl
  · exact .commutativity
  · exact .associativity
  · exact .pushdown
  all_goals exact absurd hkind (by decide)

namespace Memo

variable {memo memo' : Memo}

/-! ## Listed trees are bound -/

theorem mem_combine {trees : List BoundExpr} {lists : List (List BoundExpr)} {list : List BoundExpr} :
    list ∈ combine trees lists ↔ ∃ tree ∈ trees, ∃ rest ∈ lists, list = tree :: rest := by
  simp [combine, eq_comm]

mutual

/-- The trees at an alternative are bound to the pattern. -/
theorem TreesAt.binds (hwell : memo.WellFormed) : ∀ {pattern : Pattern} {id : ExprId} {trees : List BoundExpr},
    memo.TreesAt pattern id trees → ∀ {expr : MemoExpr}, memo.expr? id = some expr →
    ∀ bound ∈ trees, memo.Binds pattern (memo.master expr.group) bound
  | _, _, _, .refused _, _, _ => by simp
  | _, _, _, .admitted found admitted below, _, hexpr => by
      have hbelow := TreesBelow.binds hwell below
      obtain rfl := Option.some.inj (found.symm.trans hexpr)
      intro bound hbound
      obtain ⟨children, hchildren, rfl⟩ := List.mem_map.mp hbound
      exact .node found admitted (hbelow children hchildren)

theorem TreesAmong.binds (hwell : memo.WellFormed) {group : GroupId} : ∀ {pattern : Pattern} {ids : List ExprId}
    {trees : List BoundExpr}, memo.TreesAmong pattern ids trees →
    (∀ id ∈ ids, ∃ expr, memo.expr? id = some expr ∧ memo.master expr.group = group) →
    ∀ bound ∈ trees, memo.Binds pattern group bound
  | _, _, _, .nil, _ => by simp
  | _, _ :: _, _, .cons first rest, hids => by
      obtain ⟨⟨expr, hexpr, hgroup⟩, hrest⟩ := List.forall_mem_cons.mp hids
      have hfirst := TreesAt.binds hwell first hexpr
      rw [hgroup] at hfirst
      exact List.forall_mem_append.mpr ⟨hfirst, TreesAmong.binds hwell rest hrest⟩

theorem TreesIn.binds (hwell : memo.WellFormed) : ∀ {pattern : Pattern} {group : GroupId} {trees : List BoundExpr},
    memo.TreesIn pattern group trees → memo.master group = group →
    ∀ bound ∈ trees, memo.Binds pattern group bound
  | _, _, _, .leaf whole, _ => List.forall_mem_singleton.mpr (.leaf whole)
  | _, group, _, .expanded _ among, hmaster => by
      refine TreesAmong.binds hwell among fun id hid => ?_
      obtain ⟨_, expr, hexpr, howner⟩ := hwell.owned hid
      exact ⟨expr, hexpr, by rw [howner, hmaster]⟩

theorem TreesBelow.binds (hwell : memo.WellFormed) : ∀ {pattern : Pattern} {position : Nat} {children : List GroupId}
    {combinations : List (List BoundExpr)}, memo.TreesBelow pattern position children combinations →
    ∀ bounds ∈ combinations, memo.BindsAll pattern position children bounds
  | _, _, _, _, .nil => List.forall_mem_singleton.mpr .nil
  | _, _, _ :: _, _, .cons asked first rest => by
      have hfirst := TreesIn.binds hwell first (hwell.linksEnd.master_master _)
      have hrest := TreesBelow.binds hwell rest
      intro bounds hbounds
      obtain ⟨tree, htree, others, hothers, rfl⟩ := mem_combine.mp hbounds
      exact .cons asked (hfirst tree htree) (hrest others hothers)

end

/-! ## Saturation -/

/-- The group knows whatever the rule answers for the trees at the alternative. -/
def Saturated (memo : Memo) (rule : Rule) (group : GroupId) (id : ExprId) : Prop :=
  ∃ trees, memo.TreesAt rule.pattern id trees ∧
    ∀ bound ∈ trees, ∀ result ∈ rule.apply memo bound, memo.Knows group result

/-- Groups that are complete with everything below them are opened without change, if they get no
alternatives. -/
theorem Carries.of_unchanged {complete : GroupId → Prop} (hwell : memo.WellFormed)
    (hwidens : memo.Widens memo') (hmasters : ∀ id, memo'.master id = memo.master id)
    (hdown : ∀ upper, complete upper → ∀ lower, memo.LeadsDown upper lower → complete lower)
    (hunchanged : ∀ group, complete group → memo'.alternativesOf group = memo.alternativesOf group) :
    memo.Carries memo' fun pattern group => pattern.Transforms ∧ complete group where
  widens := hwidens
  masters := hmasters
  unchanged _ group h := hunchanged group h.2
  closed pattern group h id hid := by
    obtain ⟨_, expr, hexpr, _⟩ := hwell.owned hid
    refine ⟨Option.isSome_of_eq_some hexpr, ?_⟩
    rintro below lower ⟨found, hfound, hadmits, child, position, hchild, hasked, hopen, hmaster⟩
    exact ⟨h.1.child hasked hopen, hdown group h.2 lower ⟨id, hid, found, hfound, h.1.plain hadmits,
      child, List.mem_of_getElem? hchild, hmaster⟩⟩

section Later

variable {rule : Rule} {group : GroupId} {id : ExprId} {expr : MemoExpr} {complete : GroupId → Prop}
  (hcarries : memo.Carries memo' fun pattern group => pattern.Transforms ∧ complete group)
  (htransforms : rule.pattern.Transforms) (hexpr : memo.expr? id = some expr)
  (hbelow : ∀ child ∈ expr.children, complete (memo.master child))
include hcarries htransforms hexpr hbelow

/-- The trees at an alternative above complete groups stay. -/
theorem Carries.treesAt_rule {trees : List BoundExpr} (h : memo.TreesAt rule.pattern id trees) :
    memo'.TreesAt rule.pattern id trees := by
  refine hcarries.treesAt h (Option.isSome_of_eq_some hexpr) ?_
  rintro below lower ⟨found, hfound, _, child, position, hchild, hasked, hopen, rfl⟩
  obtain rfl := Option.some.inj (hexpr.symm.trans hfound)
  exact ⟨htransforms.child hasked hopen, hbelow child (List.mem_of_getElem? hchild)⟩

/-- A rule that has nothing left to do at an alternative above complete groups has nothing to do
later. -/
theorem Saturated.mono (h : memo.Saturated rule group id) (hstable : rule.IsStable)
    (hwell : memo.WellFormed) : memo'.Saturated rule group id := by
  obtain ⟨trees, htrees, hknows⟩ := h
  refine ⟨trees, hcarries.treesAt_rule htransforms hexpr hbelow htrees,
    fun bound hbound result hresult => ?_⟩
  rw [(hstable memo memo' _ bound hwell (htrees.binds hwell hexpr bound hbound) hcarries.widens).1]
    at hresult
  exact (hknows bound hbound result hresult).mono hcarries.widens hcarries.masters

end Later

end Memo

/-! ## Applying a rule -/

namespace SearchState

variable {state middle final : SearchState} {group : GroupId} {found found' : Bool}

/-- Only one group got alternatives, and if nothing new was found, not even this one. -/
structure Feeds (state : SearchState) (group : GroupId) (found : Bool) (final : SearchState) :
    Prop where
  visited : final.visited = state.visited
  applied : ∀ id, final.memo.applied id = state.memo.applied id
  unchanged : ∀ id : GroupId, id.index < state.memo.groups.size → id ≠ group ∨ found = false →
    final.memo.alternativesOf id = state.memo.alternativesOf id

protected theorem Feeds.refl (state : SearchState) : state.Feeds group found state :=
  ⟨rfl, fun _ => rfl, fun _ _ _ => rfl⟩

protected theorem Feeds.trans (h : state.Feeds group found middle)
    (h' : middle.Feeds group found' final) (hproceeds : state.Proceeds middle) :
    state.Feeds group (found || found') final where
  visited := h'.visited.trans h.visited
  applied id := (h'.applied id).trans (h.applied id)
  unchanged id hid hother := by
    rw [Bool.or_eq_false_iff] at hother
    rw [h'.unchanged id (hid.trans_le hproceeds.widens.groups_size) (hother.imp_right And.right),
      h.unchanged id hid (hother.imp_right And.left)]

end SearchState

namespace Planner

variable {planner : Planner} {limits : StageLimits} {state middle : SearchState} {rule : Rule}
  {source : ExprId} {group : GroupId} {β : Type}

/-- What a computation ensures after a step that is known. -/
theorem Ensures.after {action : Searching β} {post : β → SearchState → Prop}
    (hends : state.memo.LinksEnd) (hfirst : state.Proceeds middle)
    (h : planner.Ensures limits middle action post) :
    Post action middle (fun value final => state.Proceeds final ∧
        (planner.Undisturbed limits state final → post value final))
      (fun _ final => state.Proceeds final) :=
  Post.mono h (fun _ _ hfinal => ⟨hfirst.trans hfinal.1, fun hall =>
    hfinal.2 (hall.split hends hfirst hfinal.1).2⟩) fun _ _ hfail => hfirst.trans hfail

theorem proceeds_insertResult {origin : Origin} {result : RuleResult}
    (hplain : result.op.isEnforcer = false) :
    Keeps SearchState.Proceeds (Searching.onMemo (Planning.insertResult group origin result)) :=
  Searching.keeps_onMemo fun _ => Planning.keeps_insertResult hplain

/-- A result is known after it was inserted. -/
theorem ensures_insertResult {origin : Origin} {result : RuleResult}
    (hattainable : state.memo.Attainable) (hknown : group.index < state.memo.groups.size)
    (hmaster : state.memo.master group = group) (hfits : result.Fits state.memo) :
    planner.Ensures limits state (Searching.onMemo (Planning.insertResult group origin result))
      fun outcome final => final.memo.Knows group result ∧ state.Feeds group outcome.isNew final := by
  refine Searching.post_onMemo ((Planning.Post.insertResult_settles hattainable hknown hfits).mono ?_
    fun _ _ hfail => hfail.elim)
  rintro outcome memo ⟨haccrues, hsettles⟩
  refine ⟨SearchState.Proceeds.withMemo haccrues, fun hquiet => ?_⟩
  have hsettled := hsettles hquiet.masters
  exact ⟨hsettled.knows, rfl, haccrues.applied, fun id hid hother =>
    hsettled.unchanged id hid (hmaster.symm ▸ hother)⟩

/-- All results for a tree are known after the rule was applied to it. -/
theorem ensures_applyRule {bound : BoundExpr} (hplain : rule.IsPlain)
    (hattainable : state.memo.Attainable) (hknown : group.index < state.memo.groups.size)
    (hmaster : state.memo.master group = group)
    (hfits : ∀ result ∈ rule.apply state.memo bound, result.Fits state.memo) :
    planner.Ensures limits state (planner.applyRule rule source group bound) fun found final =>
      (∀ result ∈ rule.apply state.memo bound, final.memo.Knows group result) ∧
        state.Feeds group found final := by
  have hends := hattainable.inOrder.1.linksEnd
  unfold applyRule
  refine Post.bind (Searching.post_onMemo (Post.checkAbort (fun _ => ?_) fun _ => .refl state))
  refine Post.bind (Post.modify ?_)
  have hcounted : state.Proceeds { state with iterations := state.iterations + 1 } :=
    Searching.Filling.counted state
  refine (Ensures.getThen ?_).after hends hcounted
  refine Ensures.foldlM (fun seen found current => (∀ result ∈ seen, current.memo.Knows group result) ∧
      state.Feeds group found current) [] hattainable ⟨by simp, ⟨rfl, fun _ => rfl, fun _ _ _ => rfl⟩⟩
    (fun found result hresult => Keeps.bind (proceeds_insertResult (hplain _ _ result hresult))
      fun _ => Keeps.pure) fun seen found result hresult current hcurrent hsame hinv => ?_
  have hnow := hcounted.trans hcurrent
  have hcurrentAttainable := hcurrent.attainable hattainable
  refine Ensures.bind hcurrentAttainable.inOrder.1.linksEnd (ensures_insertResult hcurrentAttainable
    (hknown.trans_le hnow.widens.groups_size) ((hsame group).trans hmaster)
    ((hfits result hresult).mono hnow.widens.groups_size)) (fun _ => Keeps.pure)
    fun outcome middle hmiddle hquiet hinserted => ?_
  refine Ensures.pure ⟨List.forall_mem_append.mpr ⟨fun other hother => ?_, ?_⟩,
    hinv.2.trans hinserted.2 hnow⟩
  · exact (hinv.1 other hother).mono hmiddle.widens hquiet.masters
  · exact List.forall_mem_singleton.mpr hinserted.1

/-- The trees at an alternative are listed if no group comes below itself. -/
theorem ensures_bindExpr (htransforms : rule.pattern.Transforms)
    (hattainable : state.memo.Attainable) :
    planner.Ensures limits state (Searching.onMemo (Planning.bindExpr rule.pattern source none))
      fun trees listed => ∃ memo, state.memo.Observes memo ∧ listed = state.withMemo memo ∧
        memo.TreesAt rule.pattern source trees := by
  have hends := hattainable.inOrder.1.linksEnd
  have hlists : Post (Planning.bindExpr rule.pattern source none) state.memo
      (fun trees _ => state.memo.Acyclic → state.memo.TreesAt rule.pattern source trees)
      fun _ _ => True := by
    by_cases hacyclic : state.memo.Acyclic
    · obtain ⟨trees, htrees, hcount⟩ := Memo.exists_enumerates hattainable.housed
        (List.nodup_singleton source) htransforms.isLeaf fun _ _ _ group _ _ => hacyclic group
      refine Post.bind (Post.expr (fun _ _ => ?_) fun _ => trivial)
      refine (htrees.post_bindAmong hcount none).mono (fun answer _ hanswer _ => ?_) fun _ _ _ => trivial
      obtain rfl : answer = trees := hanswer
      exact htrees.listed.treesAt_of_singleton
    · exact Post.of_exec (fun _ _ _ h => absurd h hacyclic) fun _ _ _ => trivial
  refine (Ensures.glance observes_bindExpr hlists).mono ?_
  rintro trees _ hproceeds hquiet ⟨memo, hobserves, rfl, htrees⟩
  exact ⟨memo, hobserves, rfl,
    (htrees (hquiet.acyclic.of_widens hproceeds.widens hquiet.masters)).congr hobserves.same hends⟩

/-- A rule that was applied to an alternative has nothing left to do there, if the groups below the
alternative are complete. -/
theorem ensures_fire {expr : MemoExpr} (complete : GroupId → Prop) (hplain : rule.IsPlain)
    (hstable : rule.IsStable) (htransforms : rule.pattern.Transforms)
    (hattainable : state.memo.Attainable) (hknown : group.index < state.memo.groups.size)
    (hmaster : state.memo.master group = group) (hexpr : state.memo.expr? source = some expr)
    (hbelow : ∀ child ∈ expr.children, complete (state.memo.master child))
    (hdown : state.memo.ScalarsAreLeaves → ∀ upper, complete upper → ∀ lower,
      state.memo.LeadsDown upper lower → complete lower)
    (hcomplete : ∀ id, complete id → id.index < state.memo.groups.size ∧ id ≠ group) :
    planner.Ensures limits state (planner.fire rule source group) fun found final =>
      final.memo.Saturated rule group source ∧ state.Feeds group found final := by
  have hends := hattainable.inOrder.1.linksEnd
  unfold fire
  refine Ensures.bind hends (ensures_bindExpr htransforms hattainable)
    (fun _ => Keeps.foldlM fun _ _ _ => Keeps.bind (keeps_applyRule hplain fun _ => inferInstance)
      fun _ => Keeps.pure) ?_
  rintro trees _ hlisted hlistedQuiet ⟨memo, hobserves, rfl, htrees⟩
  have hattainable := hlisted.attainable hattainable
  have hwell := hattainable.inOrder.1
  obtain ⟨expr', hexpr', hcontent⟩ := hobserves.same.exists_expr hexpr
  have hchildren : expr'.children = expr.children := congrArg (·.children) hcontent
  have hstays := hobserves.same.master hends
  -- the rule answers the same in a wider memo, and what it builds fits there
  have hanswers {bound : BoundExpr} (hbound : bound ∈ trees) {later : Memo}
      (hwidens : memo.Widens later) := hstable memo later _ bound hwell
    (htrees.binds hwell hexpr' bound hbound) hwidens
  refine (Ensures.foldlM (fun seen found current =>
      (∀ bound ∈ seen, ∀ result ∈ rule.apply memo bound, current.memo.Knows group result) ∧
        state.Feeds group found current) [] hattainable
    ⟨by simp, rfl, hobserves.applied, fun id _ _ => hobserves.same.alternativesOf id⟩
    (fun _ _ _ => Keeps.bind (keeps_applyRule hplain fun _ => inferInstance) fun _ => Keeps.pure)
    fun seen found bound hbound current hcurrent hsame hinv => ?_).mono
      fun found final hfinal hquiet hinv => ⟨⟨trees, ?_, fun bound hbound result hresult => ?_⟩, hinv.2⟩
  · have hnow := hlisted.trans hcurrent
    have hcurrentAttainable := hcurrent.attainable hattainable
    obtain ⟨happly, hbuilt⟩ := hanswers hbound hcurrent.widens
    refine Ensures.bind hcurrentAttainable.inOrder.1.linksEnd (ensures_applyRule hplain
      hcurrentAttainable (hknown.trans_le hnow.widens.groups_size)
      ((hsame group).trans ((hstays group).trans hmaster)) fun result hresult =>
        (hbuilt result (happly ▸ hresult)).fits.mono hcurrent.widens.groups_size)
      (fun _ => Keeps.pure) fun found' middle hmiddle hquiet happlied => ?_
    refine Ensures.pure ⟨List.forall_mem_append.mpr ⟨fun other hother result hresult => ?_, ?_⟩,
      hinv.2.trans happlied.2 hnow⟩
    · exact (hinv.1 other hother result hresult).mono hmiddle.widens hquiet.masters
    · rw [happly] at happlied
      exact List.forall_mem_singleton.mpr happlied.1
  -- the groups below are complete, so the trees at the source stay the same
  · have hleaves := hquiet.leaves.of_widens (hlisted.trans hfinal).widens
    have hcarries : memo.Carries final.memo _ := Memo.Carries.of_unchanged hwell hfinal.widens hquiet.masters
      (fun upper hupper lower hstep => hdown hleaves upper hupper lower
        (hstep.before hobserves.same hends))
      fun id hid => (hinv.2.unchanged id (hcomplete id hid).1 (.inl (hcomplete id hid).2)).trans
        (hobserves.same.alternativesOf id).symm
    refine hcarries.treesAt_rule htransforms hexpr' (fun child hchild => ?_) htrees
    rw [hstays]
    exact hbelow child (hchildren ▸ hchild)
  · rw [(hanswers hbound hfinal.widens).1] at hresult
    exact hinv.1 bound hbound result hresult

end Planner

end QueryPlanner
