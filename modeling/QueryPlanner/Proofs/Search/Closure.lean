import QueryPlanner.Proofs.Search.Saturation

/-!
# Explorations complete the groups they visit

A group is complete when its exploration has ended. In an undisturbed exploration all rules were
applied to the alternatives of a complete group, the groups below it are complete as well, and no
alternatives are added to it any more (`SearchState.Exploring`). So the rules have nothing left to do
at any alternative below an explored group (`Planner.ensures_exploreGroup`).
-/

namespace QueryPlanner

open Memo (SameContent)
open Planning (Keeps Post)

/-- Logical operators are not physical. -/
theorem Operator.isPhysical_of_isLogical {op : Operator} (h : op.isLogical = true) :
    op.isPhysical = false := by
  cases op with
  | logical _ => rfl
  | physical _ | scalar _ => simp [isLogical, logical?] at h

/-- Rules that transform joins and selections. They are told apart by their names. -/
structure Transformations (rules : List Rule) : Prop where
  plain : ∀ rule ∈ rules, rule.IsPlain
  stable : ∀ rule ∈ rules, rule.IsStable
  transforms : ∀ rule ∈ rules, rule.pattern.Transforms
  distinct : ∀ rule ∈ rules, ∀ other ∈ rules, other.name = rule.name → other = rule

/-- The transformations among the standard rules. -/
theorem standardRules_transformations :
    Transformations (standardRules.filter (·.kind == .transformation)) := by
  have hmem {rule : Rule} (hrule : rule ∈ standardRules.filter (·.kind == .transformation)) :
      rule ∈ standardRules ∧ rule.kind = .transformation := by simpa using hrule
  refine ⟨fun rule hrule => standardRules_isPlain rule (hmem hrule).1,
    fun rule hrule => standardRules_isStable rule (hmem hrule).1 (hmem hrule).2,
    fun rule hrule => standardRules_transforms rule (hmem hrule).1 (hmem hrule).2,
    fun rule hrule other hother hname => ?_⟩
  have hnames : (standardRules.map (·.name)).Nodup := by decide
  exact List.inj_on_of_nodup_map hnames (hmem hother).1 (hmem hrule).1 hname

namespace SearchState

variable {state middle final : SearchState} {rules : List Rule} {opened : List GroupId}
  {group other : GroupId} {id : ExprId}

/-- The exploration of the group has ended. The exploration of opened groups goes on. -/
def Complete (state : SearchState) (opened : List GroupId) (group : GroupId) : Prop :=
  group ∈ state.visited ∧ group ∉ opened

/-- All rules were applied to the alternative if it is logical, and the groups below it are
complete. -/
def Finished (state : SearchState) (rules : List Rule) (opened : List GroupId) (id : ExprId) : Prop :=
  ∀ expr, state.memo.expr? id = some expr → expr.op.isLogical = true →
    (∀ rule ∈ rules, rule.name ∈ state.memo.applied id) ∧
      ∀ child ∈ expr.children, state.Complete opened (state.memo.master child)

/-- An exploration in which some groups are opened. Wherever a rule was applied, it has nothing left
to do. -/
structure Exploring (rules : List Rule) (opened : List GroupId) (state : SearchState) : Prop where
  attainable : state.memo.Attainable
  known : ∀ group ∈ state.visited, group.index < state.memo.groups.size
  within : opened ⊆ state.visited
  sound : ∀ id expr, state.memo.expr? id = some expr → ∀ rule ∈ rules,
    rule.name ∈ state.memo.applied id → state.memo.Saturated rule expr.group id ∧
      ∀ child ∈ expr.children, state.Complete opened (state.memo.master child)
  complete : ∀ group, state.Complete opened group → ∀ id ∈ state.memo.alternativesOf group,
    state.Finished rules opened id

/-- Of the groups visited before, only those that were fed got alternatives. -/
def Extends (state : SearchState) (fed : GroupId → Prop) (final : SearchState) : Prop :=
  ∀ id ∈ state.visited, ¬ fed id → final.memo.alternativesOf id = state.memo.alternativesOf id

namespace Extends

variable {fed fed' : GroupId → Prop}

protected theorem refl (state : SearchState) : state.Extends fed state := fun _ _ _ => rfl

protected theorem trans (h : state.Extends fed middle) (h' : middle.Extends fed final)
    (hproceeds : state.Proceeds middle) : state.Extends fed final := fun id hid hother =>
  (h' id (hproceeds.visited.subset hid) hother).trans (h id hid hother)

theorem mono (h : state.Extends fed final) (hfed : ∀ id, fed id → fed' id) :
    state.Extends fed' final := fun id hid hother => h id hid fun hid => hother (hfed id hid)

end Extends

/-- What was done to an alternative stays done. -/
theorem Finished.mono (h : state.Finished rules opened id) (hproceeds : state.Proceeds final)
    (hmasters : ∀ id, final.memo.master id = state.memo.master id)
    (hknown : (state.memo.expr? id).isSome) : final.Finished rules opened id := by
  intro expr' hexpr' hlogical
  obtain ⟨expr, hexpr⟩ := Option.isSome_iff_exists.mp hknown
  obtain ⟨hop, hchildren, _⟩ := hproceeds.widens.exprs_of hexpr hexpr'
  obtain ⟨happlied, hbelow⟩ := h expr hexpr (hop ▸ hlogical)
  refine ⟨fun rule hrule => (hproceeds.applied id).subset (happlied rule hrule), fun child hchild => ?_⟩
  obtain ⟨hvisited, hclosed⟩ := hbelow child (hchildren ▸ hchild)
  rw [hmasters]
  exact ⟨hproceeds.visited.subset hvisited, hclosed⟩

namespace Exploring

variable (h : state.Exploring rules opened)
include h

/-- Groups below complete ones are complete. -/
theorem down (hleaves : state.memo.ScalarsAreLeaves) {upper lower : GroupId}
    (hupper : state.Complete opened upper) (hstep : state.memo.LeadsDown upper lower) :
    state.Complete opened lower := by
  obtain ⟨id, hid, expr, hexpr, hphysical, child, hchild, rfl⟩ := hstep
  cases hop : expr.op with
  | logical op => exact (h.complete upper hupper id hid expr hexpr (by rw [hop]; rfl)).2 child hchild
  | scalar op =>
      rw [hleaves id expr hexpr (by rw [hop]; rfl)] at hchild
      exact absurd hchild List.not_mem_nil
  | physical op => simp [hop, Operator.isPhysical, Operator.physical?] at hphysical

/-- The search goes on without visits, and complete groups get nothing. -/
theorem step (hrules : Transformations rules) (hproceeds : state.Proceeds final)
    (hmasters : ∀ id, final.memo.master id = state.memo.master id)
    (hleaves : state.memo.ScalarsAreLeaves) (hvisited : final.visited = state.visited)
    (hunchanged : ∀ group, state.Complete opened group →
      final.memo.alternativesOf group = state.memo.alternativesOf group)
    (happlied : ∀ id expr, final.memo.expr? id = some expr → ∀ rule ∈ rules,
      rule.name ∈ final.memo.applied id → rule.name ∈ state.memo.applied id ∨
        final.memo.Saturated rule expr.group id ∧
          ∀ child ∈ expr.children, final.Complete opened (final.memo.master child)) :
    final.Exploring rules opened where
  attainable := hproceeds.attainable h.attainable
  known group hgroup := (h.known group (hvisited ▸ hgroup)).trans_le hproceeds.widens.groups_size
  within := hvisited ▸ h.within
  sound id expr' hexpr' rule hrule hname := by
    obtain hbefore | hnow := happlied id expr' hexpr' rule hrule hname
    · cases hexpr : state.memo.expr? id with
      | none => simp [Memo.applied, hexpr] at hbefore
      | some expr =>
          obtain ⟨_, hchildren, hgroup⟩ := hproceeds.widens.exprs_of hexpr hexpr'
          obtain ⟨hsaturated, hbelow⟩ := h.sound id expr hexpr rule hrule hbefore
          have hwell := h.attainable.inOrder.1
          have hcarries := Memo.Carries.of_unchanged hwell hproceeds.widens hmasters
            (fun _ hupper _ => h.down hleaves hupper) hunchanged
          rw [hgroup, hchildren]
          refine ⟨hsaturated.mono hcarries (hrules.transforms rule hrule) hexpr hbelow
            (hrules.stable rule hrule) hwell, fun child hchild => ?_⟩
          rw [hmasters]
          exact ⟨hvisited ▸ (hbelow child hchild).1, (hbelow child hchild).2⟩
    · exact hnow
  complete group hgroup id hid := by
    have hbefore : state.Complete opened group := ⟨hvisited ▸ hgroup.1, hgroup.2⟩
    rw [hunchanged group hbefore] at hid
    obtain ⟨_, expr, hexpr, _⟩ := h.attainable.inOrder.1.owned hid
    exact (h.complete group hbefore id hid).mono hproceeds hmasters (Option.isSome_of_eq_some hexpr)

omit h in
/-- Looking around changes nothing. -/
theorem observed (h : state.Exploring rules opened) (hrules : Transformations rules) {memo : Memo}
    (hobserves : state.memo.Observes memo) : (state.withMemo memo).Exploring rules opened := by
  have hwell := h.attainable.inOrder.1
  have hsame := hobserves.same
  have hmasters := hsame.master hwell.linksEnd
  have hproceeds : state.Proceeds (state.withMemo memo) := .withMemo (.of_observes hobserves)
  have hcarries : state.memo.Carries memo _ := Memo.Carries.of_unchanged hwell
    (.of_sameContent hsame) hmasters (fun _ _ _ _ => trivial) fun group _ => hsame.alternativesOf group
  refine ⟨h.attainable.look hsame, fun group hgroup => hsame.groups_size ▸ h.known group hgroup,
    h.within, fun id expr' hexpr' rule hrule hname => ?_, fun group hgroup id hid => ?_⟩
  · obtain ⟨expr, hexpr, hcontent⟩ := hsame.exists_expr_before hexpr'
    obtain ⟨_, hchildren, hgroup⟩ := hproceeds.widens.exprs_of hexpr hexpr'
    obtain ⟨hsaturated, hbelow⟩ :=
      h.sound id expr hexpr rule hrule (by rwa [← hobserves.applied id])
    rw [hgroup, hchildren]
    refine ⟨hsaturated.mono hcarries (hrules.transforms rule hrule) hexpr (fun _ _ => trivial)
      (hrules.stable rule hrule) hwell, fun child hchild => ?_⟩
    show state.Complete opened (memo.master child)
    rw [hmasters]
    exact hbelow child hchild
  · have hid : id ∈ state.memo.alternativesOf group := by rwa [← hsame.alternativesOf group]
    obtain ⟨_, expr, hexpr, _⟩ := hwell.owned hid
    exact (h.complete group hgroup id hid).mono hproceeds hmasters (Option.isSome_of_eq_some hexpr)

/-- A group that is visited for the first time is opened. -/
theorem enter (hgroup : group.index < state.memo.groups.size) (hnew : group ∉ state.visited) :
    ({ state with visited := group :: state.visited } : SearchState).Exploring rules
      (group :: opened) := by
  have hcomplete (id : GroupId) :
      ({ state with visited := group :: state.visited } : SearchState).Complete (group :: opened) id ↔
        state.Complete opened id := by
    simp only [Complete, List.mem_cons, not_or]
    constructor
    · rintro ⟨rfl | hid, hother, hclosed⟩
      · exact absurd rfl hother
      · exact ⟨hid, hclosed⟩
    · rintro ⟨hid, hclosed⟩
      exact ⟨.inr hid, fun hsame => hnew (hsame ▸ hid), hclosed⟩
  refine ⟨h.attainable, List.forall_mem_cons.mpr ⟨hgroup, h.known⟩,
    List.cons_subset_cons group h.within, fun id expr hexpr rule hrule hname => ?_,
    fun other hother id hid expr hexpr hlogical => ?_⟩
  · obtain ⟨hsaturated, hbelow⟩ := h.sound id expr hexpr rule hrule hname
    exact ⟨hsaturated, fun child hchild => (hcomplete _).mpr (hbelow child hchild)⟩
  · obtain ⟨happlied, hbelow⟩ :=
      h.complete other ((hcomplete other).mp hother) id hid expr hexpr hlogical
    exact ⟨happlied, fun child hchild => (hcomplete _).mpr (hbelow child hchild)⟩

end Exploring

/-- What is complete while a group is opened stays complete when the group is left. -/
theorem Complete.leave (h : state.Complete (group :: opened) other) : state.Complete opened other :=
  ⟨h.1, fun hid => h.2 (List.mem_cons_of_mem _ hid)⟩

/-- A group is left when all was done to its alternatives. -/
theorem Exploring.leave (h : state.Exploring rules (group :: opened))
    (hfinished : ∀ id ∈ state.memo.alternativesOf group, state.Finished rules (group :: opened) id) :
    state.Exploring rules opened where
  attainable := h.attainable
  known := h.known
  within := fun id hid => h.within (List.mem_cons_of_mem _ hid)
  sound id expr hexpr rule hrule hname :=
    have ⟨hsaturated, hbelow⟩ := h.sound id expr hexpr rule hrule hname
    ⟨hsaturated, fun child hchild => (hbelow child hchild).leave⟩
  complete other hother id hid expr hexpr hlogical := by
    have hdone : state.Finished rules (group :: opened) id := by
      by_cases hsame : other = group
      · exact hfinished id (hsame ▸ hid)
      · exact h.complete other ⟨hother.1, by simp [hsame, hother.2]⟩ id hid
    obtain ⟨happlied, hbelow⟩ := hdone expr hexpr hlogical
    exact ⟨happlied, fun child hchild => (hbelow child hchild).leave⟩

/-- The groups below an alternative of an opened group are complete. -/
structure Prepared (opened : List GroupId) (group : GroupId) (id : ExprId) (state : SearchState) :
    Prop where
  isOpen : group ∈ opened
  master : state.memo.master group = group
  listed : id ∈ state.memo.alternativesOf group
  below : ∀ expr, state.memo.expr? id = some expr →
    ∀ child ∈ expr.children, state.Complete opened (state.memo.master child)

theorem Prepared.mono (h : state.Prepared opened group id) (hproceeds : state.Proceeds final)
    (hmasters : ∀ id, final.memo.master id = state.memo.master id) (hwell : state.memo.WellFormed) :
    final.Prepared opened group id where
  isOpen := h.isOpen
  master := (hmasters group).trans h.master
  listed := (hproceeds.widens.alternatives group).subset h.listed
  below expr' hexpr' child hchild := by
    obtain ⟨_, expr, hexpr, _⟩ := hwell.owned h.listed
    obtain ⟨_, hchildren, _⟩ := hproceeds.widens.exprs_of hexpr hexpr'
    have hbefore := h.below expr hexpr child (hchildren ▸ hchild)
    rw [hmasters]
    exact ⟨hproceeds.visited.subset hbefore.1, hbefore.2⟩

end SearchState

/-! ## Passes over a group -/

namespace Planner

open Searching

variable {planner : Planner} {limits : StageLimits} {rules : List Rule} {opened outer : List GroupId}
  {state : SearchState} {group : GroupId} {source : ExprId}

/-- What is ensured after looking around. -/
theorem Ensures.look {α β : Type} {action : Planning α} {next : α → Searching β}
    {post : β → SearchState → Prop} (found : α → Prop) (hends : state.memo.LinksEnd)
    (hobserves : Keeps Memo.Observes action)
    (hfound : Post action state.memo (fun value _ => found value) fun _ _ => True)
    (h : ∀ value memo, state.memo.Observes memo → found value →
      planner.Ensures limits (state.withMemo memo) (next value) post) :
    planner.Ensures limits state (onMemo action >>= next) post := by
  have hlooked : Post (onMemo action) state
      (fun value final => ∃ memo, state.memo.Observes memo ∧ final = state.withMemo memo ∧ found value)
      fun _ final => state.Proceeds final :=
    post_onMemo (((hobserves state.memo).both hfound).mono
      (fun _ memo hmemo => ⟨memo, hmemo.1, rfl, hmemo.2⟩) fun _ _ hfail => .withMemo (.of_observes hfail.1))
  refine hlooked.andThen (fun _ _ hfail => hfail) ?_
  rintro value _ ⟨memo, hmemo, rfl, hvalue⟩
  exact (h value memo hmemo hvalue).after hends (.withMemo (.of_observes hmemo))

theorem ensures_setPhase {phase : Phase} :
    planner.Ensures limits state (setPhase group phase) fun _ final =>
      ∃ memo, state.memo.Observes memo ∧ final = state.withMemo memo := by
  have hobserves : state.memo.Observes (state.memo.modifyGroup group fun found =>
      { found with phase }) :=
    .modifyGroup (Memo.sameContent_modifyGroup (fun _ => rfl) fun _ => rfl)
  exact post_onMemo (Post.modify ⟨.withMemo (.of_observes hobserves), fun _ => ⟨_, hobserves, rfl⟩⟩)

/-- A rule that is started on an alternative above complete groups has nothing left to do there
afterwards. -/
theorem ensures_start {rule : Rule} (hrules : Transformations rules) (hrule : rule ∈ rules)
    (hexploring : state.Exploring rules opened) (hprepared : state.Prepared opened group source)
    (hstarted : state.Proceeds (state.started source rule)) :
    planner.Ensures limits (state.started source rule) (planner.fire rule source group)
      fun found final => final.Exploring rules opened ∧ rule.name ∈ final.memo.applied source ∧
        state.Extends (fun id => id = group ∧ found = true) final := by
  have hwell := hexploring.attainable.inOrder.1
  have hsame : SameContent state.memo (state.started source rule).memo :=
    SearchState.sameContent_started
  have hmasters := hsame.master hwell.linksEnd
  have hgroups := hsame.groups_size
  obtain ⟨hknown, expr, hexpr, howner⟩ := hwell.owned hprepared.listed
  obtain ⟨expr', hexpr', hcontent⟩ := hsame.exists_expr hexpr
  have hready := hprepared.mono hstarted hmasters hwell
  have hcomplete (id : GroupId) (hid : state.Complete opened id) :
      id.index < (state.started source rule).memo.groups.size ∧ id ≠ group :=
    ⟨hgroups ▸ hexploring.known id hid.1, fun hsame => hid.2 (hsame ▸ hprepared.isOpen)⟩
  have happlied (id : ExprId) : (state.started source rule).memo.applied id =
      if id = source then rule.name :: state.memo.applied id else state.memo.applied id :=
    SearchState.applied_started (Option.isSome_of_eq_some hexpr) id
  refine (ensures_fire (state.Complete opened) (hrules.plain rule hrule)
    (hrules.stable rule hrule) (hrules.transforms rule hrule) (hexploring.attainable.look hsame)
    (hgroups ▸ hknown) hready.master hexpr' (hready.below expr' hexpr')
    (fun hleaves upper hupper lower hstep => ?_) hcomplete).mono ?_
  · exact hexploring.down (hleaves.of_widens hstarted.widens) hupper
      (hstep.before hsame hwell.linksEnd)
  · rintro found final hfinal hquiet ⟨hsaturated, hfeeds⟩
    have hproceeds := hstarted.trans hfinal
    have hsettled (id : GroupId) : final.memo.master id = state.memo.master id :=
      (hquiet.masters id).trans (hmasters id)
    -- only the opened group may get alternatives, and only if the rule found some
    have hunchanged (id : GroupId) (hid : id ∈ state.visited) (hother : id ≠ group ∨ found = false) :
        final.memo.alternativesOf id = state.memo.alternativesOf id :=
      (hfeeds.unchanged id (hgroups ▸ hexploring.known id hid) hother).trans (hsame.alternativesOf id)
    have hdone := hprepared.mono hproceeds hsettled hwell
    refine ⟨hexploring.step hrules hproceeds hsettled (hquiet.leaves.of_widens hproceeds.widens)
      hfeeds.visited (fun id hid => hunchanged id hid.1 (.inl (hcomplete id hid).2)) ?_, ?_,
      fun id hid hother => hunchanged id hid ?_⟩
    -- the marks grew by that of the rule on the source, which has nothing left to do there
    · intro id found hfound other hother hname
      rw [hfeeds.applied, happlied] at hname
      split at hname
      · rename_i hsource
        obtain hname | hname := List.mem_cons.mp hname
        · subst hsource
          obtain rfl := hrules.distinct rule hrule other hother hname
          obtain ⟨_, _, hgroup⟩ := hproceeds.widens.exprs_of hexpr hfound
          exact .inr ⟨hgroup ▸ howner ▸ hsaturated, fun child hchild =>
            ⟨hfeeds.visited ▸ (hdone.below found hfound child hchild).1,
              (hdone.below found hfound child hchild).2⟩⟩
        · exact .inl hname
      · exact .inl hname
    · rw [hfeeds.applied, happlied, if_pos rfl]
      exact List.mem_cons_self
    · simpa only [not_and_or, Bool.not_eq_true] using hother

/-- What a pass over an opened group ensures, and every part of it. -/
structure Passed (rules : List Rule) (opened : List GroupId) (group : GroupId) (progressed : Bool)
    (state : SearchState) (outcome : PassOutcome) (final : SearchState) : Prop where
  exploring : final.Exploring rules opened
  lasted : outcome ≠ .stopped
  found : outcome = .settled → progressed = false
  grown : state.Extends (fun id => id = group ∧ outcome ≠ .settled) final

theorem Passed.stay {progressed : Bool} (hexploring : state.Exploring rules opened) :
    Passed rules opened group progressed state (if progressed then .progressed else .settled) state where
  exploring := hexploring
  lasted := by cases progressed <;> simp
  found := by cases progressed <;> simp
  grown := .refl state

/-- Starting rules on an alternative above complete groups. -/
theorem ensures_transform (hrules : Transformations rules) {rest : List Rule} (hrest : rest ⊆ rules)
    {progressed : Bool} (hexploring : state.Exploring rules opened)
    (hprepared : state.Prepared opened group source) :
    planner.Ensures limits state (planner.transform limits source group rest progressed)
      fun outcome final => Passed rules opened group progressed state outcome final ∧
        ∀ rule ∈ rest, rule.name ∈ final.memo.applied source := by
  induction rest generalizing state progressed with
  | nil => exact Ensures.pure ⟨.stay hexploring, by simp⟩
  | cons rule rest ih =>
      have hwell := hexploring.attainable.inOrder.1
      obtain ⟨hrule, hrest⟩ := List.cons_subset.mp hrest
      unfold transform
      refine post_wasApplied.andThen (fun _ _ hfail => hfail.1 ▸ .refl _) ?_
      rintro _ _ ⟨rfl, hknown, rfl⟩
      split
      -- the rule ran here before, and its mark stays
      · rename_i hbefore
        refine (ih hrest hexploring hprepared).mono fun outcome final hproceeds _ hfinal =>
          ⟨hfinal.1, List.forall_mem_cons.mpr ⟨?_, hfinal.2⟩⟩
        exact (hproceeds.applied source).subset (by simpa using hbefore)
      · rename_i hnew
        refine Post.bind (Post.get ?_)
        split
        · rename_i hmay
          have hstarted := Searching.Stepping.started (R := SearchState.Proceeds) _ source rule hknown
            (by simpa using hnew)
          refine Post.bind (post_onMemo (Post.modify (Post.bind (Post.modify ?_))))
          refine (Ensures.bind (hstarted.rises hwell.linksEnd).1
            (ensures_start hrules hrule hexploring hprepared hstarted) (fun found =>
              keeps_transform fun other hother => fires_proceeds (hrules.plain other (hrest hother)))
            ?_).after hwell.linksEnd hstarted
          rintro found middle hmiddle hquiet ⟨hexploring, hmarked, hextends⟩
          have hproceeds := hstarted.trans hmiddle
          have hmasters (id : GroupId) : middle.memo.master id = _ := (hquiet.masters id).trans
            (SearchState.sameContent_started.master hwell.linksEnd id)
          refine (ih hrest hexploring (hprepared.mono hproceeds hmasters hwell)).mono ?_
          rintro outcome final hfinal - ⟨hpassed, happlied⟩
          have hfound (h : outcome = .settled) := Bool.or_eq_false_iff.mp (hpassed.found h)
          refine ⟨⟨hpassed.exploring, hpassed.lasted, fun h => (hfound h).1,
            (hextends.mono fun id hid => ⟨hid.1, fun h => ?_⟩).trans hpassed.grown hproceeds⟩,
            List.forall_mem_cons.mpr ⟨(hfinal.applied source).subset hmarked, happlied⟩⟩
          exact absurd hid.2 (by simp [(hfound h).2])
        · rename_i hspent
          -- a quiet run never gets here: its budget suffices for every rule
          exact Post.pure ⟨.refl _, fun hquiet => absurd hquiet.budget hspent⟩

/-- Exploring a group below the opened ones completes it. -/
def Completes (planner : Planner) (limits : StageLimits) (rules : List Rule) (opened : List GroupId)
    (explore : GroupId → Searching Unit) : Prop :=
  ∀ state id, state.Exploring rules opened →
    (∀ upper ∈ opened, Relation.TransGen state.memo.LeadsDown upper (state.memo.master id)) →
    planner.Ensures limits state (explore id) fun _ final => final.Exploring rules opened ∧
      final.Complete opened (state.memo.master id) ∧ state.Extends (fun _ => False) final

/-- The group is explored below the outer ones. -/
structure Inside (outer : List GroupId) (group : GroupId) (memo : Memo) : Prop where
  master : memo.master group = group
  below : ∀ upper ∈ outer, Relation.TransGen memo.LeadsDown upper group

theorem Inside.mono {memo memo' : Memo} (h : Inside outer group memo) (hwidens : memo.Widens memo')
    (hmasters : ∀ id, memo'.master id = memo.master id) : Inside outer group memo' where
  master := (hmasters group).trans h.master
  below upper hupper := Relation.TransGen.mono (fun _ _ hstep => hstep.mono hwidens hmasters) _ _
    (h.below upper hupper)

/-- Exploring the children of an alternative completes their groups. -/
theorem ensures_exploreChildren {explore : GroupId → Searching Unit} {expr : MemoExpr}
    (hexplore : planner.Completes limits rules (group :: outer) explore)
    (hkeeps : ∀ child, Keeps SearchState.Proceeds (explore child))
    (hexploring : state.Exploring rules (group :: outer)) (hinside : Inside outer group state.memo)
    (hsource : source ∈ state.memo.alternativesOf group) (hexpr : state.memo.expr? source = some expr)
    (hphysical : expr.op.isPhysical = false) :
    planner.Ensures limits state (expr.children.forM explore) fun _ final =>
      final.Exploring rules (group :: outer) ∧ final.Prepared (group :: outer) group source ∧
        state.Extends (fun _ => False) final := by
  have hwell := hexploring.attainable.inOrder.1
  -- the groups of the children seen so far are complete, and stay so while others are explored
  refine (Ensures.forM (fun seen current => current.Exploring rules (group :: outer) ∧
      (∀ child ∈ seen, current.Complete (group :: outer) (state.memo.master child)) ∧
      state.Extends (fun _ => False) current) [] hexploring.attainable ⟨hexploring, by simp, .refl state⟩
    (fun child _ => hkeeps child) ?_).mono ?_
  · rintro seen child hchild current hcurrent hmasters ⟨hexploring, hseen, hextends⟩
    have hstep : state.memo.LeadsDown group (state.memo.master child) :=
      ⟨source, hsource, expr, hexpr, hphysical, child, hchild, rfl⟩
    have hbelow (upper : GroupId) (hupper : upper ∈ group :: outer) :
        Relation.TransGen current.memo.LeadsDown upper (current.memo.master child) := by
      have hnow := hinside.mono hcurrent.widens hmasters
      have hstep := hstep.mono hcurrent.widens hmasters
      rw [hmasters child]
      obtain rfl | hupper := List.mem_cons.mp hupper
      · exact .single hstep
      · exact (hnow.below upper hupper).tail hstep
    refine (hexplore current child hexploring hbelow).mono ?_
    rintro _ final hfinal - ⟨hexploring, hcomplete, hlater⟩
    refine ⟨hexploring, List.forall_mem_append.mpr ⟨fun other hother => ?_,
      List.forall_mem_singleton.mpr ?_⟩, hextends.trans hlater hcurrent⟩
    · exact ⟨hfinal.visited.subset (hseen other hother).1, (hseen other hother).2⟩
    · exact hmasters child ▸ hcomplete
  · rintro _ final hfinal hquiet ⟨hexploring, hcomplete, hextends⟩
    refine ⟨hexploring, ⟨List.mem_cons_self, (hquiet.masters group).trans hinside.master,
      (hfinal.widens.alternatives group).subset hsource, fun expr' hexpr' child hchild => ?_⟩, hextends⟩
    rw [hquiet.masters]
    exact hcomplete child ((hfinal.widens.exprs_of hexpr hexpr').2.1 ▸ hchild)

theorem ensures_explorePass (hrules : Transformations rules) {explore : GroupId → Searching Unit}
    (hexplore : planner.Completes limits rules (group :: outer) explore)
    (hkeeps : ∀ child, Keeps SearchState.Proceeds (explore child)) {ids : List ExprId}
    {progressed : Bool} (hexploring : state.Exploring rules (group :: outer))
    (hinside : Inside outer group state.memo) (hids : ids ⊆ state.memo.alternativesOf group) :
    planner.Ensures limits state (planner.explorePass limits rules explore group ids progressed)
      fun outcome final => Passed rules (group :: outer) group progressed state outcome final ∧
        ∀ id ∈ ids, final.Finished rules (group :: outer) id := by
  induction ids generalizing state progressed with
  | nil => exact Ensures.pure ⟨.stay hexploring, by simp⟩
  | cons id rest ih =>
      have hattainable := hexploring.attainable
      have hwell := hattainable.inOrder.1
      obtain ⟨hid, hrest⟩ := List.cons_subset.mp hids
      obtain ⟨_, expr, hexpr, howner⟩ := hwell.owned hid
      unfold explorePass
      refine Post.bind (post_onMemo (Post.expr (fun found hfound => ?_) fun _ => .refl _))
      obtain rfl := Option.some.inj (hexpr.symm.trans hfound)
      split
      · rename_i hlogical
        have hphysical := Operator.isPhysical_of_isLogical hlogical
        have hfires : ∀ rule ∈ rules, planner.Fires SearchState.Proceeds rule := fun rule hrule =>
          fires_proceeds (hrules.plain rule hrule)
        have hmarks : Keeps SearchState.Proceeds (onMemo (modify (·.modifyExpr id fun expr =>
            { expr with explored := true }))) :=
          keeps_observe (Keeps.modify fun _ => .modifyExpr (fun _ => rfl) fun _ => rfl)
        -- first the children are completed, then the rules run, then the alternative is marked
        refine Ensures.bind hwell.linksEnd (ensures_exploreChildren hexplore hkeeps hexploring hinside
          hid hexpr hphysical) (fun _ => Keeps.bind (keeps_transform hfires) fun outcome => ?_) ?_
        · split
          · exact Keeps.pure
          · exact Keeps.bind hmarks fun _ => keeps_explorePass hfires hkeeps
        rintro _ below hbelow hquietBelow ⟨hexploring, hprepared, hextends⟩
        refine Ensures.bind (hbelow.rises hwell.linksEnd).1 (ensures_transform hrules
          (List.Subset.refl rules) hexploring hprepared) (fun outcome => ?_) ?_
        · split
          · exact Keeps.pure
          · exact Keeps.bind hmarks fun _ => keeps_explorePass hfires hkeeps
        rintro outcome middle hmiddle hquiet ⟨htransformed, happlied⟩
        have hends := htransformed.exploring.attainable.inOrder.1.linksEnd
        split
        · exact absurd rfl htransformed.lasted
        rename_i hgoes
        refine Ensures.look (fun _ => True) hends
          (Keeps.modify fun _ => .modifyExpr (fun _ => rfl) fun _ => rfl) (Post.modify trivial)
          fun _ memo hobserves _ => ?_
        have hnoted : middle.Proceeds (middle.withMemo memo) := .withMemo (.of_observes hobserves)
        have hmastersBelow (id : GroupId) : memo.master id = below.memo.master id :=
          (hobserves.same.master hends id).trans (hquiet.masters id)
        have hmasters (id : GroupId) := (hmastersBelow id).trans (hquietBelow.masters id)
        have hproceeds := hbelow.trans (hmiddle.trans hnoted)
        have hprepared := hprepared.mono (hmiddle.trans hnoted) hmastersBelow
          (hbelow.attainable hattainable).inOrder.1
        have hlooked : middle.Extends (fun _ => False) (middle.withMemo memo) := fun id _ _ =>
          hobserves.same.alternativesOf id
        -- every rule has run on the alternative, over groups that are complete
        have hdone : (middle.withMemo memo).Finished rules (group :: outer) id := fun expr hexpr _ =>
          ⟨fun rule hrule => (hnoted.applied id).subset (happlied rule hrule),
            hprepared.below expr hexpr⟩
        refine (ih (htransformed.exploring.observed hrules hobserves)
          (hinside.mono hproceeds.widens hmasters) fun _ hother =>
            (hproceeds.widens.alternatives group).subset (hrest hother)).mono ?_
        rintro last final hfinal hquietFinal ⟨hpassed, hfinished⟩
        -- a pass is settled when each of its parts was
        have hsettled (h : last = .settled) : outcome = .settled := by
          cases outcome with
          | settled => rfl
          | stopped => exact absurd rfl hgoes
          | progressed => exact absurd (hpassed.found h) (by decide)
        obtain ⟨_, hknown, _⟩ := hproceeds.widens.exprs id expr hexpr
        refine ⟨⟨hpassed.exploring, hpassed.lasted, fun h => htransformed.found (hsettled h), ?_⟩,
          List.forall_mem_cons.mpr ⟨hdone.mono hfinal hquietFinal.masters
            (Option.isSome_of_eq_some hknown), hfinished⟩⟩
        refine (hextends.mono fun _ h => h.elim).trans ?_ hbelow
        refine (htransformed.grown.mono fun id hid => ⟨hid.1, fun h => hid.2 (hsettled h)⟩).trans ?_ hmiddle
        exact (hlooked.mono fun _ h => h.elim).trans hpassed.grown hnoted
      · rename_i hother
        -- rules run on logical alternatives only
        refine (ih hexploring hinside hrest).mono fun outcome final hproceeds _ hfinal => ⟨hfinal.1,
          List.forall_mem_cons.mpr ⟨fun expr' hexpr' hlogical => ?_, hfinal.2⟩⟩
        rw [(hproceeds.widens.exprs_of hexpr hexpr').1] at hlogical
        exact absurd hlogical hother

/-- Passes that end when nothing is left to do. -/
theorem ensures_repeatPasses {pass : Searching PassOutcome} (begun done : SearchState → Prop)
    (hkeeps : Keeps SearchState.Proceeds pass) (hends : ∀ state, begun state → state.memo.LinksEnd)
    (hpass : ∀ state, begun state → planner.Ensures limits state pass fun outcome final =>
      begun final ∧ outcome ≠ .stopped ∧ (outcome = .settled → done final))
    {fuel : Nat} (hstate : begun state) :
    planner.Ensures limits state (repeatPasses pass fuel) fun _ final =>
      begun final ∧ done final := by
  induction fuel generalizing state with
  | zero => exact Post.throw (.refl state)
  | succ fuel ih =>
      refine Ensures.bind (hends state hstate) (hpass state hstate) (fun outcome => ?_) ?_
      · cases outcome with
        | stopped | settled => exact Keeps.pure
        | progressed => exact keeps_repeatPasses hkeeps
      · rintro outcome middle - - ⟨hbegun, hlasted, hdone⟩
        cases outcome with
        | stopped => exact absurd rfl hlasted
        | settled => exact Ensures.pure ⟨hbegun, hdone rfl⟩
        | progressed => exact ih hbegun

/-- Passes over a group that is opened finish all its alternatives. -/
theorem ensures_explorePasses (hrules : Transformations rules) {explore : GroupId → Searching Unit}
    (hexplore : planner.Completes limits rules (group :: outer) explore)
    (hkeeps : ∀ child, Keeps SearchState.Proceeds (explore child)) {fuel : Nat}
    (hexploring : state.Exploring rules (group :: outer)) (hinside : Inside outer group state.memo) :
    planner.Ensures limits state (repeatPasses (do
        onMemo (Planning.checkAbort planner.aborted)
        planner.explorePass limits rules explore group ((← get).memo.alternativesOf group) false) fuel)
      fun _ final => (final.Exploring rules (group :: outer) ∧ Inside outer group final.memo ∧
        state.Extends (· = group) final) ∧
        ∀ id ∈ final.memo.alternativesOf group, final.Finished rules (group :: outer) id := by
  have hfires : ∀ rule ∈ rules, planner.Fires SearchState.Proceeds rule := fun rule hrule =>
    fires_proceeds (hrules.plain rule hrule)
  refine (ensures_repeatPasses (fun current => state.Proceeds current ∧
      current.Exploring rules (group :: outer) ∧ Inside outer group current.memo ∧
        state.Extends (· = group) current)
    (fun current => ∀ id ∈ current.memo.alternativesOf group,
      current.Finished rules (group :: outer) id)
    ?_ (fun current hcurrent => hcurrent.2.1.attainable.inOrder.1.linksEnd) ?_
    ⟨.refl state, hexploring, hinside, .refl state⟩).mono fun _ _ _ _ hfinal =>
      ⟨hfinal.1.2, hfinal.2⟩
  · exact Keeps.bind (keeps_observe Planning.keeps_checkAbort) fun _ => Keeps.bind Keeps.get
      fun current => keeps_explorePass hfires hkeeps
  · rintro current ⟨hproceeds, hexploring, hinside, hextends⟩
    have hopened : group ∈ current.visited := hexploring.within List.mem_cons_self
    refine Post.bind (post_onMemo (Post.checkAbort (fun _ => ?_) fun _ => .refl current))
    refine Post.bind (Post.get ?_)
    refine (ensures_explorePass hrules hexplore hkeeps hexploring hinside (List.Subset.refl _)).mono ?_
    rintro outcome final hfinal hquiet ⟨hpassed, hfinished⟩
    refine ⟨⟨hproceeds.trans hfinal, hpassed.exploring, hinside.mono hfinal.widens hquiet.masters,
      hextends.trans (hpassed.grown.mono fun id hid => hid.1) hproceeds⟩, hpassed.lasted,
      fun hsettled => ?_⟩
    rw [hpassed.grown group hopened fun hfed => hfed.2 hsettled]
    exact hfinished

/-- Exploring a group completes it, by induction on the depth of the calls. -/
theorem completes_exploreGroup (hrules : Transformations rules) {fuel : Nat} :
    planner.Completes limits rules opened (planner.exploreGroup limits rules fuel) := by
  induction fuel generalizing opened with
  | zero => exact fun state _ _ _ => Post.throw (.refl state)
  | succ fuel ih =>
      intro state id hexploring hbelow
      have hwell := hexploring.attainable.inOrder.1
      have hends := hwell.linksEnd
      unfold exploreGroup
      refine Ensures.look (fun answer => answer = state.memo.master id ∧
        id.index < state.memo.groups.size) hends Planning.keeps_resolve ?_ ?_
      · refine Post.bind (Post.group (fun found hfound => ?_) fun _ => trivial)
        exact Post.bind (Post.get (Post.bind (Post.set (Post.pure
          ⟨rfl, Memo.exists_group?_eq_some.mp ⟨found, hfound⟩⟩))))
      rintro _ memo hobserves ⟨rfl, hknown⟩
      have hmasters := hobserves.same.master hends
      have hwithin := hexploring.within
      have hexploring := hexploring.observed hrules hobserves
      have hextends : state.Extends (fun _ => False) (state.withMemo memo) := fun id _ _ =>
        hobserves.same.alternativesOf id
      have hgroup : memo.master (state.memo.master id) = state.memo.master id :=
        (hmasters _).trans (hends.master_master id)
      have hmasterKnown : (state.memo.master id).index < memo.groups.size :=
        hobserves.same.groups_size ▸ hwell.masterKnown id hknown
      have hinside : Inside opened (state.memo.master id) memo :=
        Inside.mono ⟨hends.master_master id, hbelow⟩ (.of_sameContent hobserves.same) hmasters
      generalize hid : state.memo.master id = group at *
      refine Post.bind (Post.bind (Post.get ?_))
      split
      · rename_i hvisited
        -- a group that was visited is complete unless it is open, but then it would be above itself
        refine Post.pure (Post.pure ⟨.refl _, fun hquiet => ⟨hexploring, ⟨?_, fun hopened => ?_⟩, hextends⟩⟩)
        · simpa using hvisited
        · exact hquiet.acyclic group (hinside.below group hopened)
      · rename_i hnew
        refine Post.bind (Post.modify (Post.pure ?_))
        rw [if_pos rfl]
        have hnew : group ∉ (state.withMemo memo).visited := by simpa using hnew
        -- the group is opened, its passes finish all its alternatives, and it is closed again
        have hentered : (state.withMemo memo).Proceeds { state.withMemo memo with
          visited := group :: state.visited } := Searching.Stepping.visited _ _ hnew
        refine Ensures.after (hobserves.same.linksEnd hends) hentered ?_
        refine Post.bind (post_onMemo (Post.group (fun found _ => ?_) fun _ => .refl _))
        refine Ensures.look (fun _ => True) (hobserves.same.linksEnd hends)
          (Keeps.modify fun _ => .modifyGroup (Memo.sameContent_modifyGroup (fun _ => rfl) fun _ => rfl))
          (Post.modify trivial) fun _ noted hnoted _ => ?_
        have hkeeps (child : GroupId) :
            Keeps SearchState.Proceeds (planner.exploreGroup limits rules fuel child) :=
          proceeds_exploreGroup hrules.plain
        refine Ensures.bind (hnoted.same.linksEnd (hobserves.same.linksEnd hends))
          (ensures_explorePasses hrules ih hkeeps ((hexploring.enter hmasterKnown hnew).observed hrules hnoted)
            (hinside.mono (.of_sameContent hnoted.same)
              (hnoted.same.master (hobserves.same.linksEnd hends))))
          (fun settled => keeps_setPhase) ?_
        rintro settled passed hpassed hquiet ⟨⟨hexploring, -, hlater⟩, hfinished⟩
        have hleft := hexploring.leave hfinished
        have hvisited : group ∈ passed.visited := hexploring.within List.mem_cons_self
        refine ensures_setPhase.mono ?_
        rintro _ _ _ _ ⟨last, hlast, rfl⟩
        refine ⟨hleft.observed hrules hlast, ⟨hvisited, fun hopened => hnew (hwithin hopened)⟩, ?_⟩
        -- a group that was visited before is another one, and the passes added nothing to it
        intro id hid hfed
        have hother : id ≠ group := fun hsame => hnew (hsame ▸ hid)
        exact (hlast.same.alternativesOf id).trans ((hlater id (List.mem_cons_of_mem _ hid) hother).trans
          ((hnoted.same.alternativesOf id).trans (hobserves.same.alternativesOf id)))

end Planner

end QueryPlanner
