import QueryPlanner.Proofs.Memo.Estimates

/-!
# Statistics that requests leave

Requests for statistics fill in parts of what the groups are estimated at
(`Planning.post_deriveUpTo`), and never change what is there. So the order of requests does not
matter: after any two lists of them, what both left agrees (`Memo.Reachable.requests_agree`).
-/

namespace QueryPlanner

open Memo (SameContent)
open Planning (Post Keeps exec)

namespace Memo

variable {memo memo' memo'' current : Memo} {id : GroupId} {known : GroupId → Statistics}

/-! ## The state of a derivation -/

/-- The groups keep the statistics that they have; more columns may come to be known. -/
def StatisticsGrow (memo memo' : Memo) : Prop :=
  ∀ id before, memo.statistics? id = some before →
    ∃ after, memo'.statistics? id = some after ∧ before.PartOf after

theorem StatisticsGrow.of_eq (h : ∀ id, memo'.statistics? id = memo.statistics? id) :
    memo.StatisticsGrow memo' := fun id before hbefore => ⟨before, (h id).trans hbefore, .refl before⟩

protected theorem StatisticsGrow.trans (h : memo.StatisticsGrow memo')
    (h' : memo'.StatisticsGrow memo'') : memo.StatisticsGrow memo'' := by
  intro id before hbefore
  obtain ⟨middle, hmiddle, hpart⟩ := h id before hbefore
  obtain ⟨after, hafter, hpart'⟩ := h' id middle hmiddle
  exact ⟨after, hafter, hpart.trans hpart'⟩

/-- The memo has the content of the first one, and the statistics of its groups are parts of what is
known. -/
structure PartlyKnown (memo : Memo) (known : GroupId → Statistics) (current : Memo) : Prop extends
    SameContent memo current where
  part : ∀ id found, current.statistics? id = some found → found.PartOf (known id)

/-- Looking up masters leaves content and statistics. -/
structure Glances (memo memo' : Memo) : Prop extends SameContent memo memo' where
  statistics : ∀ id, memo'.statistics? id = memo.statistics? id

protected theorem Glances.refl (memo : Memo) : memo.Glances memo := ⟨.refl memo, fun _ => rfl⟩

protected theorem Glances.trans (h : memo.Glances memo') (h' : memo'.Glances memo'') :
    memo.Glances memo'' :=
  ⟨h.toSameContent.trans h'.toSameContent, fun id => (h'.statistics id).trans (h.statistics id)⟩

instance : Glancing Glances where
  refl := Glances.refl
  trans _ _ _ := Glances.trans
  compressed memo id :=
    ⟨sameContent_compress id, fun other => congrArg Prod.fst (notes_compress memo id other)⟩

/-- The memo is partly known after statistics were derived in it, and nothing that was known before
has changed. -/
structure Progress (memo : Memo) (known : GroupId → Statistics) (start current : Memo) : Prop extends
    memo.PartlyKnown known current where
  grown : start.StatisticsGrow current

theorem PartlyKnown.start (h : memo.PartlyKnown known current) :
    memo.Progress known current current :=
  ⟨h, .of_eq fun _ => rfl⟩

protected theorem Progress.trans (h : memo.Progress known memo' memo'')
    (h' : memo.Progress known memo'' current) : memo.Progress known memo' current :=
  ⟨h'.toPartlyKnown, h.grown.trans h'.grown⟩

theorem Progress.glances (h : memo.Progress known memo' current) (hglances : current.Glances memo'') :
    memo.Progress known memo' memo'' :=
  ⟨⟨h.toSameContent.trans hglances.toSameContent, fun id found hfound =>
    h.part id found ((hglances.statistics id).symm.trans hfound)⟩,
    h.grown.trans (.of_eq hglances.statistics)⟩

theorem statistics?_addStatistics (hid : id.index < memo.groups.size) (derived : Statistics)
    (other : GroupId) : (memo.addStatistics id derived).statistics? other =
      if id = other then some (((memo.statistics? id).map (·.append derived)).getD derived)
      else memo.statistics? other := by
  obtain ⟨group, hgroup⟩ := exists_group?_eq_some.mpr hid
  unfold statistics? addStatistics
  rw [group?_modifyGroup]
  split
  · rename_i hsame
    subst hsame
    rw [hgroup]
    rfl
  · rfl

/-- A part of what is known is added to what a group has. -/
theorem PartlyKnown.addStatistics (h : memo.PartlyKnown known current)
    (hid : id.index < current.groups.size) {derived : Statistics} (hderived : derived.PartOf (known id)) :
    memo.Progress known current (current.addStatistics id derived) := by
  have hstatistics := statistics?_addStatistics hid derived
  refine ⟨⟨h.toSameContent.trans sameContent_addStatistics, fun other found hfound => ?_⟩,
    fun other before hbefore => ?_⟩
  · rw [hstatistics] at hfound
    split at hfound
    · rename_i hsame
      subst hsame
      obtain rfl := Option.some.inj hfound
      cases hbefore : current.statistics? id with
      | none => exact hderived
      | some before => exact (h.part id before hbefore).append hderived
    · exact h.part other found hfound
  · rw [hstatistics]
    split
    · rename_i hsame
      subst hsame
      rw [hbefore]
      exact ⟨_, rfl, Statistics.partOf_append before derived⟩
    · exact ⟨before, hbefore, .refl before⟩

/-! ## Sources do not depend on statistics -/

namespace SameContent

variable (hsame : SameContent memo memo')
include hsame

theorem statisticsSource? (hends : memo.LinksEnd) (limited : Bool) (alternative : ExprId) :
    memo'.statisticsSource? limited alternative = memo.statisticsSource? limited alternative := by
  have hcounts (child : GroupId) : (memo'.group? (memo'.master child)).bind (·.properties.scalar?) =
      (memo.group? (memo.master child)).bind (·.properties.scalar?) := by
    rw [hsame.master hends]
    have hproperties := congrArg (Option.bind · GroupProperties.scalar?)
      (hsame.map_group? Group.properties (fun _ => rfl) (memo.master child))
    rwa [Option.bind_map, Option.bind_map] at hproperties
  have hread (memo : Memo) : memo.statisticsSource? limited alternative =
      ((memo.expr? alternative).map MemoExpr.content).bind fun expr =>
        expr.op.logical?.bind fun op =>
          if op.promise == .none then none
          else
            some
              { expr := alternative
                promise := if limited then StatisticsPromise.cap .low op.promise else op.promise
                isJoin := op.isJoin
                conjuncts := memo.conjunctsBelow expr } := by
    unfold Memo.statisticsSource?
    cases memo.expr? alternative <;> rfl
  have hconjuncts (expr : MemoExpr) : memo'.conjunctsBelow expr = memo.conjunctsBelow expr := by
    unfold conjunctsBelow
    simp only [hcounts]
  rw [hread, hread, hsame.exprs]
  simp only [hconjuncts]

theorem statisticsSources (hends : memo.LinksEnd) {group group' : Group}
    (hcontent : group'.content = group.content) :
    memo'.statisticsSources group' = memo.statisticsSources group := by
  unfold Memo.statisticsSources
  rw [show group'.alternatives = group.alternatives from congrArg (·.alternatives) hcontent,
    show group'.logical = group.logical from congrArg (·.logical) hcontent]
  exact congrArg (List.filterMap · group.alternatives)
    (funext fun alternative => hsame.statisticsSource? hends _ alternative)

end SameContent

/-! ## Children -/

/-- The group is found with the content that it has in the memo. -/
def FindsGroup (memo : Memo) (id : GroupId) (group : Group) : Prop :=
  ∃ before, memo.group? id = some before ∧ group.content = before.content

namespace FindsGroup

variable {group : Group} (h : memo.FindsGroup id group)
include h

theorem properties_eq : group.properties = memo.properties id := by
  obtain ⟨before, hbefore, hcontent⟩ := h
  unfold properties
  rw [hbefore]
  exact congrArg (·.properties) hcontent

theorem scalarOf? (hsame : SameContent memo current) :
    (if group.isScalar then current.scalarOperator? group else none) = memo.scalarOf? id := by
  have hproperties := h.properties_eq
  obtain ⟨before, hbefore, hcontent⟩ := h
  unfold Memo.scalarOf? Group.isScalar scalarOperator?
  rw [hproperties, show memo.alternativesOf id = group.alternatives by
    unfold alternativesOf
    rw [hbefore]
    exact (congrArg (·.alternatives) hcontent).symm]
  congr 2
  funext first
  exact hsame.op? first

end FindsGroup

/-- What was derived for the children is what an estimate over them needs. -/
theorem samplesChildren_of_forall₂ {op : LogicalOperator} {required : ColumnSet}
    {children : List GroupId} {below : List Group} {parts : List (Option Statistics)}
    (hbelow : List.Forall₂ memo.FindsGroup children below)
    (hparts : List.Forall₂ (fun (item : (GroupId × Group) × Nat) part =>
      if item.1.2.isScalar then part = none
      else ∃ found, part = some found ∧ found.Samples (known item.1.1)
        (op.childStatisticsColumns required item.2 (children.map memo.properties))
        (memo.outputOf item.1.1)) (children.zip below).zipIdx parts) :
    memo.SamplesChildren known op required children parts := by
  have hlength : parts.length = children.length := by
    rw [← hparts.length_eq, List.length_zipIdx, List.length_zip, ← hbelow.length_eq, min_self]
  have hitem (position : Nat) (child : GroupId) (hchild : children[position]? = some child) :
      ∃ part, parts[position]? = some part ∧
        if (memo.properties child).isScalar then part = none
        else ∃ found, part = some found ∧ found.Samples (known child)
          (op.childStatisticsColumns required position (children.map memo.properties))
          (memo.outputOf child) := by
    obtain ⟨hlt, hchild⟩ := List.getElem?_eq_some_iff.mp hchild
    have hlt' : position < below.length := hbelow.length_eq ▸ hlt
    have hpart : position < parts.length := hlength ▸ hlt
    have hgroup := (List.forall₂_iff_get.mp hbelow).2 position hlt hlt'
    have hfound := (List.forall₂_iff_get.mp hparts).2 position
      (by rw [hparts.length_eq]; exact hpart) hpart
    refine ⟨parts[position], List.getElem?_eq_getElem hpart, ?_⟩
    simp only [List.get_eq_getElem, List.getElem_zipIdx, List.getElem_zip, Nat.zero_add, hchild]
      at hgroup hfound
    unfold Group.isScalar at hfound
    rwa [hgroup.properties_eq] at hfound
  refine ⟨hlength, fun position child hchild hscalar => ?_, fun position child hchild hscalar => ?_⟩
  · obtain ⟨part, hpart, hnone⟩ := hitem position child hchild
    rw [if_pos hscalar] at hnone
    rw [hpart, hnone]
  · obtain ⟨part, hpart, hsome⟩ := hitem position child hchild
    rw [if_neg (by simp [hscalar])] at hsome
    obtain ⟨found, rfl, hsamples⟩ := hsome
    exact ⟨found, hpart, hsamples⟩

/-- The memo can be estimated, and all its estimates are known. -/
structure Surveys (memo : Memo) (known : GroupId → Statistics) : Prop where
  wellFormed : memo.WellFormed
  founded : memo.Founded
  estimable : memo.Estimable
  estimates : memo.Estimates known

/-- What is known of a group covers its columns, and no others. -/
theorem Surveys.complete (h : memo.Surveys known) (hmaster : memo.master id = id)
    (hid : id.index < memo.groups.size) :
    (known id).Samples (known id) (memo.outputOf id) (memo.outputOf id) :=
  h.estimates.complete h.founded h.wellFormed h.estimable hmaster hid

/-- A part of what is known that has the columns of a request. -/
theorem Surveys.samples (h : memo.Surveys known) (hmaster : memo.master id = id)
    (hid : id.index < memo.groups.size) {found : Statistics} (hfound : found.PartOf (known id))
    {wanted : ColumnSet}
    (hcovers : found.covers (wanted.inter (memo.outputOf id)) = true) :
    found.Samples (known id) wanted (memo.outputOf id) :=
  ⟨hfound, (h.complete hmaster hid).within, fun column hcolumn houtput =>
    List.all_eq_true.mp hcovers column (KeyedSet.mem_inter.mpr ⟨hcolumn, houtput⟩)⟩

end Memo

/-! ## One request -/

namespace Planning

open Memo (PartlyKnown Surveys Glances)

variable {memo current : Memo} {id : GroupId} {known : GroupId → Statistics} {rank : GroupId → Nat}

theorem post_groups (hsame : SameContent memo current) {children : List GroupId}
    (hchildren : ∀ child ∈ children, child.index < memo.groups.size) :
    Post (children.mapM group) current
      (fun below final => final = current ∧ List.Forall₂ memo.FindsGroup children below)
      (fun _ _ => False) := by
  refine Post.mapM (fun final => final = current) _ rfl fun child hchild middle hmiddle => ?_
  subst hmiddle
  refine Post.group (fun found hfound => ⟨rfl, hsame.exists_group_before hfound⟩) fun hnone => ?_
  rw [Memo.group?_eq_none, hsame.groups_size] at hnone
  exact absurd (hchildren child hchild) (by omega)

/-- The preferred source of statistics is the operator that the group is estimated from. -/
theorem post_statisticsSourceOf (h : memo.Surveys known) (hsame : SameContent memo current)
    {group found : Group} {logical : RelationProperties} {required : ColumnSet}
    (hgroup : memo.group? id = some group) (hcontent : found.content = group.content)
    (hproperties : group.properties = .relation logical) (hmaster : memo.master id = id) :
    Post (statisticsSource id found required) current
      (fun source final => current.Glances final ∧ ∃ expr op, memo.expr? source.expr = some expr ∧
        expr.op = .logical op ∧ memo.source? id = some (op, expr.children.map memo.master))
      (fun _ _ => False) := by
  obtain ⟨source, hsource⟩ := h.founded.exists_source h.estimable hgroup hproperties hmaster
  obtain ⟨_, expr, _, hexpr, _⟩ :=
    Memo.logical_of_mem_statisticsSources (StatisticsSource.mem_of_best? hsource)
  obtain ⟨op, hop, hfound⟩ := Memo.source?_of_best hgroup hsource hexpr
  unfold statisticsSource
  refine Post.bind (Post.get (Post.bind (Post.modify ?_)))
  rw [hsame.statisticsSources h.wellFormed.linksEnd hcontent, hsource]
  exact Post.pure ⟨Memo.Glancing.compressedAll, expr, op, hexpr, hop, hfound⟩

/-- The statistics of the children are derived, each by an answer to what it is asked for. -/
theorem post_deriveChildren {op : LogicalOperator} {children : List GroupId} {below : List Group}
    {required : ColumnSet} {fuel : Nat} (hcurrent : memo.PartlyKnown known current)
    (hbelow : List.Forall₂ memo.FindsGroup children below)
    (hderive : ∀ child ∈ children, ∀ wanted middle, memo.PartlyKnown known middle →
      Post (deriveUpTo false fuel child wanted) middle
        (fun found final => memo.Progress known middle final ∧
          found.Samples (known child) wanted (memo.outputOf child))
        (fun _ _ => False)) :
    Post ((children.zip below).zipIdx.mapM fun ((child, group), position) =>
        if group.isScalar then pure none
        else some <$> deriveUpTo false fuel child
          (op.childStatisticsColumns required position (children.map memo.properties))) current
      (fun parts final => memo.Progress known current final ∧
        memo.SamplesChildren known op required children parts)
      (fun _ _ => False) := by
  refine (Post.mapM (memo.Progress known current) _ hcurrent.start
    fun item hitem middle hmiddle => ?_).mono (fun parts final hparts =>
      ⟨hparts.1, Memo.samplesChildren_of_forall₂ hbelow hparts.2⟩) fun _ _ hfail => hfail
  obtain ⟨⟨child, group⟩, position⟩ := item
  have hchild : child ∈ children := (List.of_mem_zip (List.fst_mem_of_mem_zipIdx hitem)).1
  dsimp only
  split
  · exact Post.pure ⟨hmiddle, rfl⟩
  · refine Post.map ((hderive child hchild _ middle hmiddle.toPartlyKnown).mono
      (fun found final hfound => ?_) fun _ _ hfail => hfail)
    exact ⟨hmiddle.trans hfound.1, found, rfl, hfound.2⟩

/-- What is derived is added to the group, and its statistics are answered. -/
theorem post_answerDerived (hcurrent : memo.PartlyKnown known current)
    (hid : id.index < memo.groups.size) {derived : Statistics} {required output : ColumnSet}
    (hderived : derived.Samples (known id) required output) :
    Post (do
        modify (·.addStatistics id derived)
        return ((← group id).statistics).getD derived) current
      (fun found final => memo.Progress known current final ∧
        found.Samples (known id) required output)
      (fun _ _ => False) := by
  rw [← hcurrent.groups_size] at hid
  have hprogress := hcurrent.addStatistics hid hderived.toPartOf
  have hstatistics := Memo.statistics?_addStatistics hid derived id
  rw [if_pos rfl] at hstatistics
  refine Post.bind (Post.modify (Post.bind (Post.group (fun group hgroup => Post.pure ?_)
    fun hnone => ?_)))
  · rw [Memo.statistics?, hgroup, Option.bind_some] at hstatistics
    refine ⟨hprogress, ?_⟩
    rw [hstatistics, Option.getD_some]
    cases hbefore : current.statistics? id with
    | none => exact hderived
    | some before =>
        have hpart := hcurrent.part id before hbefore
        exact ⟨hpart.append hderived.toPartOf, hderived.within, fun column hcolumn houtput =>
          Statistics.contains_append_right (hderived.asked column hcolumn houtput)⟩
  · rw [Memo.group?_eq_none, Memo.addStatistics, Memo.groups_size_modifyGroup] at hnone
    omega

/-- Scalars have empty statistics, whether they are recorded already or not. -/
theorem post_scalarStatistics (hcurrent : memo.PartlyKnown known current) {found : Group}
    (hfound : current.group? id = some found) (hempty : known id = .empty) :
    Post (scalarStatistics id found) current
      (fun stats final => memo.Progress known current final ∧ stats.PartOf (known id))
      (fun _ _ => False) := by
  have hbefore : current.statistics? id = found.statistics := by
    rw [Memo.statistics?, hfound, Option.bind_some]
  unfold scalarStatistics
  split
  · rename_i existing hexisting
    exact Post.pure ⟨hcurrent.start, hcurrent.part id existing (hbefore.trans hexisting)⟩
  · rename_i hnone
    set noted := current.modifyGroup id fun group => { group with statistics := some .empty } with hnoted
    have hstatistics (other : GroupId) : noted.statistics? other =
        if id = other then some .empty else current.statistics? other := by
      unfold Memo.statistics?
      rw [hnoted, Memo.group?_modifyGroup]
      split
      · rename_i hsame
        rw [← hsame, hfound]
        rfl
      · rfl
    refine Post.bind (Post.modify (Post.pure ⟨⟨⟨hcurrent.toSameContent.trans
      (Memo.sameContent_modifyGroup (fun _ => rfl) (fun _ => rfl)), fun other stats hstats => ?_⟩,
      fun other stats hstats => ⟨stats, ?_, .refl stats⟩⟩, hempty ▸ .refl _⟩))
    · rw [hstatistics] at hstats
      split at hstats
      · rename_i hsame
        rw [← hsame, hempty, Option.some.inj hstats]
        exact .refl _
      · exact hcurrent.part other stats hstats
    · rw [hstatistics, if_neg, hstats]
      rintro rfl
      rw [hbefore, hnone] at hstats
      exact absurd hstats (by simp)

/-- A request for statistics is answered by a part of what is known, with the columns that were asked
for, by induction on the rank of the group. -/
theorem post_deriveUpTo (h : memo.Surveys known)
    (hfalls : ∀ id child, memo.ReadsLogically id child → rank child < rank id) {fuel : Nat}
    {wanted : ColumnSet} (hcurrent : memo.PartlyKnown known current)
    (hid : id.index < memo.groups.size) (hfuel : rank (memo.master id) < fuel) :
    Post (deriveUpTo false fuel id wanted) current
      (fun found final => memo.Progress known current final ∧
        found.Samples (known (memo.master id)) wanted (memo.outputOf (memo.master id)))
      (fun _ _ => False) := by
  have hends := h.wellFormed.linksEnd
  induction fuel generalizing id wanted current with
  | zero => omega
  | succ fuel ih =>
      unfold deriveUpTo
      refine Post.bind (Post.checkAbort (fun _ => ?_) (by simp))
      have hresolves := (Post.resolve (hcurrent.groups_size ▸ hid)).both
        (keeps_resolve (R := Glances) current)
      refine Post.bind (hresolves.mono ?_ fun _ _ hfail => hfail.1)
      rintro _ looked ⟨⟨rfl, _⟩, hglances⟩
      rw [hcurrent.master hends]
      -- the rest is about the master only
      have hmaster := hends.master_master id
      have hknown := h.wellFormed.masterKnown id hid
      have hlooked := hcurrent.start.glances hglances
      clear hglances hcurrent
      generalize memo.master id = id at *
      refine Post.bind (Post.group (fun found hfound => ?_) fun hnone => ?_)
      swap
      · rw [Memo.group?_eq_none, hlooked.groups_size] at hnone
        omega
      obtain ⟨group, hgroup, hcontent⟩ := hlooked.exists_group_before hfound
      have hproperties : found.properties = memo.properties id :=
        Memo.FindsGroup.properties_eq ⟨group, hgroup, hcontent⟩
      have houtput : memo.outputOf id = found.properties.relationOrEmpty.output := by
        rw [Memo.outputOf_eq, hproperties]
      split
      · rename_i recorded hscalar
        -- a scalar is estimated at nothing, and nothing can be asked of it
        have hempty : known id = .empty := by
          rw [h.estimates id, Memo.estimate, ← hproperties, hscalar]
        refine (post_scalarStatistics hlooked.toPartlyKnown hfound hempty).mono
          (fun stats final hstats => ⟨hlooked.trans hstats.1,
            h.samples hmaster hknown hstats.2 (List.all_eq_true.mpr fun column hcolumn => ?_)⟩)
          fun _ _ hfail => hfail
        rw [← KeyedSet.mem_iff, KeyedSet.mem_inter, houtput, hscalar] at hcolumn
        exact absurd hcolumn.2 KeyedSet.mem_empty.mp
      · rename_i logical hrelation
        have hlogical : memo.outputOf id = logical.output := by
          rw [houtput, hrelation]
          rfl
        dsimp only
        split
        · -- what is there already has the columns
          rename_i existing hexisting
          obtain ⟨hstatistics, hcovers⟩ := Option.filter_eq_some_iff.mp hexisting
          have hrecorded : looked.statistics? id = some existing := by
            rwa [Memo.statistics?, hfound, Option.bind_some]
          exact Post.pure ⟨hlooked, h.samples hmaster hknown (hlooked.part id existing hrecorded)
            (hlogical ▸ hcovers)⟩
        -- the content is that of the first memo, so the source is the one that the estimate is
        -- taken from
        · have hgroupProperties : group.properties = .relation logical := by
            rw [← hrelation]
            exact (congrArg (·.properties) hcontent).symm
          refine Post.bind ((post_statisticsSourceOf h hlooked.toSameContent hgroup hcontent
            hgroupProperties hmaster).mono ?_ fun _ _ hfail => hfail)
          rintro source sourced ⟨hsourced, before, op, hbefore, hop, hsource⟩
          replace hlooked := hlooked.glances hsourced
          obtain ⟨expr, hexpr, hsame⟩ := hlooked.exists_expr hbefore
          have hchildren : expr.children = before.children := congrArg (·.children) hsame
          refine Post.bind (Post.expr (fun expr' hexpr' => ?_) fun hnone => ?_)
          swap
          · exact absurd (hexpr.symm.trans hnone) (by simp)
          obtain rfl := Option.some.inj (hexpr.symm.trans hexpr')
          rw [show expr.op = .logical op from (congrArg (·.op) hsame).trans hop]
          dsimp only
          have hbelowKnown : ∀ child ∈ expr.children, child.index < sourced.groups.size := by
            rw [hchildren, hlooked.groups_size]
            exact h.wellFormed.childKnown source.expr before hbefore
          have hresolves := (Post.resolveAll (hlooked.linksEnd hends) hbelowKnown).both
            (keeps_resolveAll (R := Glances) sourced)
          refine Post.bind (hresolves.mono ?_ fun _ _ hfail => hfail.1)
          rintro _ resolved ⟨⟨rfl, _⟩, hresolved⟩
          rw [hchildren, funext (hlooked.master hends)]
          replace hlooked := hlooked.glances hresolved
          -- the children are read through their masters from here on
          have hoffers := Memo.hasLogical_of_source? hsource
          generalize before.children.map memo.master = children at *
          have hchild : ∀ child ∈ children, memo.master child = child ∧
              child.index < memo.groups.size := fun child => hoffers.child h.wellFormed
          refine Post.bind ((post_groups hlooked.toSameContent fun child hmem =>
            (hchild child hmem).2).mono ?_ fun _ _ hfail => hfail)
          rintro below _ ⟨rfl, hbelow⟩
          rw [map_eq_of_forall₂ _ (hbelow.imp fun _ _ hfinds => hfinds.properties_eq)]
          refine Post.bind ((post_deriveChildren hlooked.toPartlyKnown hbelow
            fun child hmem wanted middle hmiddle => ?_).mono ?_ fun _ _ hfail => hfail)
          · obtain ⟨hself, hlt⟩ := hchild child hmem
            have hfall := hfalls id child (hoffers.reads hmem)
            have hderived := @ih middle child wanted hmiddle hlt (by rw [hself]; omega)
            rwa [hself] at hderived
          rintro parts derived ⟨hderived, hparts⟩
          refine Post.bind (Post.get ?_)
          have hscalars : below.map (fun group =>
              if group.isScalar then derived.scalarOperator? group else none) =
                children.map memo.scalarOf? :=
            map_eq_of_forall₂ _ (hbelow.imp fun _ _ hfinds =>
              hfinds.scalarOf? hderived.toSameContent)
          -- what the children answered is all that an estimate over them takes
          obtain ⟨stats, hstats, hsamples⟩ := h.estimates.samples h.founded h.wellFormed h.estimable
            hmaster hsource hparts
          rw [hscalars, hstats]
          refine (post_answerDerived hderived.toPartlyKnown hknown
            (hsamples.mono fun column hcolumn hside => ?_)).mono (fun found final hfinal =>
              ⟨(hlooked.trans hderived).trans hfinal.1, hfinal.2⟩) fun _ _ hfail => hfail
          rw [hlogical] at hside
          exact KeyedSet.mem_inter.mpr ⟨hcolumn, hside⟩

/-- A request that is stopped, or that is about an unknown group, leaves the memo. -/
theorem post_deriveUpTo_fails {aborted : Bool} {fuel : Nat} {wanted : ColumnSet}
    (h : aborted = true ∨ memo.groups.size ≤ id.index) :
    Post (deriveUpTo aborted (fuel + 1) id wanted) memo (fun _ _ => False)
      (fun _ final => final = memo) := by
  unfold deriveUpTo
  refine Post.bind (Post.checkAbort (fun hgo => ?_) fun _ => rfl)
  refine Post.bind (Post.bind (Post.group (fun found hfound => ?_) fun _ => rfl))
  have hknown := Memo.exists_group?_eq_some.mp ⟨found, hfound⟩
  obtain hstop | hunknown := h
  · exact absurd (hgo.symm.trans hstop) (by simp)
  · omega

end Planning

/-! ## Several requests -/

/-- A request for the statistics of a group. -/
structure StatisticsRequest where
  /-- Whether planning was stopped before. -/
  aborted : Bool
  group : GroupId
  required : ColumnSet

def StatisticsRequest.run (request : StatisticsRequest) : Planning Statistics :=
  Planning.deriveStatistics request.aborted request.group request.required

/-- The memo after several requests. One that fails counts with the memo it leaves. -/
def Memo.afterRequests (memo : Memo) (requests : List StatisticsRequest) : Memo :=
  requests.foldl (fun memo request => (exec request.run memo).2) memo

namespace Planning

open Memo (PartlyKnown Surveys)

variable {memo current : Memo} {known : GroupId → Statistics}

/-- A request is answered unless it is stopped or its group is unknown. -/
theorem post_request (h : memo.Surveys known) (hcurrent : memo.PartlyKnown known current)
    (request : StatisticsRequest) :
    Post request.run current
      (fun found final => memo.Progress known current final ∧
        found.covers (request.required.inter (memo.outputOf (memo.master request.group))) = true)
      (fun _ final => final = current ∧
        (request.aborted = true ∨ memo.groups.size ≤ request.group.index)) := by
  obtain ⟨rank, hbound, hfalls⟩ := h.estimable.acyclic.exists_rank h.wellFormed
  have hlevels : current.depthLimit = (memo.groups.size + (Nat.pow 2 62 - 1)) + 1 := by
    unfold Memo.depthLimit
    rw [hcurrent.groups_size]
  unfold StatisticsRequest.run deriveStatistics
  refine Post.bind (Post.get ?_)
  rw [hlevels]
  by_cases hrefused : request.aborted = true ∨ memo.groups.size ≤ request.group.index
  · exact (post_deriveUpTo_fails (hcurrent.groups_size ▸ hrefused)).mono
      (fun _ _ hok => hok.elim) fun _ _ hfinal => ⟨hfinal, hrefused⟩
  · obtain ⟨hgo, hknown⟩ := not_or.mp hrefused
    rw [Bool.not_eq_true] at hgo
    have hrank := hbound (memo.master request.group)
    rw [hgo]
    refine (post_deriveUpTo h hfalls hcurrent (Nat.lt_of_not_le hknown) (by omega)).mono
      (fun found final hanswer => ⟨hanswer.1, List.all_eq_true.mpr fun column hcolumn => ?_⟩)
      fun _ _ hfail => hfail.elim
    have hboth := KeyedSet.mem_inter.mp hcolumn
    exact hanswer.2.asked column hboth.1 hboth.2

end Planning

namespace Memo

variable {memo : Memo} {known : GroupId → Statistics}

/-- Requests fill in parts of what is known. -/
theorem Surveys.partlyKnown_afterRequests (h : memo.Surveys known)
    (hnone : ∀ id, memo.statistics? id = none) (requests : List StatisticsRequest) :
    memo.PartlyKnown known (memo.afterRequests requests) := by
  refine List.foldlRecOn (motive := memo.PartlyKnown known) requests _
    ⟨.refl memo, fun id found hfound => ?_⟩ fun current hcurrent request _ => ?_
  · rw [hnone] at hfound
    exact absurd hfound (by simp)
  · exact ((Planning.post_request h hcurrent request).mono
      (fun _ final hfinal => hfinal.1.toPartlyKnown)
      (fun _ final hfinal => hfinal.1 ▸ hcurrent)).exec_snd

/-- In a memo without statistics that can be estimated, the order of requests does not matter: what
any two lists of requests leave of a group agrees. And every request, unless it is stopped or its
group is unknown, is answered by statistics with the columns asked for, as far as the group has them;
rows, rebinds and columns that were known before stay in all groups. -/
theorem Reachable.requests_agree (h : memo.Reachable) (hestimable : memo.Estimable)
    (hnone : ∀ id, memo.statistics? id = none) (requests : List StatisticsRequest) :
    (∀ others id found found', (memo.afterRequests requests).statistics? id = some found →
      (memo.afterRequests others).statistics? id = some found' → found.AgreesWith found') ∧
    ∀ request : StatisticsRequest, Post request.run (memo.afterRequests requests)
      (fun found final =>
        found.covers (request.required.inter (memo.outputOf (memo.master request.group))) = true ∧
        (memo.afterRequests requests).StatisticsGrow final)
      (fun _ final => final = memo.afterRequests requests ∧
        (request.aborted = true ∨ memo.groups.size ≤ request.group.index)) := by
  obtain ⟨known, hknown⟩ := hestimable.acyclic.exists_estimates h.wellFormed
  have hsurveys : memo.Surveys known := ⟨h.wellFormed, h.founded, hestimable, hknown⟩
  have hafter := hsurveys.partlyKnown_afterRequests hnone
  refine ⟨fun others id found found' hfound hfound' => ?_, fun request => ?_⟩
  · exact ((hafter requests).part id found hfound).agreesWith ((hafter others).part id found' hfound')
  · exact (Planning.post_request hsurveys (hafter requests) request).mono
      (fun found final hanswer => ⟨hanswer.2, hanswer.1.grown⟩) fun _ _ hfinal => hfinal

/-- Whether statistics can be estimated is decided alternative by alternative. -/
theorem estimable_of_forall (hacyclic : memo.LogicallyAcyclic)
    (h : ∀ index < memo.groups.size, ∀ alternative ∈ memo.alternativesOf ⟨index⟩,
      ((memo.expr? alternative).all fun expr => expr.op.logical?.all fun op =>
        let children := (expr.children.map memo.master).map memo.properties
        decide (op.Distinguishes children ∧
          memo.properties ⟨index⟩ = .relation (op.properties children))) = true) :
    memo.Estimable := by
  have hall (id : GroupId) (op : LogicalOperator) (children : List GroupId)
      (hlogical : memo.HasLogical id op children) : op.Distinguishes (children.map memo.properties) ∧
        memo.properties id = .relation (op.properties (children.map memo.properties)) := by
    obtain ⟨alternative, hlisted, expr, hexpr, hop, rfl⟩ := hlogical
    have hknown : id.index < memo.groups.size := by
      by_contra hunknown
      simp [alternativesOf, group?_eq_none.mpr (Nat.le_of_not_lt hunknown)] at hlisted
    have hcheck := h id.index hknown alternative hlisted
    rw [hexpr, Option.all_some, hop] at hcheck
    exact of_decide_eq_true hcheck
  exact ⟨hacyclic, fun id _ op children hlogical => (hall id op children hlogical).2,
    fun id op children _ hlogical => (hall id op children hlogical).1⟩

/-- Two tables, their join in both orders, a selection on it and a grouping aggregate on top. -/
def grouped : Memo :=
  let access (id : Nat) (columns : List Column) : Operator :=
    .logical (.get { table := { id, name := "", rows := 10 }, columns })
  let equal := Scalar.compare .equal (.column ⟨0⟩) (.column ⟨2⟩)
  let small := Scalar.compare .less (.column ⟨1⟩) (.literal (.integer 3))
  [(access 0 [⟨0⟩, ⟨1⟩], [], none), (access 1 [⟨2⟩], [], none),
    (.scalar (.predicate equal), [], none), (.logical .innerJoin, [⟨0⟩, ⟨1⟩, ⟨2⟩], none),
    (.logical .innerJoin, [⟨1⟩, ⟨0⟩, ⟨2⟩], some ⟨3⟩), (.scalar (.predicate small), [], none),
    (.logical .select, [⟨3⟩, ⟨4⟩], none), (.logical (.groupBy [⟨1⟩] [⟨5⟩]), [⟨5⟩], none)].foldl
      (fun memo (op, children, target) => (exec (Planning.insert op children target none) memo).2) {}

theorem reachable_grouped : grouped.Reachable := by
  unfold grouped
  simp only [List.foldl_cons, List.foldl_nil]
  repeat refine Reachable.insert ?_ _ _ _ _
  exact .empty

theorem estimable_grouped : grouped.Estimable :=
  estimable_of_forall (logicallyAcyclic_of_descending (by decide +kernel)) (by decide +kernel)

theorem statistics?_grouped (id : GroupId) : grouped.statistics? id = none := by
  have hnone : ∀ index < grouped.groups.size, (grouped.statistics? ⟨index⟩).isNone = true := by
    decide +kernel
  by_cases hknown : id.index < grouped.groups.size
  · exact Option.isNone_iff_eq_none.mp (hnone id.index hknown)
  · rw [statistics?, group?_eq_none.mpr (Nat.le_of_not_lt hknown)]
    rfl

/-- The join is asked for the column of the aggregate first, or last. -/
theorem grouped_requests_agree :
    let first : List StatisticsRequest := [⟨false, ⟨6⟩, .ofList [⟨5⟩]⟩, ⟨false, ⟨3⟩, .ofList [⟨2⟩]⟩]
    let second : List StatisticsRequest := [⟨false, ⟨3⟩, .empty⟩, ⟨false, ⟨6⟩, .ofList [⟨1⟩]⟩]
    (∃ found found', (grouped.afterRequests first).statistics? ⟨3⟩ = some found ∧
      (grouped.afterRequests second).statistics? ⟨3⟩ = some found' ∧ found.AgreesWith found') ∧
    ∃ found final, exec (StatisticsRequest.run ⟨false, ⟨6⟩, .ofList [⟨1⟩, ⟨5⟩]⟩)
        (grouped.afterRequests first) = (.ok found, final) ∧
      found.covers (.ofList [⟨1⟩, ⟨5⟩]) = true ∧ (grouped.afterRequests first).StatisticsGrow final := by
  intro first second
  have hfirst : ((grouped.afterRequests first).statistics? ⟨3⟩).isSome := by decide +kernel
  have hsecond : ((grouped.afterRequests second).statistics? ⟨3⟩).isSome := by decide +kernel
  obtain ⟨found, hfound⟩ := Option.isSome_iff_exists.mp hfirst
  obtain ⟨found', hfound'⟩ := Option.isSome_iff_exists.mp hsecond
  obtain ⟨hagree, hanswers⟩ :=
    reachable_grouped.requests_agree estimable_grouped statistics?_grouped first
  refine ⟨⟨found, found', hfound, hfound', hagree second ⟨3⟩ found found' hfound hfound'⟩, ?_⟩
  obtain ⟨answer, final, hexec, hcovers, hgrow⟩ | ⟨_, final, _, _, hrefused⟩ :=
    (hanswers ⟨false, ⟨6⟩, .ofList [⟨1⟩, ⟨5⟩]⟩).exists_exec
  · refine ⟨answer, final, hexec, ?_, hgrow⟩
    have houtput : KeyedSet.inter (.ofList [⟨1⟩, ⟨5⟩]) (grouped.outputOf (grouped.master ⟨6⟩)) =
        .ofList [⟨1⟩, ⟨5⟩] := by decide +kernel
    exact houtput ▸ hcovers
  · exact absurd hrefused (by decide +kernel)

end Memo

end QueryPlanner
