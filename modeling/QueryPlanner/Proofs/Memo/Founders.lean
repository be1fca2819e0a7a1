import QueryPlanner.Proofs.Memo.Reachable

/-!
# Founding alternatives

A group gets its properties from the alternative it was created with. That one stays the first of a
master, whatever is inserted, linked and merged later (`Memo.Reachable.founded`). So a relational
master has a logical alternative, and the first alternative of a scalar one is the predicate whose
columns are recorded with the group.
-/

namespace QueryPlanner

open Memo (SameContent Regroups)
open Planning (Post exec)

/-- A group with these properties can have been created with the operator. -/
def Operator.Founds : Operator → GroupProperties → Prop
  | .logical _, .relation _ => True
  | .scalar op, .scalar properties =>
    ∀ condition, op = .predicate condition → properties = condition.properties
  | _, _ => False

namespace Memo

variable {memo memo' memo'' : Memo} {id : GroupId}

theorem founds_of_newProperties? {op : Operator} {children : List GroupId}
    {properties : GroupProperties} (h : memo.newProperties? op children = some properties) :
    op.Founds properties := by
  cases op with
  | logical op =>
      obtain rfl := Option.some.inj h
      trivial
  | scalar op =>
      obtain rfl := Option.some.inj h
      rintro condition rfl
      rfl
  | physical op => exact absurd h (by simp [newProperties?])

/-- The first alternative of a master is one that its group can have been created with. -/
def Founded (memo : Memo) : Prop :=
  ∀ id group, memo.group? id = some group → memo.master id = id →
    ∃ first op, group.alternatives.head? = some first ∧ memo.op? first = some op ∧
      op.Founds group.properties

/-- Masters were masters before, with the same properties and the same first alternative. -/
structure KeepsFounders (memo memo' : Memo) : Prop where
  masters : ∀ id group', memo'.group? id = some group' → memo'.master id = id →
    memo.master id = id ∧ ∃ group, memo.group? id = some group ∧
      group'.properties = group.properties ∧ ∀ first, group.alternatives.head? = some first →
        group'.alternatives.head? = some first
  ops : ∀ id op, memo.op? id = some op → memo'.op? id = some op

namespace KeepsFounders

protected theorem refl (memo : Memo) : memo.KeepsFounders memo where
  masters _ group hgroup hmaster := ⟨hmaster, group, hgroup, rfl, fun _ h => h⟩
  ops _ _ hop := hop

protected theorem trans (h : memo.KeepsFounders memo') (h' : memo'.KeepsFounders memo'') :
    memo.KeepsFounders memo'' where
  masters id group'' hgroup'' hmaster'' := by
    obtain ⟨hmaster', group', hgroup', hproperties', hhead'⟩ :=
      h'.masters id group'' hgroup'' hmaster''
    obtain ⟨hmaster, group, hgroup, hproperties, hhead⟩ := h.masters id group' hgroup' hmaster'
    exact ⟨hmaster, group, hgroup, hproperties'.trans hproperties,
      fun first hfirst => hhead' first (hhead first hfirst)⟩
  ops id op hop := h'.ops id op (h.ops id op hop)

theorem founded (h : memo.KeepsFounders memo') (hfounded : memo.Founded) : memo'.Founded := by
  intro id group' hgroup' hmaster'
  obtain ⟨hmaster, group, hgroup, hproperties, hhead⟩ := h.masters id group' hgroup' hmaster'
  obtain ⟨first, op, hfirst, hop, hfounds⟩ := hfounded id group hgroup hmaster
  exact ⟨first, op, hhead first hfirst, h.ops first op hop, by rwa [hproperties]⟩

/-- Rounds that regroup alternatives and keep founders do so together. -/
theorem foldl {α : Type} {items : List α} {change : Memo → α → Memo} (h : memo.WellFormed)
    (hround : ∀ item ∈ items, ∀ current, Regroups memo current →
      Regroups current (change current item) ∧ current.KeepsFounders (change current item)) :
    memo.KeepsFounders (items.foldl change memo) :=
  (List.foldlRecOn (motive := fun current => Regroups memo current ∧ memo.KeepsFounders current)
    items change ⟨.refl h, .refl memo⟩ fun current hcurrent item hitem =>
      ⟨hcurrent.1.trans (hround item hitem current hcurrent.1).1,
        hcurrent.2.trans (hround item hitem current hcurrent.1).2⟩).2

end KeepsFounders

/-! ## Links -/

/-- Groups have the same properties and list the same alternatives, with the same operators. -/
structure SameLists (memo memo' : Memo) : Prop where
  groups : ∀ id, (memo'.group? id).map (fun group => (group.properties, group.alternatives)) =
    (memo.group? id).map fun group => (group.properties, group.alternatives)
  ops : ∀ id, memo'.op? id = memo.op? id

namespace SameLists

protected theorem refl (memo : Memo) : memo.SameLists memo := ⟨fun _ => rfl, fun _ => rfl⟩

protected theorem trans (h : memo.SameLists memo') (h' : memo'.SameLists memo'') :
    memo.SameLists memo'' :=
  ⟨fun id => (h'.groups id).trans (h.groups id), fun id => (h'.ops id).trans (h.ops id)⟩

instance : Std.Refl SameLists := ⟨SameLists.refl⟩

instance : IsTrans Memo SameLists := ⟨fun _ _ _ => SameLists.trans⟩

/-- Founders stay the same when no group becomes a master. -/
theorem keepsFounders (h : memo.SameLists memo')
    (hmasters : ∀ id, memo'.master id = id → memo.master id = id) : memo.KeepsFounders memo' where
  masters id group' hgroup' hmaster' := by
    have hlists := h.groups id
    rw [hgroup'] at hlists
    obtain ⟨group, hgroup, hsame⟩ := Option.map_eq_some_iff.mp hlists.symm
    obtain ⟨hproperties, halternatives⟩ := Prod.ext_iff.mp hsame
    exact ⟨hmasters id hmaster', group, hgroup, hproperties.symm,
      fun first hfirst => (congrArg List.head? halternatives).symm.trans hfirst⟩
  ops id op hop := (h.ops id).trans hop

end SameLists

theorem SameContent.sameLists (hsame : SameContent memo memo') : memo.SameLists memo' where
  groups := hsame.map_group? _ fun _ => rfl
  ops := hsame.op?

theorem SameContent.keepsFounders (hsame : SameContent memo memo') (hends : memo.LinksEnd) :
    memo.KeepsFounders memo' :=
  hsame.sameLists.keepsFounders fun id hmaster => (hsame.master hends id).symm.trans hmaster

theorem sameLists_setLink (id target : GroupId) : memo.SameLists (memo.setLink id target) where
  groups other := by
    have hcontent := congrArg (Option.map fun group : Group =>
      (group.properties, group.alternatives)) (group?_setLink_content memo id target other)
    rwa [Option.map_map, Option.map_map] at hcontent
  ops _ := rfl

theorem sameLists_addDuplicate (left right : GroupId) :
    memo.SameLists (memo.addDuplicate left right) := by
  have hlooked : memo.SameLists ((memo.compress left).compress right) :=
    ((sameContent_compress left).trans (sameContent_compress right)).sameLists
  unfold Memo.addDuplicate
  dsimp only
  split
  · exact hlooked
  · split <;> exact hlooked.trans (sameLists_setLink ..)

instance : Linking SameLists where
  compressed _ id := (sameContent_compress id).sameLists
  linked _ left right := sameLists_addDuplicate left right

/-- Uniting two classes under the master of one of them makes no group a master. -/
theorem Unites.master_before {joining into : GroupId} (h : Unites joining into memo memo')
    (hinto : memo.master into = into) (hmaster : memo'.master id = id) : memo.master id = id := by
  rw [h.masters] at hmaster
  split at hmaster
  · rw [← hmaster, hinto]
  · exact hmaster

/-! ## Merges -/

/-- Alternatives are moved behind those of the master. -/
theorem WellFormed.keepsFounders_moveAlternatives (h : memo.WellFormed) {source target : GroupId}
    (hmaster : memo.master source = target) (hne : source ≠ target) :
    memo.KeepsFounders (memo.moveAlternatives source target) := by
  have hregroups := h.moveAlternatives hmaster hne
  cases hsource : memo.group? source with
  | none =>
      simp only [Memo.moveAlternatives, hsource]
      exact .refl memo
  | some found =>
      have hmoves := moves_moveAlternatives hsource hne
      refine ⟨fun id group' hgroup' hmaster' => ?_, fun id op hop => ?_⟩
      · rw [hregroups.masters] at hmaster'
        obtain ⟨group, hgroup, hproperties, hfront, _⟩ := hmoves.listed hsource hgroup'
        have hid : id ≠ source := by
          rintro rfl
          exact hne (hmaster'.symm.trans hmaster)
        exact ⟨hmaster', group, hgroup, hproperties, fun first => head?_of_prefix (hfront hid)⟩
      · obtain ⟨expr, hexpr, rfl⟩ := Option.map_eq_some_iff.mp hop
        obtain ⟨expr', hexpr', hop', _⟩ := hmoves.exprs.exists_expr hexpr
        exact Option.map_eq_some_iff.mpr ⟨expr', hexpr', hop'⟩

theorem WellFormed.keepsFounders_mergeInto (h : memo.WellFormed) {source target : GroupId}
    (hsource : source.index < memo.groups.size) (htarget : target.index < memo.groups.size) :
    memo.KeepsFounders (memo.mergeInto source target) := by
  have hsame : SameContent memo ((memo.compress source).compress target) :=
    (sameContent_compress _).trans (sameContent_compress _)
  have hlooked := hsame.keepsFounders h.linksEnd
  have hwell := hsame.wellFormed h
  unfold Memo.mergeInto
  rw [← hsame.groups_size] at hsource htarget
  generalize (memo.compress source).compress target = looked at *
  have hends := hwell.linksEnd
  have hlinked : Unites (looked.master source) (looked.master target) looked
        (if looked.master source = looked.master target then looked
          else looked.setLink (looked.master source) (looked.master target)) ∧
      looked.SameLists (if looked.master source = looked.master target then looked
        else looked.setLink (looked.master source) (looked.master target)) := by
    split
    · rename_i hjoined
      rw [hjoined]
      exact ⟨(Regroups.refl hwell).unites _, .refl looked⟩
    · rename_i hne
      exact ⟨hwell.unites_setLink (hends.master_master _) (hends.master_master _) hne
        (hwell.masterKnown source hsource) (hwell.masterKnown target htarget),
        sameLists_setLink ..⟩
  obtain ⟨hunites, hlists⟩ := hlinked
  dsimp only
  generalize (if looked.master source = looked.master target then looked
    else looked.setLink (looked.master source) (looked.master target)) = linked at *
  have hkept := hlists.keepsFounders fun _ => hunites.master_before (hends.master_master _)
  have hmaster : linked.master source = looked.master target := by
    rw [hunites.masters, if_pos rfl]
  refine (hlooked.trans hkept).trans (.foldl hunites.wellFormed fun below hbelow current hcurrent => ?_)
  obtain ⟨hsame, hne⟩ := hunites.wellFormed.linksEnd.master_of_mem_takeWhile hmaster hbelow
  rw [← hcurrent.masters] at hsame
  exact ⟨hcurrent.wellFormed.moveAlternatives hsame hne,
    hcurrent.wellFormed.keepsFounders_moveAlternatives hsame hne⟩

theorem WellFormed.keepsFounders_mergeToMaster (h : memo.WellFormed) (id : GroupId) :
    memo.KeepsFounders (memo.mergeToMaster id) := by
  unfold Memo.mergeToMaster
  cases hgroup : memo.group? id with
  | none => exact .refl memo
  | some group =>
      have hknown := exists_group?_eq_some.mp ⟨group, hgroup⟩
      dsimp only
      split
      · exact h.keepsFounders_mergeInto hknown (h.masterKnown id hknown)
      · exact .refl memo

/-- What a group lists is split in another way, with the same alternative first. -/
theorem keepsFounders_relist (hends : memo.LinksEnd) {group : Group}
    (hgroup : memo.group? id = some group) {kept dropped : List ExprId}
    (hkept : kept.head? = group.alternatives.head?) :
    memo.KeepsFounders ((kept.zipIdx.foldl
      (fun memo alternative => memo.setOwner alternative.1 id alternative.2) memo).modifyGroup id
        fun group => { group with alternatives := kept, duplicates := group.duplicates ++ dropped }) := by
  obtain ⟨exprs, hframe⟩ := foldl_modifyExpr_frame memo kept.zipIdx
    (fun alternative => alternative.1) (fun alternative expr =>
      { expr with group := id, position := alternative.2 })
  have hrehomes := Rehomes.foldl id memo kept.zipIdx (fun alternative => alternative.1)
    (fun alternative _ => alternative.2) fun _ _ => rfl
  unfold setOwner
  rw [hframe] at hrehomes ⊢
  set final := Memo.modifyGroup { memo with exprs } id fun group =>
    { group with alternatives := kept, duplicates := group.duplicates ++ dropped } with hfinal
  have hgroups (other : GroupId) : final.group? other = if id = other then
      (memo.group? other).map fun group =>
        { group with alternatives := kept, duplicates := group.duplicates ++ dropped }
      else memo.group? other := group?_modifyGroup
  have hlinks (other : GroupId) : final.link? other = memo.link? other := by
    unfold Memo.link?
    rw [hgroups]
    split
    · cases memo.group? other <;> rfl
    · rfl
  refine ⟨fun other group' hgroup' hmaster' => ?_, fun alternative op hop => ?_⟩
  · rw [master_congr final hends hlinks] at hmaster'
    rw [hgroups] at hgroup'
    split at hgroup'
    · rename_i hid
      subst hid
      rw [hgroup] at hgroup'
      obtain rfl := Option.some.inj hgroup'
      exact ⟨hmaster', group, hgroup, rfl, fun first hfirst => hkept.trans hfirst⟩
    · exact ⟨hmaster', group', hgroup', rfl, fun _ hfirst => hfirst⟩
  · obtain ⟨expr, hexpr, rfl⟩ := Option.map_eq_some_iff.mp hop
    obtain ⟨expr', hexpr', hop', _⟩ := hrehomes.exists_expr hexpr
    exact Option.map_eq_some_iff.mpr ⟨expr', hexpr', hop'⟩

theorem WellFormed.keepsFounders_dropRepeated (h : memo.WellFormed) (id : GroupId) :
    memo.KeepsFounders (memo.dropRepeated id) := by
  unfold Memo.dropRepeated
  cases hgroup : memo.group? id with
  | none => exact .refl memo
  | some group =>
      dsimp only
      split
      · exact .refl memo
      · obtain ⟨hsame, _, hkept⟩ := splitRepeated_spec memo group.alternatives
        obtain ⟨group', hgroup', hcontent⟩ := hsame.exists_group hgroup
        have hlooked := hsame.keepsFounders h.linksEnd
        have hends := hsame.linksEnd h.linksEnd
        generalize memo.splitRepeated group.alternatives = result at *
        obtain ⟨looked, kept, dropped⟩ := result
        dsimp only
        split
        · exact hlooked
        · refine hlooked.trans (keepsFounders_relist hends hgroup' ?_)
          rw [show group'.alternatives = group.alternatives from congrArg (·.alternatives) hcontent]
          exact hkept

theorem WellFormed.keepsFounders_mergeDuplicates (h : memo.WellFormed) :
    memo.KeepsFounders memo.mergeDuplicates := by
  have hmoved : Regroups memo (memo.groupIds.foldl Memo.mergeToMaster memo) :=
    Regroups.foldl h fun id _ _ hcurrent => hcurrent.wellFormed.mergeToMaster id
  refine .trans (.foldl h fun id _ _ hcurrent => ?_)
    (.foldl hmoved.wellFormed fun id _ _ hcurrent => ?_)
  · exact ⟨hcurrent.wellFormed.mergeToMaster id,
      hcurrent.wellFormed.keepsFounders_mergeToMaster id⟩
  · exact ⟨hcurrent.wellFormed.dropRepeated id, hcurrent.wellFormed.keepsFounders_dropRepeated id⟩

/-! ## Insertions -/

/-- A further alternative of a master comes after the others. -/
theorem WellFormed.keepsFounders_addAlternative (h : memo.WellFormed) {op : Operator}
    {children : List GroupId} {group : GroupId} {origin : Option Origin} :
    memo.KeepsFounders (memo.addAlternative op children group origin) where
  masters id found hfound hmaster := by
    rw [master_congr _ h.linksEnd link?_addAlternative] at hmaster
    obtain ⟨before, hbefore, hproperties, _, _, _, halternatives⟩ := group?_addAlternative hfound
    refine ⟨hmaster, before, hbefore, hproperties, fun first hfirst => ?_⟩
    rw [halternatives]
    split
    · exact head?_of_prefix (List.prefix_append _ _) hfirst
    · exact hfirst
  ops id op hop := by
    obtain ⟨expr, hexpr, rfl⟩ := Option.map_eq_some_iff.mp hop
    exact Option.map_eq_some_iff.mpr ⟨expr, expr?_addAlternative_of_some hexpr, rfl⟩

/-- A new group is founded by its alternative. -/
theorem Founded.addToNewGroup (hfounded : memo.Founded) (hends : memo.LinksEnd) {op : Operator}
    {children : List GroupId} {origin : Option Origin} {properties : GroupProperties}
    (hfounds : op.Founds properties) :
    ((memo.pushGroup properties).addAlternative op children ⟨memo.groups.size⟩ origin).Founded := by
  intro id found hfound hmaster
  have hpushed : (memo.pushGroup properties).LinksEnd := hends.congr fun _ => link?_pushGroup
  rw [master_congr _ hpushed link?_addAlternative,
    master_congr _ hends fun _ => link?_pushGroup] at hmaster
  obtain ⟨before, hbefore, hproperties, _, _, _, halternatives⟩ := group?_addAlternative hfound
  rw [group?_pushGroup] at hbefore
  unfold op?
  by_cases hid : id = ⟨memo.groups.size⟩
  · rw [if_pos hid] at hbefore halternatives
    obtain rfl := Option.some.inj hbefore
    exact ⟨_, op, by rw [halternatives]; rfl, by rw [expr?_addAlternative, if_pos rfl]; rfl,
      by rwa [hproperties]⟩
  · rw [if_neg hid] at hbefore halternatives
    obtain ⟨first, founder, hfirst, hfounder, hfound⟩ := hfounded id before hbefore hmaster
    obtain ⟨expr, hexpr, rfl⟩ := Option.map_eq_some_iff.mp hfounder
    have hexpr : (memo.pushGroup properties).expr? first = some expr := hexpr
    exact ⟨first, expr.op, by rw [halternatives, hfirst],
      by rw [expr?_addAlternative_of_some hexpr]; rfl, by rwa [hproperties]⟩

theorem Founded.insert (hfounded : memo.Founded) (h : memo.WellFormed) (op : Operator)
    (children : List GroupId) (target : Option GroupId) (origin : Option Origin) :
    Post (Planning.insert op children target origin) memo (fun _ final => final.Founded)
      (fun _ final => final.Founded) := by
  by_cases hvalid : memo.Insertable op children target
  · refine ((Post.insert origin h hvalid).both
      (Linking.insert_found (R := SameLists))).mono ?_ fun _ _ hfail => hfail.1.elim
    rintro outcome final ⟨hinserts, hfound⟩
    cases hinserts with
    | found _ _ _ same => exact (same.keepsFounders h.linksEnd).founded hfounded
    | united _ _ _ _ hlinked unites =>
        refine ((hfound rfl).keepsFounders fun _ => unites.master_before ?_).founded hfounded
        obtain ⟨rfl, rfl⟩ | ⟨rfl, rfl⟩ := hlinked <;> exact h.linksEnd.master_master _
    | added _ _ same =>
        exact ((same.keepsFounders h.linksEnd).trans
          (same.wellFormed h).keepsFounders_addAlternative).founded hfounded
    | created _ _ hproperties same =>
        rw [← same.groups_size]
        exact ((same.keepsFounders h.linksEnd).founded hfounded).addToNewGroup
          (same.linksEnd h.linksEnd) (founds_of_newProperties? hproperties)
  · exact (Post.insert_fails hvalid).mono (fun _ _ hok => hok.elim)
      fun _ _ hfinal => hfinal ▸ hfounded

/-- However a memo is filled and merged, masters keep the alternatives they were created with. -/
theorem Reachable.founded (h : memo.Reachable) : memo.Founded := by
  induction h with
  | empty => exact fun id group hgroup => by simp [group?] at hgroup
  | insert before op children target origin ih =>
      exact (ih.insert before.wellFormed op children target origin).exec_snd
  | addDuplicate before left right ih =>
      refine Post.exec_snd (Post.bind (Post.group (fun _ hleft => ?_) fun _ => ih))
      refine Post.bind (Post.group (fun _ hright => Post.modify ?_) fun _ => ih)
      have hends := before.wellFormed.linksEnd
      obtain ⟨_, _, hunites, hsides⟩ := before.wellFormed.addDuplicate
        (exists_group?_eq_some.mp ⟨_, hleft⟩) (exists_group?_eq_some.mp ⟨_, hright⟩)
      refine ((sameLists_addDuplicate left right).keepsFounders fun _ =>
        hunites.master_before ?_).founded ih
      obtain ⟨rfl, rfl⟩ | ⟨rfl, rfl⟩ := hsides <;> exact hends.master_master _
  | mergeInto before source target ih =>
      refine Post.exec_snd (Post.bind (Post.group (fun _ hsource => ?_) fun _ => ih))
      refine Post.bind (Post.group (fun _ htarget => Post.modify ?_) fun _ => ih)
      exact (before.wellFormed.keepsFounders_mergeInto (exists_group?_eq_some.mp ⟨_, hsource⟩)
        (exists_group?_eq_some.mp ⟨_, htarget⟩)).founded ih
  | mergeDuplicates before ih => exact before.wellFormed.keepsFounders_mergeDuplicates.founded ih
  | look before same ih => exact (same.keepsFounders before.wellFormed.linksEnd).founded ih

end Memo

end QueryPlanner
