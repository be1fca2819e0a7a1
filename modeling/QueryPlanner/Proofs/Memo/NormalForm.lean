import Mathlib.Data.List.Pairwise
import QueryPlanner.Proofs.Memo.Splitting

/-!
# The memo after a merge of all duplicates

A merge of all duplicate groups works in two loops. The first one gathers the alternatives of every
class of groups with its master (`Memo.Listing.foldl_mergeToMaster`), and the second one sets aside
those that repeat an earlier one (`Memo.Prunes`). What is left in use is told apart pair by pair, so
a second merge finds nothing to do. `Memo.Attainable.mergeDuplicates_settles` is the result.
-/

namespace QueryPlanner

open Planning (exec Post Keeps)

namespace Memo

variable {memo memo' : Memo}

/-! ## Setting repeated alternatives aside -/

/-- Groups keep the alternatives that they list, and go on using some of them. Chains of links get
shorter at most. -/
structure Prunes (memo memo' : Memo) : Prop where
  regroups : Regroups memo memo'
  direct : ∀ id, memo.Direct id → memo'.Direct id
  alternatives : ∀ id, (memo'.alternativesOf id).Sublist (memo.alternativesOf id)
  listed : ∀ id, (memo'.listedIn id).Perm (memo.listedIn id)

namespace Prunes

protected theorem refl (h : memo.WellFormed) : Prunes memo memo :=
  ⟨.refl h, fun _ h => h, fun _ => .refl _, fun _ => .refl _⟩

protected theorem trans {memo'' : Memo} (h : Prunes memo memo') (h' : Prunes memo' memo'') :
    Prunes memo memo'' :=
  ⟨h.regroups.trans h'.regroups, fun id hid => h'.direct id (h.direct id hid),
    fun id => (h'.alternatives id).trans (h.alternatives id),
    fun id => (h'.listed id).trans (h.listed id)⟩

/-- Alternatives that were told apart are told apart afterwards. -/
theorem separate (h : Prunes memo memo') {id : GroupId}
    (hseparate : (memo.alternativesOf id).Pairwise memo.Separate) :
    (memo'.alternativesOf id).Pairwise memo'.Separate :=
  (hseparate.sublist (h.alternatives id)).imp fun hpair => hpair.regroups h.regroups h.direct

end Prunes

/-- Only chains get shorter. -/
theorem SameContent.prunes (hsame : SameContent memo memo') (h : memo.WellFormed)
    (hdirect : ∀ id, memo.Direct id → memo'.Direct id) : Prunes memo memo' where
  regroups := hsame.regroups h
  direct := hdirect
  alternatives id := by rw [hsame.alternativesOf]
  listed id := by
    rw [listedIn, listedIn, hsame.alternativesOf, hsame.sameQuery.sameHomes.duplicates]

/-- Splitting what a group lists into alternatives in use and others that are set aside. -/
theorem WellFormed.prunes_relist (h : memo.WellFormed) {id : GroupId}
    (hknown : id.index < memo.groups.size) {kept dropped : List ExprId}
    (hperm : (kept ++ dropped).Perm (memo.alternativesOf id))
    (hkept : kept.Sublist (memo.alternativesOf id))
    (hhead : kept.head? = (memo.alternativesOf id).head?) :
    Prunes memo ((kept.zipIdx.foldl
      (fun memo alternative => memo.setOwner alternative.1 id alternative.2) memo).modifyGroup id
        fun group => { group with
          alternatives := kept, duplicates := group.duplicates ++ dropped }) := by
  obtain ⟨group, hgroup⟩ := exists_group?_eq_some.mpr hknown
  have hgroupAlternatives : memo.alternativesOf id = group.alternatives := by
    simp [alternativesOf, hgroup]
  have hregroups := h.relist hgroup
    (fun alternative => by rw [← List.mem_append, hperm.mem_iff, hgroupAlternatives])
    (hgroupAlternatives ▸ hhead)
  refine ⟨hregroups, fun other hdirect => ?_, fun other => ?_, fun other => ?_⟩
  · unfold Direct
    rw [link?_relist, hregroups.masters]
    exact hdirect
  · rw [alternativesOf_relist hknown]
    split
    · rename_i hother
      exact hother ▸ hkept
    · exact .refl _
  · rw [listedIn, alternativesOf_relist hknown, duplicatesOf_relist hknown]
    split
    · rename_i hother
      rw [hother]
      refine List.Perm.trans ?_ (hperm.append_right _)
      rw [List.append_assoc]
      exact List.perm_append_comm.append_left _
    · exact .refl _

/-- Among the alternatives of a master, those that repeat an earlier one are set aside. -/
theorem WellFormed.prunes_dropRepeated (h : memo.WellFormed) (hrepresented : memo.Represented)
    (id : GroupId) : Prunes memo (memo.dropRepeated id) ∧ (memo.dropRepeated id).Represented ∧
      (memo.link? id = none →
        ((memo.dropRepeated id).alternativesOf id).Pairwise (memo.dropRepeated id).Separate) := by
  unfold Memo.dropRepeated
  cases hgroup : memo.group? id with
  | none => exact ⟨.refl h, hrepresented, fun _ => by simp [alternativesOf, hgroup]⟩
  | some group =>
      have hknown := exists_group?_eq_some.mp ⟨group, hgroup⟩
      have halternatives : group.alternatives = memo.alternativesOf id := by
        simp [alternativesOf, hgroup]
      dsimp only
      split
      -- a group with a link is left alone
      · rename_i hlinked
        refine ⟨.refl h, hrepresented, fun hnone => ?_⟩
        simp [link?, hgroup] at hnone
        simp [Group.isDuplicate, hnone] at hlinked
      · have hsplit := split_splitRepeated h group.alternatives
        obtain ⟨-, hperm, hhead⟩ := splitRepeated_spec memo group.alternatives
        generalize memo.splitRepeated group.alternatives = result at *
        obtain ⟨looked, kept, dropped⟩ := result
        obtain ⟨hsame, hdirect, hkept, hseparate, hdropped⟩ := hsplit
        dsimp only at *
        rw [halternatives, ← hsame.alternativesOf] at hperm hhead hkept
        have hlooked := hsame.prunes h hdirect
        have hrepresented' := hrepresented.sameQuery h.linksEnd hsame.sameQuery
        rw [← hsame.groups_size] at hknown
        have hwell := hlooked.regroups.wellFormed
        split
        · rename_i hnone
          rw [List.isEmpty_iff] at hnone
          refine ⟨hlooked, hrepresented', fun _ => ?_⟩
          -- nothing is repeated, so all alternatives are kept
          rw [hnone, List.append_nil] at hperm
          rwa [← hkept.eq_of_length hperm.length_eq]
        · have hprunes := hwell.prunes_relist hknown hperm hkept hhead
          have hlists := alternativesOf_relist hknown kept dropped
          have hasides := duplicatesOf_relist hknown kept dropped
          generalize Memo.modifyGroup _ id _ = final at hprunes hlists hasides ⊢
          refine ⟨hlooked.trans hprunes, fun other aside haside => ?_, fun _ => ?_⟩
          · have hcoarsens := hprunes.regroups.coarsens
            rw [hasides] at haside
            rw [hlists]
            split at haside
            · rename_i hother
              rw [if_pos hother]
              rcases List.mem_append.mp haside with haside | haside
              · -- what stood for the alternative may itself be set aside now
                obtain ⟨live, hlive, htwins⟩ := hrepresented' id aside haside
                rcases List.mem_append.mp (hperm.mem_iff.mpr hlive) with hlive | hlive
                · exact ⟨live, hlive, htwins.coarsens hcoarsens hwell.linksEnd⟩
                · obtain ⟨first, hfirst, hbefore⟩ := hdropped live hlive
                  exact ⟨first, hfirst, (hbefore.trans htwins).coarsens hcoarsens hwell.linksEnd⟩
              · obtain ⟨live, hlive, htwins⟩ := hdropped aside haside
                exact ⟨live, hlive, htwins.coarsens hcoarsens hwell.linksEnd⟩
            · rename_i hother
              rw [if_neg hother]
              obtain ⟨live, hlive, htwins⟩ := hrepresented' other aside haside
              exact ⟨live, hlive, htwins.coarsens hcoarsens hwell.linksEnd⟩
          · rw [hlists, if_pos rfl]
            exact hseparate.imp fun hpair => hpair.regroups hprunes.regroups hprunes.direct

/-- Setting aside what is repeated in each of several groups. -/
theorem WellFormed.prunes_foldl_dropRepeated (h : memo.WellFormed)
    (hrepresented : memo.Represented) (ids : List GroupId) : Prunes memo (ids.foldl Memo.dropRepeated memo) ∧
      (ids.foldl Memo.dropRepeated memo).Represented ∧ ∀ id ∈ ids, memo.master id = id →
        ((ids.foldl Memo.dropRepeated memo).alternativesOf id).Pairwise
          (ids.foldl Memo.dropRepeated memo).Separate := by
  induction ids generalizing memo with
  | nil => exact ⟨.refl h, hrepresented, by simp⟩
  | cons first rest ih =>
      obtain ⟨hprunes, hrepresented', hseparate⟩ := h.prunes_dropRepeated hrepresented first
      obtain ⟨hrest, hfinal, hseparateRest⟩ := ih hprunes.regroups.wellFormed hrepresented'
      refine ⟨hprunes.trans hrest, hfinal, fun id hid hmaster => ?_⟩
      rcases List.mem_cons.mp hid with rfl | hid
      · exact hrest.separate (hseparate (h.linksEnd.master_eq_self_iff.mp hmaster))
      · exact hseparateRest id hid ((hprunes.regroups.masters id).trans hmaster)

/-- A memo in which linked groups list nothing and the alternatives of each master are told apart
stays as it is. -/
theorem mergeDuplicates_eq_self (hends : memo.LinksEnd)
    (hlinked : ∀ id, memo.master id ≠ id → memo.alternativesOf id = [])
    (hseparate : ∀ id, memo.master id = id → (memo.alternativesOf id).Pairwise memo.Separate) :
    memo.mergeDuplicates = memo := by
  have hmerge (id : GroupId) : memo.mergeToMaster id = memo := by
    unfold Memo.mergeToMaster
    cases hgroup : memo.group? id with
    | none => rfl
    | some group =>
        dsimp only
        rw [if_neg]
        intro hboth
        rw [Bool.and_eq_true, Group.isDuplicate, Option.isSome_iff_ne_none] at hboth
        have hempty := hlinked id fun hmaster => hboth.1 (by
          simpa [link?, hgroup] using hends.master_eq_self_iff.mp hmaster)
        simp only [alternativesOf, hgroup, Option.map_some, Option.getD_some] at hempty
        simp [hempty] at hboth
  have hdrop (id : GroupId) : memo.dropRepeated id = memo := by
    unfold Memo.dropRepeated
    cases hgroup : memo.group? id with
    | none => rfl
    | some group =>
        dsimp only
        split
        · rfl
        · rename_i hnone
          have hapart := hseparate id (hends.master_eq_self_iff.mpr (by
            simpa [link?, hgroup, Group.isDuplicate] using hnone))
          simp only [alternativesOf, hgroup, Option.map_some, Option.getD_some] at hapart
          rw [splitRepeated_eq_self hends hapart]
          rfl
  unfold mergeDuplicates
  rw [List.foldl_fixed' hmerge, List.foldl_fixed' hdrop]

/-! ## Gathering the alternatives of a class -/

/-- The alternatives of a linked group go to its master. -/
theorem Listing.mergeToMaster {list : Memo → GroupId → List ExprId} (hlist : Listing list)
    (h : memo.WellFormed) {id : GroupId} (hid : memo.master id ≠ id)
    (hempty : memo.alternativesOf id = [] → list memo id = []) (other : GroupId) :
    list (memo.mergeToMaster id) other =
      if other = memo.master id then list memo (memo.master id) ++ list memo id
      else if other = id then [] else list memo other := by
  have hlinked : memo.link? id ≠ none := fun hnone => hid (h.linksEnd.master_eq_self_iff.mpr hnone)
  unfold Memo.mergeToMaster
  cases hgroup : memo.group? id with
  | none => simp [link?, hgroup] at hlinked
  | some group =>
      have hduplicate : group.isDuplicate = true := by
        rw [Group.isDuplicate, Option.isSome_iff_ne_none]
        simpa [link?, hgroup] using hlinked
      dsimp only
      rw [hduplicate, Bool.true_and]
      split
      · have hknown := exists_group?_eq_some.mp ⟨group, hgroup⟩
        have hsources : memo.mergeSources id (memo.master id) = [id] := by
          simp [mergeSources, h.linksEnd.master_master, Ne.symm hid]
        rw [hlist.mergeInto h hknown (h.masterKnown id hknown), h.linksEnd.master_master, hsources]
        simp
      · rename_i hnone
        have hnone : list memo id = [] := hempty (by
          simpa [alternativesOf, hgroup] using hnone)
        rw [hnone, List.append_nil]
        split
        · rename_i hother
          rw [hother]
        · split
          · rename_i hother
            rw [hother, hnone]
          · rfl

/-- Nothing leaves a master. -/
theorem mergeToMaster_of_master (hends : memo.LinksEnd) {id : GroupId} (h : memo.master id = id) :
    memo.mergeToMaster id = memo := by
  have hlink := hends.master_eq_self_iff.mp h
  unfold Memo.mergeToMaster
  cases hgroup : memo.group? id with
  | none => rfl
  | some group =>
      have hnone : group.isDuplicate = false := by
        simpa [link?, hgroup, Group.isDuplicate] using hlink
      simp [hnone]

theorem Represented.foldl_mergeToMaster (h : memo.Represented) (hwell : memo.WellFormed)
    (ids : List GroupId) : (ids.foldl Memo.mergeToMaster memo).WellFormed ∧
      (ids.foldl Memo.mergeToMaster memo).Represented :=
  List.foldlRecOn (motive := fun current : Memo => current.WellFormed ∧ current.Represented) ids _
    ⟨hwell, h⟩ fun _ hcurrent id _ =>
      ⟨(hcurrent.1.mergeToMaster id).wellFormed, hcurrent.2.mergeToMaster hcurrent.1 id⟩

/-- The linked groups among some that have a given master. -/
def linkedTo (memo : Memo) (ids : List GroupId) (id : GroupId) : List GroupId :=
  ids.filter fun other => decide (memo.master other = id ∧ other ≠ id)

/-- The linked groups of a list hand over what they have to their masters, in the order of the
list. -/
theorem Listing.foldl_mergeToMaster {list : Memo → GroupId → List ExprId} (hlist : Listing list)
    (hempty : ∀ {memo : Memo}, memo.Represented → ∀ id, memo.alternativesOf id = [] →
      list memo id = [])
    (hwell : memo.WellFormed) (h : memo.Represented) {ids : List GroupId} (hnodup : ids.Nodup)
    (id : GroupId) : list (ids.foldl Memo.mergeToMaster memo) id =
      if memo.master id = id then list memo id ++ (memo.linkedTo ids id).flatMap (list memo)
      else if id ∈ ids then [] else list memo id := by
  induction ids generalizing memo with
  | nil => simp [linkedTo]
  | cons first rest ih =>
      rw [List.nodup_cons] at hnodup
      have hends := hwell.linksEnd
      by_cases hfirst : memo.master first = first
      · rw [List.foldl_cons, mergeToMaster_of_master hends hfirst, ih hwell h hnodup.2]
        -- a master gives nothing away
        have hlinked : memo.linkedTo (first :: rest) id = memo.linkedTo rest id := by
          unfold linkedTo
          rw [List.filter_cons_of_neg]
          simp [hfirst]
        rw [hlinked]
        split
        · rfl
        · rename_i hid
          have hne : id ≠ first := fun hsame => hid (by rw [hsame, hfirst])
          simp [hne]
      · have hregroups := hwell.mergeToMaster first
        -- another group gives all it lists to its master, and is empty then
        have hround := hlist.mergeToMaster hwell hfirst (hempty h first)
        have hlinkedTo : (memo.mergeToMaster first).linkedTo rest id = memo.linkedTo rest id := by
          unfold linkedTo
          rw [funext hregroups.masters]
        rw [List.foldl_cons, ih hregroups.wellFormed (h.mergeToMaster hwell first) hnodup.2,
          hlinkedTo, hregroups.masters]
        split
        · rename_i hid
          -- the groups that come later list what they did
          have hrest : (memo.linkedTo rest id).flatMap (list (memo.mergeToMaster first)) =
              (memo.linkedTo rest id).flatMap (list memo) := by
            refine List.flatMap_congr fun other hother => ?_
            obtain ⟨hmem, hother⟩ := List.mem_filter.mp hother
            obtain ⟨hmaster, hne⟩ := of_decide_eq_true hother
            have hneFirst : other ≠ first := fun hsame => hnodup.1 (hsame ▸ hmem)
            have hneMaster : other ≠ memo.master first := fun hsame => hne (by
              rw [← hmaster, hsame, hends.master_master])
            rw [hround, if_neg hneMaster, if_neg hneFirst]
          have hneFirst : id ≠ first := fun hsame => hfirst (hsame ▸ hid)
          rw [hrest, hround]
          by_cases hinto : id = memo.master first
          · have hcons : memo.linkedTo (first :: rest) id = first :: memo.linkedTo rest id := by
              unfold linkedTo
              rw [List.filter_cons_of_pos]
              simp [← hinto, Ne.symm hneFirst]
            rw [if_pos hinto, hcons, List.flatMap_cons, ← hinto, List.append_assoc]
          · have hcons : memo.linkedTo (first :: rest) id = memo.linkedTo rest id := by
              unfold linkedTo
              rw [List.filter_cons_of_neg]
              simp [Ne.symm hinto]
            rw [if_neg hinto, if_neg hneFirst, hcons]
        · rename_i hid
          have hneMaster : id ≠ memo.master first := fun hsame => hid (by
            rw [hsame, hends.master_master])
          rw [hround, if_neg hneMaster]
          by_cases hmem : id ∈ rest
          · simp [hmem]
          · by_cases hsame : id = first <;> simp [hmem, hsame]

theorem Represented.mergeDuplicates (h : memo.Represented) (hwell : memo.WellFormed) :
    memo.mergeDuplicates.Represented := by
  obtain ⟨hmergedWell, hmerged⟩ := h.foldl_mergeToMaster hwell memo.groupIds
  exact (hmergedWell.prunes_foldl_dropRepeated hmerged memo.groupIds).2.1

/-- References stay in order, and what is set aside repeats something in use. -/
def KeepsRepresented (memo memo' : Memo) : Prop :=
  memo.WellFormed ∧ memo.Represented → memo'.WellFormed ∧ memo'.Represented

/-- The optimizer stores with the alternatives, and inserts enforcers. -/
instance : Optimizer.Frame KeepsRepresented where
  refl _ h := h
  trans _ _ _ h h' horder := h' (h horder)
  stored _ _ hstores h :=
    ⟨hstores.wellFormed h.1, h.2.sameQuery h.1.linksEnd hstores.toSameQuery⟩
  created _ _ _ _ h :=
    ⟨sameQuery_addContext.wellFormed h.1, h.2.sameQuery h.1.linksEnd sameQuery_addContext⟩
  enforced _ _ _ _ _ := Keeps.whenever fun _ h =>
    (Post.insert_wellFormed h.1 _ _ _ _).both (h.2.insert h.1 _ _ _ _)

/-- Every memo that can come about keeps a twin in use for what it has set aside. -/
theorem Attainable.represented (h : memo.Attainable) : memo.Represented := by
  induction h with
  | empty => exact fun id aside haside => by simp [duplicatesOf, group?] at haside
  | insert before op children target origin ih =>
      exact (ih.insert before.inOrder.1 op children target origin).exec_snd
  | @addDuplicate memo before left right ih =>
      have hwell := before.inOrder.1
      have hsame : Keeps SameHomes (Planning.addDuplicate left right) := Linking.keeps_addDuplicate
      refine Post.exec_snd (Post.bind (Post.group (fun _ hleft => ?_) fun _ => ih))
      refine Post.bind (Post.group (fun _ hright => Post.modify ?_) fun _ => ih)
      obtain ⟨joining, into, hunites, _⟩ := hwell.addDuplicate
        (exists_group?_eq_some.mp ⟨_, hleft⟩) (exists_group?_eq_some.mp ⟨_, hright⟩)
      exact ih.sameHomes hwell.linksEnd hunites.coarsens (Linking.linked memo left right)
  | mergeInto before source target ih =>
      refine Post.exec_snd (Post.bind (Post.group (fun _ hsource => ?_) fun _ => ih))
      refine Post.bind (Post.group (fun _ htarget => Post.modify ?_) fun _ => ih)
      exact ih.mergeInto before.inOrder.1 (exists_group?_eq_some.mp ⟨_, hsource⟩)
        (exists_group?_eq_some.mp ⟨_, htarget⟩)
  | mergeDuplicates before ih => exact ih.mergeDuplicates before.inOrder.1
  | look before same ih => exact ih.sameQuery before.inOrder.1.linksEnd same.sameQuery
  | @optimize memo before planner stage group required ih =>
      have hkeeps : Keeps KeepsRepresented (planner.optimize stage group required) :=
        Optimizer.Works.keeps_optimize
      exact ((hkeeps memo).exec_snd ⟨before.inOrder.1, ih⟩).2

/-! ## The normal form -/

/-- A class is its master and the groups linked to it. -/
theorem perm_class {id : GroupId} (hknown : id.index < memo.groups.size)
    (hmaster : memo.master id = id) :
    (memo.groupIds.filter fun other => decide (memo.master other = id)).Perm
      (id :: memo.linkedTo memo.groupIds id) := by
  refine (List.perm_ext_iff_of_nodup (memo.nodup_groupIds.filter _) ?_).mpr fun other => ?_
  · refine List.nodup_cons.mpr ⟨?_, memo.nodup_groupIds.filter _⟩
    simp [linkedTo]
  · simp only [linkedTo, List.mem_filter, List.mem_cons, mem_groupIds, decide_eq_true_eq]
    constructor
    · tauto
    · rintro (rfl | h)
      · exact ⟨hknown, hmaster⟩
      · exact ⟨h.1, h.2.1⟩

/-- What a merge of all duplicates makes of a memo. -/
structure Settles (memo after : Memo) : Prop where
  /-- A linked group lists nothing. -/
  linked : ∀ id, after.link? id ≠ none →
    after.alternativesOf id = [] ∧ after.duplicatesOf id = []
  /-- No two alternatives in use of a group are twins. -/
  apart : ∀ id, ∀ left ∈ after.alternativesOf id, ∀ right ∈ after.alternativesOf id,
    left ≠ right → ¬ after.Twins left right
  /-- An alternative that is set aside is a twin of one in use. -/
  represented : ∀ id, ∀ aside ∈ after.duplicatesOf id,
    ∃ live ∈ after.alternativesOf id, after.Twins live aside
  /-- A master lists what the groups of its class listed, each alternative as often. -/
  held : ∀ id, id.index < memo.groups.size → after.link? id = none → (after.listedIn id).Perm
    ((memo.groupIds.filter fun other => decide (memo.master other = id)).flatMap memo.listedIn)
  /-- Of its own alternatives, a group goes on using some in the order that they had. -/
  ordered : ∀ id, ((after.alternativesOf id).filter (· ∈ memo.alternativesOf id)).Sublist
    (memo.alternativesOf id)
  /-- A master's own alternatives come first, then those of the other groups in ascending order. -/
  gathered : ∀ id, after.link? id = none → (after.alternativesOf id).Sublist
    (memo.alternativesOf id ++ (memo.linkedTo memo.groupIds id).flatMap memo.alternativesOf)
  masters : ∀ id, after.master id = memo.master id
  /-- A second merge does nothing. -/
  settled : after.mergeDuplicates = after

/-- After a merge of all duplicates a memo is in a normal form, whatever came before. -/
theorem Attainable.mergeDuplicates_settles (h : memo.Attainable) :
    Settles memo memo.mergeDuplicates := by
  have hwell := h.inOrder.1
  have hrepresented := h.represented
  obtain ⟨hmergedWell, hmergedRepresented⟩ :=
    hrepresented.foldl_mergeToMaster hwell memo.groupIds
  have hmoved : Regroups memo (memo.groupIds.foldl Memo.mergeToMaster memo) :=
    Regroups.foldl hwell fun id _ _ hcurrent => hcurrent.wellFormed.mergeToMaster id
  have halternatives := listing_alternativesOf.foldl_mergeToMaster (fun _ _ hnone => hnone) hwell
    hrepresented memo.nodup_groupIds
  have hduplicates := listing_duplicatesOf.foldl_mergeToMaster (fun hrepresented id hnone => by
    refine List.eq_nil_iff_forall_not_mem.mpr fun aside haside => ?_
    obtain ⟨live, hlive, _⟩ := hrepresented id aside haside
    simp [hnone] at hlive) hwell hrepresented memo.nodup_groupIds
  obtain ⟨hprunes, hafter, hseparate⟩ :=
    hmergedWell.prunes_foldl_dropRepeated hmergedRepresented memo.groupIds
  rw [show memo.groupIds.foldl Memo.dropRepeated (memo.groupIds.foldl Memo.mergeToMaster memo) =
    memo.mergeDuplicates from rfl] at hprunes hafter hseparate
  generalize memo.groupIds.foldl Memo.mergeToMaster memo = merged at *
  generalize memo.mergeDuplicates = after at *
  have hends := hprunes.regroups.wellFormed.linksEnd
  have hregroups := hmoved.trans hprunes.regroups
  have hmasters := hregroups.masters
  have hmaster {id : GroupId} (hlink : after.link? id = none) : memo.master id = id :=
    (hmasters id).symm.trans (hends.master_eq_self_iff.mpr hlink)
  have hlinked (id : GroupId) (hid : memo.master id ≠ id) : after.listedIn id = [] := by
    have hempty : merged.alternativesOf id = [] ∧ merged.duplicatesOf id = [] := by
      rw [halternatives, hduplicates, if_neg hid, if_neg hid]
      split
      · exact ⟨rfl, rfl⟩
      · rename_i hmem
        rw [mem_groupIds, Nat.not_lt, ← group?_eq_none] at hmem
        simp [alternativesOf, duplicatesOf, hmem]
    have hperm := hprunes.listed id
    rw [listedIn, listedIn, hempty.1, hempty.2] at hperm
    exact hperm.eq_nil
  have hgathered (id : GroupId) (hid : memo.master id = id) :
      (after.alternativesOf id).Sublist (memo.alternativesOf id ++
        (memo.linkedTo memo.groupIds id).flatMap memo.alternativesOf) := by
    have hsublist := hprunes.alternatives id
    rwa [halternatives, if_pos hid] at hsublist
  have hseparate (id : GroupId) (hid : memo.master id = id) :
      (after.alternativesOf id).Pairwise after.Separate := by
    by_cases hknown : id.index < memo.groups.size
    · exact hseparate id (mem_groupIds.mpr hknown) ((hmoved.masters id).trans hid)
    · rw [← hregroups.groups_size, Nat.not_lt, ← group?_eq_none] at hknown
      simp [alternativesOf, hknown]
  refine ⟨fun id hlink => ?_, fun id => ?_, hafter, fun id hknown hlink => ?_, fun id => ?_,
    fun id hlink => hgathered id (hmaster hlink), hmasters, ?_⟩
  · refine List.append_eq_nil_iff.mp (hlinked id fun hid => hlink ?_)
    exact hends.master_eq_self_iff.mp ((hmasters id).trans hid)
  · by_cases hid : memo.master id = id
    · have hpairs := (hseparate id hid).imp Separate.not_twins
      have : Std.Symm fun left right => ¬ after.Twins left right :=
        ⟨fun _ _ hapart htwins => hapart htwins.symm⟩
      exact fun left hleft right hright hne => hpairs.forall hleft hright hne
    · simp [(List.append_eq_nil_iff.mp (hlinked id hid)).1]
  · have hid := hmaster hlink
    refine (hprunes.listed id).trans ?_
    refine List.Perm.trans ?_ ((perm_class hknown hid).flatMap_right memo.listedIn).symm
    rw [listedIn, halternatives, hduplicates, if_pos hid, if_pos hid, List.flatMap_cons]
    have hothers := (memo.linkedTo memo.groupIds id).flatMap_append_perm memo.alternativesOf
      memo.duplicatesOf
    refine List.Perm.trans ?_ (hothers.append_left _)
    rw [listedIn, List.append_assoc, List.append_assoc]
    refine List.Perm.append_left _ ?_
    rw [← List.append_assoc, ← List.append_assoc]
    exact List.perm_append_comm.append_right _
  · by_cases hid : memo.master id = id
    · have hfiltered := (hgathered id hid).filter (· ∈ memo.alternativesOf id)
      -- what comes from other groups is none of its own
      have hothers : ((memo.linkedTo memo.groupIds id).flatMap memo.alternativesOf).filter
          (· ∈ memo.alternativesOf id) = [] := by
        rw [List.filter_eq_nil_iff]
        intro alternative hmem hown
        obtain ⟨other, hother, hlisted⟩ := List.mem_flatMap.mp hmem
        have hne := (of_decide_eq_true (List.mem_filter.mp hother).2).2
        have howner := (h.housed.mem_listedIn other alternative).mp (List.mem_append_left _ hlisted)
        have hself := (h.housed.mem_listedIn id alternative).mp
          (List.mem_append_left _ (of_decide_eq_true hown))
        exact hne (Option.some.inj (howner.symm.trans hself))
      rw [List.filter_append, hothers, List.append_nil] at hfiltered
      exact hfiltered.trans (List.filter_sublist ..)
    · simp [(List.append_eq_nil_iff.mp (hlinked id hid)).1]
  · refine mergeDuplicates_eq_self hends (fun id hid => ?_) fun id hid => ?_
    · rw [hmasters] at hid
      exact (List.append_eq_nil_iff.mp (hlinked id hid)).1
    · exact hseparate id ((hmasters id).symm.trans hid)

/-- Two tables that turn out to be the same, and an aggregate that was inserted over each. -/
def repeated : Memo :=
  (exec (Planning.addDuplicate ⟨2⟩ ⟨3⟩)
    (outdated.withInserted (.logical (.groupBy [] [])) [⟨0⟩])).2

theorem attainable_repeated : repeated.Attainable := by
  refine .addDuplicate (.insert (.addDuplicate ?_ ..) ..) ..
  exact .insert (.insert (.insert .empty ..) ..) ..

/-- The first aggregate moves to the group of the second one and is set aside there. -/
theorem repeated_settles :
    Settles repeated repeated.mergeDuplicates ∧
      repeated.mergeDuplicates.alternativesOf ⟨3⟩ = [⟨3⟩] ∧
      repeated.mergeDuplicates.duplicatesOf ⟨3⟩ = [⟨2⟩] ∧
      repeated.mergeDuplicates.alternativesOf ⟨1⟩ = [⟨1⟩, ⟨0⟩] :=
  ⟨attainable_repeated.mergeDuplicates_settles, by decide +kernel, by decide +kernel,
    by decide +kernel⟩

end Memo

end QueryPlanner
