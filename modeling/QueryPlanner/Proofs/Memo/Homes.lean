import QueryPlanner.Proofs.Optimizer.Frame

/-!
# The home of an alternative

An alternative knows the group that owns it and its position there, and groups list the alternatives
they own, those in use and those set aside as duplicates. `Memo.Attainable.homed` says that the two
agree whatever is done with a memo: every alternative is listed once over all groups, by its owner,
and one in use stands at its position. The invariant is `Memo.Housed`; every operation that moves
alternatives between lists keeps it.
-/

namespace QueryPlanner

open Planning (exec Post Keeps)

namespace Memo

/-- The alternatives that a group has set aside as duplicates, none for an unknown group. -/
def duplicatesOf (memo : Memo) (id : GroupId) : List ExprId :=
  ((memo.group? id).map (·.duplicates)).getD []

/-- All alternatives that a group lists. -/
def listedIn (memo : Memo) (id : GroupId) : List ExprId :=
  memo.alternativesOf id ++ memo.duplicatesOf id

/-- The group that owns an alternative. -/
def owner? (memo : Memo) (id : ExprId) : Option GroupId := (memo.expr? id).map (·.group)

/-- The position of an alternative in its group. -/
def position? (memo : Memo) (id : ExprId) : Option Nat := (memo.expr? id).map (·.position)

/-- Every alternative has exactly one home. -/
structure Homed (memo : Memo) : Prop where
  /-- Over all lists of all groups, every alternative occurs once, and nothing else does. -/
  once : ∀ id : ExprId, (memo.groupIds.flatMap memo.listedIn).count id =
    if id.index < memo.exprs.size then 1 else 0
  /-- An alternative is listed by the group that owns it. -/
  owned : ∀ id expr, memo.expr? id = some expr → id ∈ memo.listedIn expr.group
  /-- An alternative in use is one of its owner, at its position there. -/
  placed : ∀ id expr, memo.expr? id = some expr → ∀ group, id ∈ memo.alternativesOf group →
    group = expr.group ∧ (memo.alternativesOf group)[expr.position]? = some id

/-- A group lists the alternatives it owns, each once, and those in use in the order of their
positions. -/
structure Housed (memo : Memo) : Prop where
  nodup : ∀ id, (memo.listedIn id).Nodup
  mem_listedIn : ∀ id alternative,
    alternative ∈ memo.listedIn id ↔ memo.owner? alternative = some id
  position : ∀ id index alternative, (memo.alternativesOf id)[index]? = some alternative →
    memo.position? alternative = some index

variable {memo memo' : Memo}

theorem nodup_groupIds (memo : Memo) : memo.groupIds.Nodup :=
  List.nodup_range.map fun _ _ hsame => GroupId.mk.inj hsame

theorem mem_groupIds {id : GroupId} : id ∈ memo.groupIds ↔ id.index < memo.groups.size := by
  unfold groupIds
  rw [List.mem_map]
  constructor
  · rintro ⟨index, hindex, rfl⟩
    exact List.mem_range.mp hindex
  · exact fun h => ⟨id.index, List.mem_range.mpr h, rfl⟩

/-- What the invariant says about the lists of all groups together. -/
theorem Housed.toHomed (h : memo.Housed) (howners : ∀ id expr, memo.expr? id = some expr →
    expr.group.index < memo.groups.size) : memo.Homed where
  once id := by
    have hnodup : (memo.groupIds.flatMap memo.listedIn).Nodup := by
      refine List.nodup_flatMap.mpr ⟨fun group _ => h.nodup group, ?_⟩
      refine memo.nodup_groupIds.imp fun {left right} hne other hleft hright => hne ?_
      rw [h.mem_listedIn] at hleft hright
      exact Option.some.inj (hleft.symm.trans hright)
    have hmem : id ∈ memo.groupIds.flatMap memo.listedIn ↔ id.index < memo.exprs.size := by
      rw [← expr?_isSome, Option.isSome_iff_exists, List.mem_flatMap]
      constructor
      · rintro ⟨group, _, hlisted⟩
        obtain ⟨expr, hexpr, _⟩ := Option.map_eq_some_iff.mp ((h.mem_listedIn group id).mp hlisted)
        exact ⟨expr, hexpr⟩
      · rintro ⟨expr, hexpr⟩
        exact ⟨expr.group, mem_groupIds.mpr (howners id expr hexpr),
          (h.mem_listedIn _ id).mpr (by rw [owner?, hexpr]; rfl)⟩
    split
    · exact List.count_eq_one_of_mem hnodup (hmem.mpr ‹_›)
    · exact List.count_eq_zero.mpr fun hlisted => ‹¬ _› (hmem.mp hlisted)
  owned id expr hexpr := (h.mem_listedIn _ id).mpr (by rw [owner?, hexpr]; rfl)
  placed id expr hexpr group hmem := by
    have howner := (h.mem_listedIn group id).mp (List.mem_append_left _ hmem)
    rw [owner?, hexpr] at howner
    obtain ⟨index, hindex⟩ := List.mem_iff_getElem?.mp hmem
    have hposition := h.position group index id hindex
    rw [position?, hexpr] at hposition
    obtain rfl := Option.some.inj hposition
    exact ⟨(Option.some.inj howner).symm, hindex⟩

/-! ## Operations that leave the lists -/

/-- Groups list the same alternatives in the same order, and these have the same owners and
positions. -/
structure SameHomes (memo memo' : Memo) : Prop where
  alternatives : ∀ id, memo'.alternativesOf id = memo.alternativesOf id
  duplicates : ∀ id, memo'.duplicatesOf id = memo.duplicatesOf id
  owners : ∀ id, memo'.owner? id = memo.owner? id
  positions : ∀ id, memo'.position? id = memo.position? id

protected theorem SameHomes.refl (memo : Memo) : SameHomes memo memo :=
  ⟨fun _ => rfl, fun _ => rfl, fun _ => rfl, fun _ => rfl⟩

protected theorem SameHomes.trans {memo'' : Memo} (h : SameHomes memo memo')
    (h' : SameHomes memo' memo'') : SameHomes memo memo'' :=
  ⟨fun id => (h'.alternatives id).trans (h.alternatives id),
    fun id => (h'.duplicates id).trans (h.duplicates id),
    fun id => (h'.owners id).trans (h.owners id),
    fun id => (h'.positions id).trans (h.positions id)⟩

theorem Housed.sameHomes (h : memo.Housed) (hsame : SameHomes memo memo') : memo'.Housed where
  nodup id := by
    rw [listedIn, hsame.alternatives, hsame.duplicates]
    exact h.nodup id
  mem_listedIn id alternative := by
    rw [listedIn, hsame.alternatives, hsame.duplicates, hsame.owners]
    exact h.mem_listedIn id alternative
  position id index alternative := by
    rw [hsame.alternatives, hsame.positions]
    exact h.position id index alternative

/-- What planning stores moves no alternative. -/
theorem SameQuery.sameHomes (hsame : SameQuery memo memo') : SameHomes memo memo' where
  alternatives := hsame.alternativesOf
  duplicates id := congrArg (Option.getD · []) (hsame.map_group? (·.duplicates) (fun _ => rfl) id)
  owners id := by
    have hmap := congrArg (Option.map MemoExpr.group) (hsame.exprs id)
    rwa [Option.map_map, Option.map_map] at hmap
  positions id := by
    have hmap := congrArg (Option.map MemoExpr.position) (hsame.exprs id)
    rwa [Option.map_map, Option.map_map] at hmap

/-- Changing anything else about a group moves no alternative. -/
theorem sameHomes_modifyGroup {id : GroupId} {change : Group → Group}
    (halternatives : ∀ group, (change group).alternatives = group.alternatives)
    (hduplicates : ∀ group, (change group).duplicates = group.duplicates) :
    SameHomes memo (memo.modifyGroup id change) := by
  have hread {α : Type} (read : Group → α) (hchange : ∀ group, read (change group) = read group)
      (other : GroupId) :
      ((memo.modifyGroup id change).group? other).map read = (memo.group? other).map read := by
    rw [group?_modifyGroup]
    split
    · rw [Option.map_map]
      exact congrArg (Option.map · _) (funext hchange)
    · rfl
  exact ⟨fun other => congrArg (Option.getD · []) (hread _ halternatives other),
    fun other => congrArg (Option.getD · []) (hread _ hduplicates other), fun _ => rfl,
    fun _ => rfl⟩

theorem sameHomes_setLink {id target : GroupId} : SameHomes memo (memo.setLink id target) :=
  sameHomes_modifyGroup (fun _ => rfl) fun _ => rfl

theorem sameHomes_compress (left right : GroupId) :
    SameHomes memo ((memo.compress left).compress right) :=
  ((sameContent_compress left).trans (sameContent_compress right)).sameQuery.sameHomes

/-- A new group lists nothing, as an unknown one. -/
theorem sameHomes_pushGroup {properties : GroupProperties} :
    SameHomes memo (memo.pushGroup properties) := by
  have hread (read : Group → List ExprId) (hnew : read { properties } = []) (id : GroupId) :
      (((memo.pushGroup properties).group? id).map read).getD [] =
        ((memo.group? id).map read).getD [] := by
    rw [group?_pushGroup]
    split
    · rename_i hid
      rw [show memo.group? id = none by rw [group?_eq_none, hid]]
      exact hnew
    · rfl
  exact ⟨hread _ rfl, hread _ rfl, fun _ => rfl, fun _ => rfl⟩

instance : Looking SameHomes where
  refl := SameHomes.refl
  trans _ _ _ := SameHomes.trans
  looked _ _ hsame := hsame.sameQuery.sameHomes

instance : Linking SameHomes where
  linked memo left right := by
    refine .trans (sameHomes_compress left right) ?_
    unfold Memo.addDuplicate
    dsimp only
    split
    · exact .refl _
    · split <;> exact sameHomes_setLink

/-! ## A new alternative -/

/-- A new alternative is listed by its group alone, at the end of those in use. -/
theorem Housed.addAlternative (h : memo.Housed) {op : Operator} {children : List GroupId}
    {group : GroupId} {origin : Option Origin} (hgroup : group.index < memo.groups.size) :
    (memo.addAlternative op children group origin).Housed := by
  set final := memo.addAlternative op children group origin with hfinal
  set new : ExprId := ⟨memo.exprs.size⟩ with hnew
  have hfresh : memo.expr? new = none := by simp [expr?, hnew]
  -- the new alternative is listed nowhere before
  have hunlisted (id : GroupId) : new ∉ memo.listedIn id := by
    rw [h.mem_listedIn, owner?, hfresh]
    simp
  have halternatives (id : GroupId) : final.alternativesOf id =
      if id = group then memo.alternativesOf id ++ [new] else memo.alternativesOf id :=
    alternativesOf_addAlternative hgroup
  have hduplicates (id : GroupId) : final.duplicatesOf id = memo.duplicatesOf id := by
    unfold duplicatesOf
    cases hfound : final.group? id with
    | none =>
        rw [group?_eq_none, hfinal, groups_size_addAlternative, ← group?_eq_none] at hfound
        rw [hfound]
    | some found =>
        obtain ⟨before, hbefore, _, _, hsame, _⟩ := group?_addAlternative hfound
        rw [hbefore, Option.map_some, Option.map_some, hsame]
  have hlisted (id : GroupId) (alternative : ExprId) : alternative ∈ final.listedIn id ↔
      alternative ∈ memo.listedIn id ∨ id = group ∧ alternative = new := by
    unfold listedIn
    rw [halternatives, hduplicates]
    split
    · simp only [List.mem_append, List.mem_singleton]
      tauto
    · tauto
  refine ⟨fun id => ?_, fun id alternative => ?_, fun id index alternative hindex => ?_⟩
  · unfold listedIn
    rw [halternatives, hduplicates]
    split
    -- no group lists an alternative twice
    · have hperm : (memo.alternativesOf id ++ [new] ++ memo.duplicatesOf id).Perm
          (new :: memo.listedIn id) := by
        rw [List.append_assoc]
        exact List.perm_middle
      exact hperm.nodup_iff.mpr (List.nodup_cons.mpr ⟨hunlisted id, h.nodup id⟩)
    · exact h.nodup id
  · rw [hlisted]
    -- a group lists what it owns
    by_cases hid : alternative = new
    · subst hid
      rw [owner?, hfinal, expr?_addAlternative, if_pos rfl]
      simp [hunlisted, eq_comm]
    · rw [owner?, hfinal, expr?_addAlternative, if_neg hid]
      simp only [hid, and_false, or_false]
      exact h.mem_listedIn id alternative
  -- alternatives know their positions, the new one that after all others
  · have hold (hindex : (memo.alternativesOf id)[index]? = some alternative) :
        final.position? alternative = some index := by
      have hne : alternative ≠ new := by
        rintro rfl
        exact hunlisted id (List.mem_append_left _ (List.mem_of_getElem? hindex))
      rw [position?, hfinal, expr?_addAlternative, if_neg hne]
      exact h.position id index alternative hindex
    rw [halternatives] at hindex
    split at hindex
    · rename_i hid
      rcases Nat.lt_trichotomy index (memo.alternativesOf id).length with hlt | heq | hgt
      · rw [List.getElem?_append_left hlt] at hindex
        exact hold hindex
      · rw [heq, List.getElem?_concat_length] at hindex
        rw [← Option.some.inj hindex, position?, hfinal, expr?_addAlternative, if_pos rfl, heq, hid]
        rfl
      · rw [List.getElem?_eq_none (by simp; omega)] at hindex
        simp at hindex
    · exact hold hindex

/-! ## Moved alternatives -/

/-- Numbering alternatives one after the other. -/
theorem position?_foldl_setOwner (target : GroupId) (place : Nat → Nat) {ids : List ExprId}
    (hnodup : ids.Nodup) (memo : Memo) (start : Nat) (id : ExprId) :
    ((ids.zipIdx start).foldl
      (fun memo moved => memo.setOwner moved.1 target (place moved.2)) memo).position? id =
        if id ∈ ids then (memo.position? id).map fun _ => place (start + ids.idxOf id)
        else memo.position? id := by
  have hset (memo : Memo) (moving : ExprId) (position : Nat) :
      (memo.setOwner moving target position).position? id =
        if id = moving then (memo.position? id).map fun _ => position else memo.position? id := by
    unfold position? setOwner
    rw [expr?_modifyExpr]
    by_cases hid : moving = id
    · rw [if_pos hid, if_pos hid.symm, Option.map_map, Option.map_map]
      rfl
    · rw [if_neg hid, if_neg (Ne.symm hid)]
  induction ids generalizing memo start with
  | nil => rfl
  | cons first rest ih =>
      rw [List.nodup_cons] at hnodup
      rw [List.zipIdx_cons, List.foldl_cons, ih hnodup.2, hset]
      by_cases hid : id = first
      · subst hid
        rw [if_neg hnodup.1, if_pos rfl, if_pos (List.mem_cons_self ..), List.idxOf_cons_self,
          Nat.add_zero]
      · rw [if_neg hid, List.idxOf_cons_ne _ (Ne.symm hid)]
        simp only [List.mem_cons, hid, false_or, Nat.add_assoc, Nat.add_comm 1]

/-- Changing other things about alternatives leaves the positions. -/
theorem position?_foldl_modifyExpr (change : MemoExpr → MemoExpr)
    (hchange : ∀ expr, (change expr).position = expr.position) (ids : List ExprId) (memo : Memo)
    (id : ExprId) :
    (ids.foldl (fun memo moved => memo.modifyExpr moved change) memo).position? id =
      memo.position? id := by
  have hround (current : Memo) (moved : ExprId) :
      (current.modifyExpr moved change).position? id = current.position? id := by
    unfold position?
    rw [expr?_modifyExpr]
    split
    · rw [Option.map_map]
      exact congrArg (Option.map · _) (funext hchange)
    · rfl
  induction ids generalizing memo with
  | nil => rfl
  | cons first rest ih => exact (ih _).trans (hround memo first)

/-- Alternatives that are moved come after those that the target had in use. -/
theorem position?_moveAlternatives {source target : GroupId} (hne : source ≠ target)
    (hnodup : (memo.alternativesOf source).Nodup) (id : ExprId) :
    (memo.moveAlternatives source target).position? id =
      if id ∈ memo.alternativesOf source then (memo.position? id).map fun _ =>
        (memo.alternativesOf target).length + (memo.alternativesOf source).idxOf id
      else memo.position? id := by
  unfold moveAlternatives
  cases hsource : memo.group? source with
  | none => simp [alternativesOf, hsource]
  | some found =>
      have hfound : memo.alternativesOf source = found.alternatives := by
        simp [alternativesOf, hsource]
      rw [hfound] at hnodup ⊢
      dsimp only
      split
      · rename_i hnone
        rw [Bool.and_eq_true, List.isEmpty_iff] at hnone
        rw [hnone.1, if_neg (by simp)]
        rfl
      · set emptied := memo.modifyGroup source fun group =>
          { group with alternatives := [], duplicates := [], statistics := none } with hemptied
        have htarget : emptied.alternativesOf target = memo.alternativesOf target := by
          unfold alternativesOf
          rw [hemptied, group?_modifyGroup, if_neg hne]
        rw [htarget]
        refine (position?_foldl_modifyExpr (fun expr => { expr with group := target })
          (fun _ => rfl) found.duplicates _ id).trans ?_
        rw [position?_foldl_setOwner target ((memo.alternativesOf target).length + ·) hnodup,
          Nat.zero_add]
        rfl

namespace Moves

variable {source target : GroupId} {found : Group} (hmoves : Moves source target found memo memo')
  (hsource : memo.group? source = some found)
include hmoves hsource

/-- The alternatives of a group after a move. -/
theorem alternativesOf (hne : source ≠ target) (htarget : target.index < memo.groups.size)
    (id : GroupId) : memo'.alternativesOf id = if id = source then []
      else if id = target then memo.alternativesOf target ++ memo.alternativesOf source
      else memo.alternativesOf id := by
  by_cases hid : id = source
  · subst hid
    obtain ⟨group, hgroup, halternatives, _⟩ := hmoves.emptied
    simp [Memo.alternativesOf, hgroup, halternatives]
  · by_cases htargetId : id = target
    · subst htargetId
      obtain ⟨group, hgroup⟩ := exists_group?_eq_some.mpr htarget
      obtain ⟨group', hgroup', halternatives, _⟩ := hmoves.extended group hgroup
      simp [Memo.alternativesOf, hgroup, hgroup', hsource, halternatives, hid]
    · simp [Memo.alternativesOf, hmoves.others id hid htargetId, hid, htargetId]

/-- The duplicates of a group after a move. -/
theorem duplicatesOf (hne : source ≠ target) (htarget : target.index < memo.groups.size)
    (id : GroupId) : memo'.duplicatesOf id = if id = source then []
      else if id = target then memo.duplicatesOf target ++ memo.duplicatesOf source
      else memo.duplicatesOf id := by
  by_cases hid : id = source
  · subst hid
    obtain ⟨group, hgroup, _, hduplicates, _⟩ := hmoves.emptied
    simp [Memo.duplicatesOf, hgroup, hduplicates]
  · by_cases htargetId : id = target
    · subst htargetId
      obtain ⟨group, hgroup⟩ := exists_group?_eq_some.mpr htarget
      obtain ⟨group', hgroup', _, hduplicates, _⟩ := hmoves.extended group hgroup
      simp [Memo.duplicatesOf, hgroup, hgroup', hsource, hduplicates, hid]
    · simp [Memo.duplicatesOf, hmoves.others id hid htargetId, hid, htargetId]

/-- The owner of an alternative after a move. -/
theorem owner? (id : ExprId) : memo'.owner? id =
    if id ∈ memo.listedIn source then (memo.owner? id).map fun _ => target
    else memo.owner? id := by
  have hlisted : memo.listedIn source = found.alternatives ++ found.duplicates := by
    simp [listedIn, Memo.alternativesOf, Memo.duplicatesOf, hsource]
  obtain ⟨position, hposition⟩ := hmoves.exprs id
  unfold Memo.owner?
  rw [hposition, hlisted, Option.map_map]
  split
  · rw [Option.map_map]
    rfl
  · rfl

end Moves

/-- Moving the alternatives of a group to another one. -/
theorem Housed.moveAlternatives (h : memo.Housed) {source target : GroupId} (hne : source ≠ target)
    (htarget : target.index < memo.groups.size) :
    (memo.moveAlternatives source target).Housed := by
  cases hsource : memo.group? source with
  | none =>
      simp only [Memo.moveAlternatives, hsource]
      exact h
  | some found =>
      have hmoves := moves_moveAlternatives hsource hne
      have halternatives := hmoves.alternativesOf hsource hne htarget
      have hduplicates := hmoves.duplicatesOf hsource hne htarget
      have howner := hmoves.owner? hsource
      have hnodup : (memo.alternativesOf source).Nodup := (h.nodup source).sublist
        (List.sublist_append_left _ _)
      have hposition := position?_moveAlternatives hne hnodup
      generalize memo.moveAlternatives source target = final at *
      -- what one group lists, no other one does
      have hapart {id other : GroupId} {alternative : ExprId}
          (hid : alternative ∈ memo.listedIn id) (hother : alternative ∈ memo.listedIn other) :
          id = other := by
        rw [h.mem_listedIn] at hid hother
        exact Option.some.inj (hid.symm.trans hother)
      have hlisted (id : GroupId) : (final.listedIn id).Perm (if id = source then []
          else if id = target then memo.listedIn target ++ memo.listedIn source
          else memo.listedIn id) := by
        unfold listedIn
        rw [halternatives, hduplicates]
        split
        · exact .refl _
        · split
          · rw [List.append_assoc, List.append_assoc]
            refine List.Perm.append_left _ ?_
            rw [← List.append_assoc, ← List.append_assoc]
            exact List.perm_append_comm.append_right _
          · exact .refl _
      refine ⟨fun id => ?_, fun id alternative => ?_, fun id index alternative hindex => ?_⟩
      · rw [(hlisted id).nodup_iff]
        split
        · exact List.nodup_nil
        · split
          · refine List.nodup_append.mpr ⟨h.nodup target, h.nodup source, ?_⟩
            rintro alternative hmem _ hmem' rfl
            exact hne (hapart hmem' hmem)
          · exact h.nodup id
      · rw [(hlisted id).mem_iff, howner]
        by_cases hmem : alternative ∈ memo.listedIn source
        · have hsourceOwner := (h.mem_listedIn source alternative).mp hmem
          rw [if_pos hmem, hsourceOwner, Option.map_some, Option.some_inj]
          split
          · rename_i hid
            simpa using fun hsame => hne (hid ▸ hsame.symm)
          · split
            · rename_i hid
              simp [hmem, hid]
            · rename_i hsourceId htargetId
              exact iff_of_false (fun hlisted => hsourceId (hapart hlisted hmem))
                fun hsame => htargetId hsame.symm
        · rw [if_neg hmem, ← h.mem_listedIn]
          split
          · rename_i hid
            simpa [hid] using hmem
          · split
            · rename_i hid
              simp [hmem, hid]
            · rfl
      · have hstays (hid : id ≠ source)
            (hindex : (memo.alternativesOf id)[index]? = some alternative) :
            final.position? alternative = some index := by
          rw [hposition, if_neg, h.position id index alternative hindex]
          intro hmem
          exact hid (hapart (List.mem_append_left _ (List.mem_of_getElem? hindex))
            (List.mem_append_left _ hmem))
        rw [halternatives] at hindex
        split at hindex
        · simp at hindex
        · rename_i hid
          split at hindex
          · rename_i htargetId
            by_cases hlt : index < (memo.alternativesOf target).length
            · rw [List.getElem?_append_left hlt] at hindex
              exact hstays hid (htargetId ▸ hindex)
            · rw [List.getElem?_append_right (Nat.not_lt.mp hlt)] at hindex
              have hmem := List.mem_of_getElem? hindex
              obtain ⟨hbound, hget⟩ := List.getElem?_eq_some_iff.mp hindex
              rw [hposition, if_pos hmem, h.position source _ alternative hindex, Option.map_some,
                ← hget, hnodup.idxOf_getElem]
              congr 1
              omega
          · exact hstays hid hindex

/-- Moving the alternatives of several groups to one, which is none of them. -/
theorem Housed.foldl_moveAlternatives (h : memo.Housed) {sources : List GroupId} {target : GroupId}
    (hsources : ∀ source ∈ sources, source ≠ target) (htarget : target.index < memo.groups.size) :
    (sources.foldl (fun memo below => memo.moveAlternatives below target) memo).Housed := by
  refine (List.foldlRecOn (motive := fun current : Memo => current.Housed ∧
    current.groups.size = memo.groups.size) sources _ ⟨h, rfl⟩
      fun current hcurrent source hsource => ?_).1
  have hne := hsources source hsource
  refine ⟨hcurrent.1.moveAlternatives hne (hcurrent.2.symm ▸ htarget), ?_⟩
  rw [← hcurrent.2]
  cases hfound : current.group? source with
  | none => simp only [Memo.moveAlternatives, hfound]
  | some found => exact (moves_moveAlternatives hfound hne).groups_size

/-- Merging a group into a known one. -/
theorem Housed.mergeInto (h : memo.Housed) (hwell : memo.WellFormed) {source target : GroupId}
    (htarget : target.index < memo.groups.size) : (memo.mergeInto source target).Housed := by
  have hlooked : SameContent memo ((memo.compress source).compress target) :=
    (sameContent_compress source).trans (sameContent_compress target)
  have hinto := hwell.masterKnown target htarget
  rw [← hlooked.master hwell.linksEnd, ← hlooked.groups_size] at hinto
  have hhoused := h.sameHomes hlooked.sameQuery.sameHomes
  unfold Memo.mergeInto
  generalize (memo.compress source).compress target = looked at *
  dsimp only
  refine Housed.foldl_moveAlternatives ?_ (fun below hbelow => ?_) ?_
  · split
    · exact hhoused
    · exact hhoused.sameHomes sameHomes_setLink
  · simpa using List.mem_takeWhile_imp hbelow
  · split
    · exact hinto
    · rwa [groups_size_setLink]

theorem Housed.mergeToMaster (h : memo.Housed) (hwell : memo.WellFormed) (id : GroupId) :
    (memo.mergeToMaster id).Housed := by
  unfold Memo.mergeToMaster
  cases hgroup : memo.group? id with
  | none => exact h
  | some group =>
      dsimp only
      split
      · exact h.mergeInto hwell (hwell.masterKnown id (exists_group?_eq_some.mp ⟨group, hgroup⟩))
      · exact h

/-- The alternatives in use after those of one group were split in another way. -/
theorem alternativesOf_relist {id : GroupId} (hknown : id.index < memo.groups.size)
    (kept dropped : List ExprId) (other : GroupId) :
    ((kept.zipIdx.foldl
      (fun memo alternative => memo.setOwner alternative.1 id alternative.2) memo).modifyGroup id
        fun group => { group with
          alternatives := kept, duplicates := group.duplicates ++ dropped }).alternativesOf other =
      if other = id then kept else memo.alternativesOf other := by
  obtain ⟨found, hfound⟩ := exists_group?_eq_some.mpr hknown
  unfold alternativesOf
  rw [group?_relist]
  by_cases hid : other = id
  · simp [hid, hfound]
  · simp [hid, Ne.symm hid]

/-- The alternatives that are set aside after those of one group were split in another way. -/
theorem duplicatesOf_relist {id : GroupId} (hknown : id.index < memo.groups.size)
    (kept dropped : List ExprId) (other : GroupId) :
    ((kept.zipIdx.foldl
      (fun memo alternative => memo.setOwner alternative.1 id alternative.2) memo).modifyGroup id
        fun group => { group with
          alternatives := kept, duplicates := group.duplicates ++ dropped }).duplicatesOf other =
      if other = id then memo.duplicatesOf id ++ dropped else memo.duplicatesOf other := by
  obtain ⟨found, hfound⟩ := exists_group?_eq_some.mpr hknown
  unfold duplicatesOf
  rw [group?_relist]
  by_cases hid : other = id
  · simp [hid, hfound]
  · simp [hid, Ne.symm hid]

/-- Dividing the alternatives in use of a group into those kept, which are numbered again, and
others that are set aside. -/
theorem Housed.relist (h : memo.Housed) {id : GroupId} (hknown : id.index < memo.groups.size)
    {kept dropped : List ExprId} (hperm : (kept ++ dropped).Perm (memo.alternativesOf id)) :
    ((kept.zipIdx.foldl
      (fun memo alternative => memo.setOwner alternative.1 id alternative.2) memo).modifyGroup id
        fun group => { group with
          alternatives := kept, duplicates := group.duplicates ++ dropped }).Housed := by
  set renumbered := kept.zipIdx.foldl
    (fun memo alternative => memo.setOwner alternative.1 id alternative.2) memo with hrenumbered
  set final := renumbered.modifyGroup id fun group =>
    { group with alternatives := kept, duplicates := group.duplicates ++ dropped } with hfinal
  have hsplit : (kept ++ (memo.duplicatesOf id ++ dropped)).Perm (memo.listedIn id) := by
    refine List.Perm.trans ?_ (hperm.append_right _)
    rw [List.append_assoc]
    exact List.perm_append_comm.append_left _
  have hnodup : kept.Nodup := (hsplit.nodup_iff.mpr (h.nodup id)).sublist
    (List.sublist_append_left _ _)
  have halternatives (other : GroupId) : final.alternativesOf other =
      if other = id then kept else memo.alternativesOf other :=
    alternativesOf_relist hknown kept dropped other
  have hduplicates (other : GroupId) : final.duplicatesOf other =
      if other = id then memo.duplicatesOf id ++ dropped else memo.duplicatesOf other :=
    duplicatesOf_relist hknown kept dropped other
  -- the kept alternatives belong to the group already
  have howner (alternative : ExprId) : final.owner? alternative = memo.owner? alternative := by
    have hrehomes := Rehomes.foldl id memo kept.zipIdx (fun alternative => alternative.1)
      (fun alternative _ => alternative.2) fun _ _ => rfl
    rw [show kept.zipIdx.map (fun alternative => alternative.1) = kept from
      List.zipIdx_map_fst ..] at hrehomes
    obtain ⟨position, hposition⟩ := hrehomes alternative
    have hnew : final.owner? alternative = (memo.expr? alternative).map fun expr =>
        if alternative ∈ kept then id else expr.group := by
      show (renumbered.expr? alternative).map _ = _
      rw [hrenumbered]
      unfold setOwner
      rw [hposition, Option.map_map]
      rfl
    rw [hnew]
    by_cases hmem : alternative ∈ kept
    · have hlisted := (h.mem_listedIn id alternative).mp
        (hsplit.mem_iff.mp (List.mem_append_left _ hmem))
      obtain ⟨expr, hexpr, hgroup⟩ := Option.map_eq_some_iff.mp hlisted
      simp [owner?, hexpr, hmem, hgroup]
    · simp [owner?, hmem]
  have hposition (alternative : ExprId) : final.position? alternative =
      if alternative ∈ kept then
        (memo.position? alternative).map fun _ => kept.idxOf alternative
      else memo.position? alternative := by
    have hnumbered := position?_foldl_setOwner id (fun index => index) hnodup memo 0 alternative
    rw [Nat.zero_add] at hnumbered
    exact hnumbered
  have hlisted (other : GroupId) : (final.listedIn other).Perm (memo.listedIn other) := by
    unfold listedIn
    rw [halternatives, hduplicates]
    split
    · rename_i hid
      rw [hid]
      exact hsplit
    · exact .refl _
  refine ⟨fun other => (hlisted other).nodup_iff.mpr (h.nodup other), fun other alternative => ?_,
    fun other index alternative hindex => ?_⟩
  · rw [(hlisted other).mem_iff, howner]
    exact h.mem_listedIn other alternative
  · rw [halternatives] at hindex
    rw [hposition]
    split at hindex
    · have hmem := List.mem_of_getElem? hindex
      obtain ⟨expr, hexpr, _⟩ := Option.map_eq_some_iff.mp ((h.mem_listedIn id alternative).mp
        (hsplit.mem_iff.mp (List.mem_append_left _ hmem)))
      obtain ⟨hbound, hget⟩ := List.getElem?_eq_some_iff.mp hindex
      rw [if_pos hmem, position?, hexpr, ← hget, hnodup.idxOf_getElem]
      rfl
    · rename_i hid
      rw [if_neg, h.position other index alternative hindex]
      intro hmem
      have hhome := (h.mem_listedIn id alternative).mp
        (hsplit.mem_iff.mp (List.mem_append_left _ hmem))
      have hother := (h.mem_listedIn other alternative).mp
        (List.mem_append_left _ (List.mem_of_getElem? hindex))
      exact hid (Option.some.inj (hother.symm.trans hhome))

theorem Housed.dropRepeated (h : memo.Housed) (id : GroupId) : (memo.dropRepeated id).Housed := by
  unfold Memo.dropRepeated
  cases hgroup : memo.group? id with
  | none => exact h
  | some group =>
      dsimp only
      split
      · exact h
      · obtain ⟨hsame, hperm, _⟩ := splitRepeated_spec memo group.alternatives
        have hknown := exists_group?_eq_some.mp ⟨group, hgroup⟩
        generalize memo.splitRepeated group.alternatives = result at *
        obtain ⟨looked, kept, dropped⟩ := result
        have hlooked := h.sameHomes hsame.sameQuery.sameHomes
        have halternatives : looked.alternativesOf id = group.alternatives := by
          rw [hsame.alternativesOf]
          simp [alternativesOf, hgroup]
        rw [← hsame.groups_size] at hknown
        rw [← halternatives] at hperm
        dsimp only
        split
        · exact hlooked
        · exact hlooked.relist hknown hperm

/-- Merging all duplicate groups. -/
theorem Housed.mergeDuplicates (h : memo.Housed) (hwell : memo.WellFormed) :
    memo.mergeDuplicates.Housed := by
  refine List.foldlRecOn _ _ ?_ fun current hcurrent id _ => hcurrent.dropRepeated id
  refine (List.foldlRecOn (motive := fun current : Memo => current.WellFormed ∧ current.Housed) _ _
    ⟨hwell, h⟩ fun current hcurrent id _ => ?_).2
  exact ⟨(hcurrent.1.mergeToMaster id).wellFormed, hcurrent.2.mergeToMaster hcurrent.1 id⟩

/-! ## All operations -/

/-- An insertion gives a new alternative a home, and leaves the others theirs. -/
theorem Housed.insert (h : memo.Housed) (hwell : memo.WellFormed) (op : Operator)
    (children : List GroupId) (target : Option GroupId) (origin : Option Origin) :
    Post (Planning.insert op children target origin) memo (fun _ final => final.Housed)
      (fun _ final => final.Housed) := by
  by_cases hvalid : memo.Insertable op children target
  · refine ((Post.insert origin hwell hvalid).both
      (Linking.insert_found (R := SameHomes))).mono ?_ fun _ _ hfail => hfail.1.elim
    rintro outcome final ⟨hinserts, hfound⟩
    cases hinserts with
    | found _ _ _ same => exact h.sameHomes same.sameQuery.sameHomes
    | united => exact h.sameHomes (hfound rfl)
    | @added middle id _ target_given same =>
        refine (h.sameHomes same.sameQuery.sameHomes).addAlternative ?_
        rw [same.groups_size]
        exact hwell.masterKnown id (hvalid.known id (by simp [target_given]))
    | @created middle properties _ _ _ same =>
        rw [← same.groups_size]
        exact ((h.sameHomes same.sameQuery.sameHomes).sameHomes
          sameHomes_pushGroup).addAlternative (by simp [Memo.pushGroup])
  · exact (Post.insert_fails hvalid).mono (fun _ _ hok => hok.elim) fun _ _ hfinal => hfinal ▸ h

/-- References and homes stay in order. -/
def KeepsHomes (memo memo' : Memo) : Prop :=
  memo.WellFormed ∧ memo.Housed → memo'.WellFormed ∧ memo'.Housed

/-- The optimizer stores with the alternatives, and inserts enforcers. -/
instance : Optimizer.Frame KeepsHomes where
  refl _ h := h
  trans _ _ _ h h' horder := h' (h horder)
  stored _ _ hstores h := ⟨hstores.wellFormed h.1, h.2.sameHomes hstores.sameHomes⟩
  created _ _ _ _ h :=
    ⟨sameQuery_addContext.wellFormed h.1, h.2.sameHomes sameQuery_addContext.sameHomes⟩
  enforced _ _ _ _ _ := Keeps.whenever fun _ h =>
    (Post.insert_wellFormed h.1 _ _ _ _).both (h.2.insert h.1 _ _ _ _)

/-- The invariant holds in every memo that can come about. -/
theorem Attainable.housed (h : memo.Attainable) : memo.Housed := by
  induction h with
  | empty =>
      exact ⟨fun id => by simp [listedIn, alternativesOf, duplicatesOf, group?],
        fun id alternative => by
          simp [listedIn, alternativesOf, duplicatesOf, group?, owner?, expr?],
        fun id index alternative hindex => by simp [alternativesOf, group?] at hindex⟩
  | insert before op children target origin ih =>
      exact (ih.insert before.inOrder.1 op children target origin).exec_snd
  | @addDuplicate memo _ left right ih =>
      have hsame : Keeps SameHomes (Planning.addDuplicate left right) := Linking.keeps_addDuplicate
      exact ih.sameHomes (hsame memo).exec_snd
  | mergeInto before source target ih =>
      refine Post.exec_snd (Post.bind (Post.group (fun _ _ => ?_) fun _ => ih))
      refine Post.bind (Post.group (fun _ htarget => Post.modify ?_) fun _ => ih)
      exact ih.mergeInto before.inOrder.1 (exists_group?_eq_some.mp ⟨_, htarget⟩)
  | mergeDuplicates before ih => exact ih.mergeDuplicates before.inOrder.1
  | look _ same ih => exact ih.sameHomes same.sameQuery.sameHomes
  | @optimize memo before planner stage group required ih =>
      have hkeeps : Keeps KeepsHomes (planner.optimize stage group required) :=
        Optimizer.Works.keeps_optimize
      exact ((hkeeps memo).exec_snd ⟨before.inOrder.1, ih⟩).2

/-- However a memo is filled, merged and optimized, every alternative has exactly one home: it is
listed once over all groups, by the group that it names as its owner, and if it is in use, at the
position that it names. An insertion that is rejected leaves the memo as it is. -/
theorem Attainable.homed (h : memo.Attainable) :
    memo.Homed ∧ ∀ op children target origin error final,
      exec (Planning.insert op children target origin) memo = (.error error, final) →
        final = memo := by
  refine ⟨h.housed.toHomed h.inOrder.1.ownerKnown,
    fun op children target origin error final hexec => ?_⟩
  have hpost : Post (Planning.insert op children target origin) memo (fun _ _ => True)
      (fun _ final => final = memo) := by
    by_cases hvalid : memo.Insertable op children target
    · exact (Post.insert origin h.inOrder.1 hvalid).mono (fun _ _ _ => trivial)
        fun _ _ hfail => hfail.elim
    · exact (Post.insert_fails hvalid).mono (fun _ _ hok => hok.elim) fun _ _ hfinal => hfinal
  unfold Post at hpost
  rw [hexec] at hpost
  exact hpost

/-- Two tables, each grouped by the same column. The tables are merged and so are the groups above,
and then one of the two aggregates repeats the other. -/
def folded : Memo :=
  let get (column : Nat) : Operator :=
    .logical (.get
      { table := { id := column, name := "", rows := 0 }, columns := [⟨column⟩] })
  let grouped : Operator := .logical (.groupBy [⟨0⟩] [])
  let filled : Memo :=
    [(get 0, []), (get 1, []), (grouped, [⟨0⟩]), (grouped, [⟨1⟩])].foldl
      (fun memo (op, children) => (exec (Planning.insert op children none none) memo).2) {}
  (exec (Planning.mergeInto ⟨3⟩ ⟨2⟩)
    (exec (Planning.mergeInto ⟨1⟩ ⟨0⟩) filled).2).2.mergeDuplicates

theorem attainable_folded : folded.Attainable := by
  refine .mergeDuplicates (.mergeInto (.mergeInto ?_ _ _) _ _)
  exact List.foldlRecOn _ _ .empty fun _ h _ _ => h.insert _ _ _ _

/-- The repeated aggregate is still listed once, by the group it was merged into. -/
theorem folded_homed :
    folded.Homed ∧ folded.alternativesOf ⟨2⟩ = [⟨2⟩] ∧ folded.duplicatesOf ⟨2⟩ = [⟨3⟩] ∧
      folded.owner? ⟨3⟩ = some ⟨2⟩ :=
  ⟨attainable_folded.homed.1, by decide +kernel, by decide +kernel, by decide +kernel⟩

end Memo

end QueryPlanner
