import Mathlib.Data.List.TakeWhile
import QueryPlanner.Proofs.Memo.WellFormed

/-!
# Alternatives that change their group

Merging duplicate groups moves alternatives to the master of their group, and an alternative that
repeats another of its group is set aside. `Memo.Regroups` says that nothing more happens;
`WellFormed.mergeDuplicates` is the result for the whole operation. `Memo.Unites` is the same with
one more link between two masters.
-/

namespace QueryPlanner.Memo

variable {memo memo' : Memo}

/-! ## Moving alternatives -/

/-- The listed alternatives belong to one group from now on, all others to the same as before. -/
def Rehomes (moved : List ExprId) (target : GroupId) (memo memo' : Memo) : Prop :=
  ∀ id, ∃ position, memo'.expr? id = (memo.expr? id).map fun expr =>
    { expr with group := if id ∈ moved then target else expr.group, position }

namespace Rehomes

variable {moved moreMoved : List ExprId} {target : GroupId} {memo'' : Memo}

protected theorem refl (target : GroupId) (memo : Memo) : Rehomes [] target memo memo := by
  intro id
  cases hexpr : memo.expr? id with
  | none => exact ⟨0, by simp⟩
  | some expr => exact ⟨expr.position, by simp⟩

protected theorem append (h : Rehomes moved target memo memo')
    (h' : Rehomes moreMoved target memo' memo'') :
    Rehomes (moved ++ moreMoved) target memo memo'' := by
  intro id
  obtain ⟨first, hfirst⟩ := h id
  obtain ⟨second, hsecond⟩ := h' id
  refine ⟨second, ?_⟩
  rw [hsecond, hfirst, Option.map_map]
  congr 1
  funext expr
  by_cases hlater : id ∈ moreMoved <;> simp [hlater]

/-- Moving one alternative. -/
theorem modifyExpr {moving : ExprId} {place : MemoExpr → Nat} :
    Rehomes [moving] target memo
      (memo.modifyExpr moving fun expr => { expr with group := target, position := place expr }) := by
  intro id
  rw [expr?_modifyExpr]
  by_cases hid : moving = id
  · subst hid
    cases hexpr : memo.expr? moving with
    | none => exact ⟨0, by simp⟩
    | some expr => exact ⟨place expr, by simp⟩
  · rw [if_neg hid]
    obtain ⟨position, hposition⟩ := Rehomes.refl target memo id
    exact ⟨position, by simpa [Ne.symm hid] using hposition⟩

/-- Moving alternatives one after the other. -/
theorem foldl {α : Type} (target : GroupId) (memo : Memo) (entries : List α) (moving : α → ExprId)
    {change : α → MemoExpr → MemoExpr} (place : α → MemoExpr → Nat)
    (hchange : ∀ entry expr,
      change entry expr = { expr with group := target, position := place entry expr }) :
    Rehomes (entries.map moving) target memo
      (entries.foldl (fun memo entry => memo.modifyExpr (moving entry) (change entry)) memo) := by
  induction entries generalizing memo with
  | nil => exact .refl target memo
  | cons entry rest ih =>
      have hfirst : Rehomes [moving entry] target memo
          (memo.modifyExpr (moving entry) (change entry)) := by
        rw [show change entry = _ from funext (hchange entry)]
        exact modifyExpr
      exact hfirst.append (ih _)

end Rehomes

/-- Changing alternatives one after the other leaves everything else. -/
theorem foldl_modifyExpr_frame {α : Type} (memo : Memo) (entries : List α) (moving : α → ExprId)
    (change : α → MemoExpr → MemoExpr) :
    ∃ exprs, entries.foldl (fun memo entry => memo.modifyExpr (moving entry) (change entry)) memo =
      { memo with exprs } := by
  induction entries generalizing memo with
  | nil => exact ⟨memo.exprs, rfl⟩
  | cons entry rest ih =>
      obtain ⟨exprs, hexprs⟩ := ih (memo.modifyExpr (moving entry) (change entry))
      exact ⟨exprs, hexprs⟩

/-- Moving two lists of alternatives to a group, the first with new positions. -/
theorem rehomes_both (memo : Memo) (alternatives duplicates : List ExprId) (target : GroupId)
    {start : Nat} {owned all : Memo}
    (howned : owned = alternatives.zipIdx.foldl
      (fun memo moved => memo.setOwner moved.1 target (start + moved.2)) memo)
    (hall : all = duplicates.foldl
      (fun memo moved => memo.modifyExpr moved fun expr => { expr with group := target }) owned) :
    Rehomes (alternatives ++ duplicates) target memo all ∧ ∃ exprs, all = { memo with exprs } := by
  subst hall howned
  constructor
  · have hfirst := Rehomes.foldl target memo alternatives.zipIdx (fun moved => moved.1)
      (fun moved _ => start + moved.2) fun _ _ => rfl
    have hsecond (owned : Memo) := Rehomes.foldl target owned duplicates (fun moved => moved)
      (fun _ expr => expr.position) fun _ _ => rfl
    rw [show alternatives.zipIdx.map (fun moved => moved.1) = alternatives from
      List.zipIdx_map_fst ..] at hfirst
    rw [List.map_id'] at hsecond
    exact hfirst.append (hsecond _)
  · obtain ⟨first, hfirst⟩ := foldl_modifyExpr_frame memo alternatives.zipIdx
      (fun moved => moved.1)
      (fun moved expr => { expr with group := target, position := start + moved.2 })
    unfold setOwner
    rw [hfirst]
    exact foldl_modifyExpr_frame { memo with exprs := first } duplicates (fun moved => moved) _

/-- A list that goes on starts the same. -/
theorem head?_of_prefix {α : Type} {short long : List α} {first : α} (h : short <+: long)
    (hfirst : short.head? = some first) : long.head? = some first := by
  obtain ⟨rest, rfl⟩ := h
  cases short with
  | nil => simp at hfirst
  | cons _ _ => exact hfirst

/-- What moving the alternatives of a known group to another one does. -/
structure Moves (source target : GroupId) (found : Group) (memo memo' : Memo) : Prop where
  exprs : Rehomes (found.alternatives ++ found.duplicates) target memo memo'
  groups_size : memo'.groups.size = memo.groups.size
  emptied : ∃ group, memo'.group? source = some group ∧ group.alternatives = [] ∧
    group.duplicates = [] ∧ group.properties = found.properties ∧
    group.duplicateOf = found.duplicateOf
  extended : ∀ group, memo.group? target = some group → ∃ group', memo'.group? target = some group' ∧
    group'.alternatives = group.alternatives ++ found.alternatives ∧
    group'.duplicates = group.duplicates ++ found.duplicates ∧
    group'.properties = group.properties ∧ group'.duplicateOf = group.duplicateOf
  others : ∀ id, id ≠ source → id ≠ target → memo'.group? id = memo.group? id

theorem moves_moveAlternatives {source target : GroupId} {found : Group}
    (hsource : memo.group? source = some found) (hne : source ≠ target) :
    Moves source target found memo (memo.moveAlternatives source target) := by
  set emptied := memo.modifyGroup source fun group =>
    { group with alternatives := [], duplicates := [], statistics := none } with hemptied
  have hgroup (id : GroupId) : emptied.group? id = if source = id then
      (memo.group? id).map fun group =>
        { group with alternatives := [], duplicates := [], statistics := none }
      else memo.group? id := group?_modifyGroup
  unfold moveAlternatives
  simp only [hsource]
  rw [← hemptied]
  split
  · rename_i hnone
    -- there is nothing to move
    simp only [Bool.and_eq_true, List.isEmpty_iff] at hnone
    refine ⟨?_, groups_size_modifyGroup, ?_, ?_, ?_⟩
    · rw [hnone.1, hnone.2]
      exact .refl target _
    · rw [hgroup, if_pos rfl, hsource]
      exact ⟨_, rfl, rfl, rfl, rfl, rfl⟩
    · intro group htarget
      refine ⟨group, ?_, ?_, ?_, rfl, rfl⟩
      · rw [hgroup, if_neg hne, htarget]
      · rw [hnone.1, List.append_nil]
      · rw [hnone.2, List.append_nil]
    · intro id hid _
      rw [hgroup, if_neg (Ne.symm hid)]
  · obtain ⟨hrehomes, exprs, hframe⟩ := rehomes_both emptied found.alternatives
      found.duplicates target rfl rfl
    refine ⟨hrehomes, ?_, ?_, ?_, ?_⟩
    · rw [groups_size_modifyGroup, hframe]
      exact groups_size_modifyGroup
    · rw [group?_modifyGroup, if_neg (Ne.symm hne), hframe]
      show ∃ group, emptied.group? source = some group ∧ _
      rw [hgroup, if_pos rfl, hsource]
      exact ⟨_, rfl, rfl, rfl, rfl, rfl⟩
    · intro group htarget
      rw [group?_modifyGroup, if_pos rfl, hframe]
      show ∃ group', (emptied.group? target).map _ = some group' ∧ _
      rw [hgroup, if_neg hne, htarget]
      exact ⟨_, rfl, rfl, rfl, rfl, rfl⟩
    · intro id hid htarget
      rw [group?_modifyGroup, if_neg (Ne.symm htarget), hframe]
      show emptied.group? id = _
      rw [hgroup, if_neg (Ne.symm hid)]

namespace Moves

variable {source target : GroupId} {found : Group}

/-- Moving alternatives leaves the links. -/
theorem link? (hmoves : Moves source target found memo memo')
    (hsource : memo.group? source = some found) (id : GroupId) :
    memo'.link? id = memo.link? id := by
  unfold Memo.link?
  by_cases hid : id = source
  · subst hid
    obtain ⟨group, hgroup, _, _, _, hlink⟩ := hmoves.emptied
    rw [hgroup, hsource]
    exact hlink
  · by_cases htarget : id = target
    · subst htarget
      cases hgroup : memo.group? id with
      | none =>
          rw [Memo.group?_eq_none, ← hmoves.groups_size, ← Memo.group?_eq_none] at hgroup
          rw [hgroup]
      | some group =>
          obtain ⟨group', hgroup', _, _, _, hlink⟩ := hmoves.extended group hgroup
          rw [hgroup']
          exact hlink
    · rw [hmoves.others id hid htarget]

/-- What a group lists after alternatives were moved. -/
theorem listed (hmoves : Moves source target found memo memo')
    (hsource : memo.group? source = some found) {id : GroupId} {group' : Group}
    (hgroup' : memo'.group? id = some group') :
    ∃ group, memo.group? id = some group ∧ group'.properties = group.properties ∧
      (id ≠ source → group.alternatives <+: group'.alternatives) ∧
      ∀ alternative ∈ group'.alternatives ++ group'.duplicates, id ≠ source ∧
        (alternative ∈ group.alternatives ++ group.duplicates ∨
          id = target ∧ alternative ∈ found.alternatives ++ found.duplicates) := by
  by_cases hid : id = source
  · subst hid
    obtain ⟨group, hgroup, halternatives, hduplicates, hproperties, _⟩ := hmoves.emptied
    rw [hgroup'] at hgroup
    obtain rfl := Option.some.inj hgroup
    exact ⟨found, hsource, hproperties, fun h => absurd rfl h,
      by simp [halternatives, hduplicates]⟩
  · by_cases htarget : id = target
    · subst htarget
      obtain ⟨group, hgroup⟩ := exists_group?_eq_some.mpr
        (hmoves.groups_size ▸ exists_group?_eq_some.mp ⟨group', hgroup'⟩)
      obtain ⟨extended, hextended, halternatives, hduplicates, hproperties, _⟩ :=
        hmoves.extended group hgroup
      rw [hgroup'] at hextended
      obtain rfl := Option.some.inj hextended
      refine ⟨group, hgroup, hproperties, fun _ => ⟨_, halternatives.symm⟩, ?_⟩
      intro alternative hmem
      rw [halternatives, hduplicates] at hmem
      simp only [List.mem_append] at hmem ⊢
      tauto
    · rw [hmoves.others id hid htarget] at hgroup'
      exact ⟨group', hgroup', rfl, fun _ => List.prefix_rfl, fun _ hmem => ⟨hid, .inl hmem⟩⟩

end Moves

/-- Alternatives may have moved between groups with the same master, and nothing else about what they
compute has changed. The memo is in order afterwards. -/
structure Regroups (memo memo' : Memo) : Prop where
  wellFormed : memo'.WellFormed
  groups : ∀ id, (memo'.group? id).map (·.properties) = (memo.group? id).map (·.properties)
  masters : ∀ id, memo'.master id = memo.master id
  exprs_size : memo'.exprs.size = memo.exprs.size
  exprs : ∀ id expr', memo'.expr? id = some expr' → ∃ expr, memo.expr? id = some expr ∧
    expr'.op = expr.op ∧ expr'.children = expr.children ∧
    memo.master expr'.group = memo.master expr.group

namespace Regroups

variable {memo'' : Memo}

protected theorem refl (h : memo.WellFormed) : Regroups memo memo :=
  ⟨h, fun _ => rfl, fun _ => rfl, rfl, fun _ expr hexpr => ⟨expr, hexpr, rfl, rfl, rfl⟩⟩

protected theorem trans (h : Regroups memo memo') (h' : Regroups memo' memo'') :
    Regroups memo memo'' where
  wellFormed := h'.wellFormed
  groups id := (h'.groups id).trans (h.groups id)
  masters id := (h'.masters id).trans (h.masters id)
  exprs_size := h'.exprs_size.trans h.exprs_size
  exprs id expr'' hexpr'' := by
    obtain ⟨expr', hexpr', hop', hchildren', howner'⟩ := h'.exprs id expr'' hexpr''
    obtain ⟨expr, hexpr, hop, hchildren, howner⟩ := h.exprs id expr' hexpr'
    rw [h.masters, h.masters] at howner'
    exact ⟨expr, hexpr, hop'.trans hop, hchildren'.trans hchildren, howner'.trans howner⟩

theorem groups_size (h : Regroups memo memo') : memo'.groups.size = memo.groups.size :=
  groups_size_congr fun id => by simpa using congrArg Option.isSome (h.groups id)

/-- A loop whose rounds only regroup alternatives only regroups them. -/
theorem foldl {α : Type} {items : List α} {change : Memo → α → Memo} (h : memo.WellFormed)
    (hround : ∀ item ∈ items, ∀ current, Regroups memo current →
      Regroups current (change current item)) :
    Regroups memo (items.foldl change memo) := by
  suffices hall : ∀ current, Regroups memo current → Regroups memo (items.foldl change current) from
    hall memo (.refl h)
  induction items with
  | nil => exact fun _ hcurrent => hcurrent
  | cons item rest ih =>
      intro current hcurrent
      refine ih (fun other hother => hround other (by simp [hother])) _ ?_
      exact hcurrent.trans (hround item (by simp) current hcurrent)

end Regroups

/-- What planning stores regroups nothing. -/
theorem SameQuery.regroups (hsame : SameQuery memo memo') (h : memo.WellFormed) :
    Regroups memo memo' where
  wellFormed := hsame.wellFormed h
  groups := hsame.map_group? _ fun _ => rfl
  masters := hsame.master h.linksEnd
  exprs_size := hsame.exprs_size
  exprs id expr' hexpr' := by
    obtain ⟨expr, hexpr, houtline⟩ := hsame.exists_expr_before hexpr'
    exact ⟨expr, hexpr, congrArg (·.op) houtline, congrArg (·.children) houtline,
      congrArg memo.master (congrArg (·.group) houtline)⟩

/-- Leaving the content regroups nothing. -/
theorem SameContent.regroups (hsame : SameContent memo memo') (h : memo.WellFormed) :
    Regroups memo memo' :=
  hsame.sameQuery.regroups h

namespace Rehomes

variable {moved : List ExprId} {target : GroupId} (hrehomes : Rehomes moved target memo memo')
include hrehomes

/-- An alternative afterwards is one from before, with a new owner if it was moved. -/
theorem exists_expr_before {id : ExprId} {expr' : MemoExpr} (hexpr' : memo'.expr? id = some expr') :
    ∃ expr, memo.expr? id = some expr ∧ expr'.op = expr.op ∧ expr'.children = expr.children ∧
      expr'.group = if id ∈ moved then target else expr.group := by
  obtain ⟨position, hposition⟩ := hrehomes id
  rw [hexpr'] at hposition
  obtain ⟨expr, hexpr, rfl⟩ := Option.map_eq_some_iff.mp hposition.symm
  exact ⟨expr, hexpr, rfl, rfl, rfl⟩

/-- An alternative is still there afterwards, with a new owner if it was moved. -/
theorem exists_expr {id : ExprId} {expr : MemoExpr} (hexpr : memo.expr? id = some expr) :
    ∃ expr', memo'.expr? id = some expr' ∧ expr'.op = expr.op ∧
      expr'.group = if id ∈ moved then target else expr.group := by
  obtain ⟨position, hposition⟩ := hrehomes id
  rw [hexpr] at hposition
  exact ⟨_, hposition, rfl, rfl⟩

theorem exprs_size : memo'.exprs.size = memo.exprs.size := by
  have hknown (index : Nat) : index < memo'.exprs.size ↔ index < memo.exprs.size := by
    obtain ⟨position, hposition⟩ := hrehomes ⟨index⟩
    rw [← expr?_isSome ⟨index⟩, hposition, Option.isSome_map, expr?_isSome]
  have hbelow := hknown memo.exprs.size
  have habove := hknown memo'.exprs.size
  omega

/-- New owners with the same masters as the old ones are a regrouping when the groups list the
alternatives that they own afterwards. -/
theorem regroups (h : memo.WellFormed) (htarget : target.index < memo.groups.size)
    (hsize : memo'.groups.size = memo.groups.size)
    (hlinks : ∀ id, memo'.link? id = memo.link? id)
    (hproperties : ∀ id, (memo'.group? id).map (·.properties) = (memo.group? id).map (·.properties))
    (hmoved : ∀ id ∈ moved, ∀ expr, memo.expr? id = some expr →
      memo.master target = memo.master expr.group)
    (hlisted : ∀ id group', memo'.group? id = some group' →
      ∀ alternative ∈ group'.alternatives ++ group'.duplicates,
        ∃ expr, memo.expr? alternative = some expr ∧
          (if alternative ∈ moved then target else expr.group) = id)
    (hsupplied : ∀ id group', memo'.group? id = some group' → memo.master id = id →
      ∃ first expr, group'.alternatives.head? = some first ∧ memo.expr? first = some expr ∧
        expr.op.isPhysical = false) : Regroups memo memo' := by
  have hmasters := master_congr _ h.linksEnd hlinks
  refine ⟨⟨⟨h.linksEnd.congr hlinks, ?_, ?_, ?_, ?_, ?_⟩, ?_⟩, hproperties, hmasters,
    hrehomes.exprs_size, ?_⟩
  -- links, owners, children and arities stay in range
  · intro id hid
    rw [hsize] at hid ⊢
    rw [hmasters]
    exact h.masterKnown id hid
  · intro id expr' hexpr'
    obtain ⟨expr, hexpr, _, _, howner⟩ := hrehomes.exists_expr_before hexpr'
    rw [hsize, howner]
    split
    · exact htarget
    · exact h.ownerKnown id expr hexpr
  · intro id expr' hexpr'
    obtain ⟨expr, hexpr, _, hchildren, _⟩ := hrehomes.exists_expr_before hexpr'
    rw [hsize, hchildren]
    exact h.childKnown id expr hexpr
  · intro id expr' hexpr'
    obtain ⟨expr, hexpr, hop, hchildren, _⟩ := hrehomes.exists_expr_before hexpr'
    rw [hop, hchildren]
    exact h.arity id expr hexpr
  · intro id group' hgroup' alternative hmem
    obtain ⟨expr, hexpr, howner⟩ := hlisted id group' hgroup' alternative hmem
    obtain ⟨expr', hexpr', _, howner'⟩ := hrehomes.exists_expr hexpr
    exact ⟨expr', hexpr', howner'.trans howner⟩
  -- a master still starts with an alternative that is not physical
  · intro id group' hgroup' hmaster
    obtain ⟨first, expr, hfirst, hexpr, hop⟩ :=
      hsupplied id group' hgroup' ((hmasters id).symm.trans hmaster)
    obtain ⟨expr', hexpr', hop', _⟩ := hrehomes.exists_expr hexpr
    exact ⟨first, expr', hfirst, hexpr', hop' ▸ hop⟩
  · intro id expr' hexpr'
    obtain ⟨expr, hexpr, hop, hchildren, howner⟩ := hrehomes.exists_expr_before hexpr'
    refine ⟨expr, hexpr, hop, hchildren, ?_⟩
    rw [howner]
    split
    · rename_i hmem
      exact hmoved id hmem expr hexpr
    · rfl

end Rehomes

namespace Moves

variable {source target : GroupId} {found : Group}

/-- Groups keep their properties. -/
theorem properties (hmoves : Moves source target found memo memo')
    (hsource : memo.group? source = some found) (id : GroupId) :
    (memo'.group? id).map (·.properties) = (memo.group? id).map (·.properties) := by
  cases hgroup' : memo'.group? id with
  | none =>
      rw [group?_eq_none, hmoves.groups_size, ← group?_eq_none] at hgroup'
      rw [hgroup']
  | some group' =>
      obtain ⟨group, hgroup, hproperties, _⟩ := hmoves.listed hsource hgroup'
      rw [hgroup]
      exact congrArg some hproperties

/-- Moving the alternatives of a linked group to its master is a regrouping. The alternatives that
move change their owner and the list they are on together, because they are on no other list. -/
theorem regroups (hmoves : Moves source target found memo memo') (h : memo.WellFormed)
    (hsource : memo.group? source = some found) (hmaster : memo.master source = target)
    (hne : source ≠ target) : Regroups memo memo' := by
  have hmasterTarget : memo.master target = target := hmaster ▸ h.linksEnd.master_master source
  have hown (id : ExprId) (expr : MemoExpr) (hexpr : memo.expr? id = some expr)
      (hmem : id ∈ found.alternatives ++ found.duplicates) : expr.group = source := by
    obtain ⟨other, hother, howner⟩ := h.listed source found hsource id hmem
    rw [hexpr] at hother
    exact Option.some.inj hother ▸ howner
  refine hmoves.exprs.regroups h ?_ hmoves.groups_size (hmoves.link? hsource)
    (hmoves.properties hsource) ?_ ?_ ?_
  · exact hmaster ▸ h.masterKnown source (exists_group?_eq_some.mp ⟨found, hsource⟩)
  · intro id hmem expr hexpr
    rw [hown id expr hexpr hmem, hmaster, hmasterTarget]
  · intro id group' hgroup' alternative hmem
    obtain ⟨group, hgroup, _, _, hlisted⟩ := hmoves.listed hsource hgroup'
    obtain ⟨hid, hmem | ⟨rfl, hmem⟩⟩ := hlisted alternative hmem
    · obtain ⟨expr, hexpr, howner⟩ := h.listed id group hgroup alternative hmem
      refine ⟨expr, hexpr, ?_⟩
      rw [if_neg, howner]
      intro hmoved
      exact hid (howner.symm.trans (hown alternative expr hexpr hmoved))
    · obtain ⟨expr, hexpr, _⟩ := h.listed source found hsource alternative hmem
      exact ⟨expr, hexpr, if_pos hmem⟩
  · intro id group' hgroup' hmasterId
    obtain ⟨group, hgroup, _, hfront, _⟩ := hmoves.listed hsource hgroup'
    have hid : id ≠ source := by
      rintro rfl
      exact hne (hmasterId.symm.trans hmaster)
    obtain ⟨first, expr, hfirst, hexpr⟩ := h.supplied id group hgroup hmasterId
    exact ⟨first, expr, head?_of_prefix (hfront hid) hfirst, hexpr⟩

end Moves

/-- Moving the alternatives of a linked group to its master is a regrouping, also when there is no
such group. -/
theorem WellFormed.moveAlternatives (h : memo.WellFormed) {source target : GroupId}
    (hmaster : memo.master source = target) (hne : source ≠ target) :
    Regroups memo (memo.moveAlternatives source target) := by
  cases hsource : memo.group? source with
  | none =>
      simp only [Memo.moveAlternatives, hsource]
      exact .refl h
  | some found => exact (moves_moveAlternatives hsource hne).regroups h hsource hmaster hne

/-- Moving the alternatives of several linked groups to their common master. -/
theorem WellFormed.foldl_moveAlternatives (h : memo.WellFormed) {sources : List GroupId}
    {target : GroupId} (hsources : ∀ source ∈ sources, memo.master source = target ∧
      source ≠ target) :
    Regroups memo (sources.foldl (fun memo below => memo.moveAlternatives below target) memo) :=
  Regroups.foldl h fun source hsource _ hcurrent =>
    hcurrent.wellFormed.moveAlternatives ((hcurrent.masters source).trans (hsources source hsource).1)
      (hsources source hsource).2

/-! ## Dropping repeated alternatives -/

/-- A loop that puts every alternative on one of two lists, the first one on the first list. -/
theorem foldl_split {round : Memo × List ExprId × List ExprId → ExprId →
      Memo × List ExprId × List ExprId}
    (hround : ∀ state id, SameContent state.1 (round state id).1 ∧
      ((round state id).2 = (state.2.1 ++ [id], state.2.2) ∨
        state.2.1 ≠ [] ∧ (round state id).2 = (state.2.1, state.2.2 ++ [id])))
    (ids : List ExprId) (state : Memo × List ExprId × List ExprId) :
    SameContent state.1 (ids.foldl round state).1 ∧
      ((ids.foldl round state).2.1 ++ (ids.foldl round state).2.2).Perm
        (state.2.1 ++ state.2.2 ++ ids) ∧
      (ids.foldl round state).2.1.head? = (state.2.1 ++ ids).head? := by
  induction ids generalizing state with
  | nil => exact ⟨.refl _, by simp, by simp⟩
  | cons first rest ih =>
      obtain ⟨hsame, hlists⟩ := hround state first
      obtain ⟨hrest, hperm, hhead⟩ := ih (round state first)
      refine ⟨hsame.trans hrest, hperm.trans ?_, hhead.trans ?_⟩
      · rw [← List.singleton_append, ← List.append_assoc]
        refine List.Perm.append_right rest ?_
        rcases hlists with hlists | ⟨_, hlists⟩ <;> rw [hlists]
        · rw [List.append_assoc, List.append_assoc]
          exact List.perm_append_comm.append_left _
        · rw [List.append_assoc]
      · rcases hlists with hlists | ⟨hne, hlists⟩ <;> rw [hlists]
        · rw [List.append_assoc, List.singleton_append]
        · rw [List.head?_append_of_ne_nil _ hne, List.head?_append_of_ne_nil _ hne]

/-- One round of `splitRepeated`. -/
def splitRound (state : Memo × List ExprId × List ExprId) (id : ExprId) :
    Memo × List ExprId × List ExprId :=
  match state.1.expr? id with
  | none => (state.1, state.2.1 ++ [id], state.2.2)
  | some expr =>
    let candidates := state.1.twinCandidates expr (state.2.1.filterMap state.1.expr?)
    let looked := state.1.compressAll
      (candidates.flatMap fun other => other.children ++ expr.children)
    if candidates.any fun other => state.1.isTwin other expr.op expr.children then
      (looked, state.2.1, state.2.2 ++ [id])
    else (looked, state.2.1 ++ [id], state.2.2)

theorem splitRepeated_eq_foldl (ids : List ExprId) :
    memo.splitRepeated ids = ids.foldl splitRound (memo, [], []) := rfl

/-- Splitting alternatives into kept and dropped ones loses none, keeps the first one, and leaves the
content of the memo. -/
theorem splitRepeated_spec (memo : Memo) (ids : List ExprId) :
    SameContent memo (memo.splitRepeated ids).1 ∧
      ((memo.splitRepeated ids).2.1 ++ (memo.splitRepeated ids).2.2).Perm ids ∧
      (memo.splitRepeated ids).2.1.head? = ids.head? := by
  have hround (state : Memo × List ExprId × List ExprId) (id : ExprId) :
      SameContent state.1 (splitRound state id).1 ∧
        ((splitRound state id).2 = (state.2.1 ++ [id], state.2.2) ∨
          state.2.1 ≠ [] ∧ (splitRound state id).2 = (state.2.1, state.2.2 ++ [id])) := by
    unfold splitRound
    cases hexpr : state.1.expr? id with
    | none => exact ⟨.refl _, .inl rfl⟩
    | some expr =>
        dsimp only
        split
        · rename_i hrepeats
          refine ⟨sameContent_compressAll, .inr ⟨?_, rfl⟩⟩
          -- with nothing kept there is nothing to repeat
          intro hempty
          simp [hempty, twinCandidates] at hrepeats
        · exact ⟨sameContent_compressAll, .inl rfl⟩
  rw [splitRepeated_eq_foldl]
  exact foldl_split hround ids (memo, [], [])

/-- The groups after what one of them lists was split in another way. -/
theorem group?_relist (memo : Memo) (id : GroupId) (kept dropped : List ExprId) (other : GroupId) :
    ((kept.zipIdx.foldl
      (fun memo alternative => memo.setOwner alternative.1 id alternative.2) memo).modifyGroup id
        fun group => { group with
          alternatives := kept, duplicates := group.duplicates ++ dropped }).group? other =
      if id = other then (memo.group? other).map fun group =>
        { group with alternatives := kept, duplicates := group.duplicates ++ dropped }
      else memo.group? other := by
  obtain ⟨exprs, hframe⟩ := foldl_modifyExpr_frame memo kept.zipIdx
    (fun alternative => alternative.1) (fun alternative expr =>
      { expr with group := id, position := alternative.2 })
  rw [group?_modifyGroup]
  unfold setOwner
  rw [hframe]
  rfl

/-- Splitting what a group lists leaves the links. -/
theorem link?_relist (memo : Memo) (id : GroupId) (kept dropped : List ExprId) (other : GroupId) :
    ((kept.zipIdx.foldl
      (fun memo alternative => memo.setOwner alternative.1 id alternative.2) memo).modifyGroup id
        fun group => { group with
          alternatives := kept, duplicates := group.duplicates ++ dropped }).link? other =
      memo.link? other := by
  unfold Memo.link?
  rw [group?_relist]
  split
  · cases memo.group? other <;> rfl
  · rfl

/-- What a group lists is split into alternatives in use and duplicates in another way. -/
theorem WellFormed.relist (h : memo.WellFormed) {id : GroupId} {group : Group}
    (hgroup : memo.group? id = some group) {kept dropped : List ExprId}
    (hmem : ∀ alternative, alternative ∈ kept ∨ alternative ∈ dropped ↔
      alternative ∈ group.alternatives)
    (hkept : kept.head? = group.alternatives.head?) :
    Regroups memo ((kept.zipIdx.foldl
      (fun memo alternative => memo.setOwner alternative.1 id alternative.2) memo).modifyGroup id
        fun group => { group with alternatives := kept, duplicates := group.duplicates ++ dropped }) := by
  set renumbered := kept.zipIdx.foldl
    (fun memo alternative => memo.setOwner alternative.1 id alternative.2) memo with hrenumbered
  set final := renumbered.modifyGroup id fun group =>
    { group with alternatives := kept, duplicates := group.duplicates ++ dropped } with hfinal
  have hrehomes : Rehomes kept id memo final := by
    have hfold := Rehomes.foldl id memo kept.zipIdx (fun alternative => alternative.1)
      (fun alternative _ => alternative.2) fun _ _ => rfl
    rwa [show kept.zipIdx.map (fun alternative => alternative.1) = kept from
      List.zipIdx_map_fst ..] at hfold
  have hgroups (other : GroupId) : final.group? other = if id = other then
      (memo.group? other).map fun group =>
        { group with alternatives := kept, duplicates := group.duplicates ++ dropped }
      else memo.group? other := group?_relist memo id kept dropped other
  -- the group lists what is kept, all others are as before
  have hfound (other : GroupId) (group' : Group) (hgroup' : final.group? other = some group') :
      ∃ before, memo.group? other = some before ∧ group'.properties = before.properties ∧
        group'.duplicateOf = before.duplicateOf ∧
        (other = id ∧ group'.alternatives = kept ∧ group'.duplicates = group.duplicates ++ dropped ∨
          other ≠ id ∧ group' = before) := by
    rw [hgroups] at hgroup'
    split at hgroup'
    · rename_i hid
      subst hid
      rw [hgroup] at hgroup'
      obtain rfl := Option.some.inj hgroup'
      exact ⟨group, hgroup, rfl, rfl, .inl ⟨rfl, rfl, rfl⟩⟩
    · rename_i hid
      exact ⟨group', hgroup', rfl, rfl, .inr ⟨Ne.symm hid, rfl⟩⟩
  refine hrehomes.regroups h (exists_group?_eq_some.mp ⟨group, hgroup⟩) ?_ ?_ ?_ ?_ ?_ ?_
  · obtain ⟨exprs, hframe⟩ := foldl_modifyExpr_frame memo kept.zipIdx
      (fun alternative => alternative.1) (fun alternative expr =>
        { expr with group := id, position := alternative.2 })
    rw [hfinal, groups_size_modifyGroup, hrenumbered]
    unfold setOwner
    rw [hframe]
  · exact link?_relist memo id kept dropped
  · intro other
    rw [hgroups]
    split
    · cases memo.group? other <;> rfl
    · rfl
  · intro alternative hmoved expr hexpr
    have hlisted := (hmem alternative).mp (.inl hmoved)
    obtain ⟨other, hother, howner⟩ := h.listed id group hgroup alternative (by simp [hlisted])
    rw [hexpr] at hother
    rw [Option.some.inj hother, howner]
  · intro other group' hgroup' alternative hlisted
    obtain ⟨before, hbefore, _, _, ⟨rfl, halternatives, hduplicates⟩ | ⟨hne, rfl⟩⟩ :=
      hfound other group' hgroup'
    · have hold : alternative ∈ group.alternatives ++ group.duplicates := by
        -- what the group lists now it listed before
        rw [halternatives, hduplicates] at hlisted
        simp only [List.mem_append] at hlisted ⊢
        have := hmem alternative
        tauto
      obtain ⟨expr, hexpr, howner⟩ := h.listed other group hgroup alternative hold
      exact ⟨expr, hexpr, by rw [howner, ite_self]⟩
    · obtain ⟨expr, hexpr, howner⟩ := h.listed other group' hbefore alternative hlisted
      refine ⟨expr, hexpr, ?_⟩
      -- another group lists none of what is kept, for that is owned by this one
      rw [if_neg, howner]
      intro hmoved
      have hlisted := (hmem alternative).mp (.inl hmoved)
      obtain ⟨other', hother, howner'⟩ := h.listed id group hgroup alternative (by simp [hlisted])
      rw [hexpr] at hother
      obtain rfl := Option.some.inj hother
      exact hne (howner.symm.trans howner')
  · intro other group' hgroup' hmaster
    obtain ⟨before, hbefore, _, _, ⟨rfl, halternatives, _⟩ | ⟨_, rfl⟩⟩ := hfound other group' hgroup'
    · rw [halternatives, hkept]
      exact h.supplied other group hgroup hmaster
    · exact h.supplied other group' hbefore hmaster

/-- Dropping the repeated alternatives of a group is a regrouping. -/
theorem WellFormed.dropRepeated (h : memo.WellFormed) (id : GroupId) :
    Regroups memo (memo.dropRepeated id) := by
  unfold Memo.dropRepeated
  cases hgroup : memo.group? id with
  | none => exact .refl h
  | some group =>
      dsimp only
      split
      · exact .refl h
      · obtain ⟨hsame, hperm, hkept⟩ := splitRepeated_spec memo group.alternatives
        obtain ⟨group', hgroup', hcontent⟩ := hsame.exists_group hgroup
        have hlooked := hsame.regroups h
        generalize memo.splitRepeated group.alternatives = result at *
        obtain ⟨looked, kept, dropped⟩ := result
        dsimp only
        split
        · exact hlooked
        · have halternatives : group'.alternatives = group.alternatives :=
            congrArg (·.alternatives) hcontent
          refine hlooked.trans (hlooked.wellFormed.relist hgroup' ?_ ?_)
          · intro alternative
            rw [halternatives, ← List.mem_append, hperm.mem_iff]
          · rw [halternatives]
            exact hkept

/-! ## Merging -/

/-- The groups from a group up to its master are linked ones, each with the same master. -/
theorem LinksEnd.master_of_mem_takeWhile (hends : memo.LinksEnd) {source into below : GroupId}
    (hmaster : memo.master source = into)
    (hmem : below ∈ (source :: memo.chain source).takeWhile (· ≠ into)) :
    memo.master below = into ∧ below ≠ into := by
  constructor
  · rcases List.mem_cons.mp (List.takeWhile_subset _ hmem) with rfl | hchain
    · exact hmaster
    · exact (hends.master_of_mem_chain hchain).trans hmaster
  · simpa using List.mem_takeWhile_imp hmem

/-- The groups with the first master get the second one; alternatives may have moved between groups
that have the same master afterwards. -/
structure Unites (joining into : GroupId) (memo memo' : Memo) : Prop where
  wellFormed : memo'.WellFormed
  groups : ∀ id, (memo'.group? id).map (·.properties) = (memo.group? id).map (·.properties)
  masters : ∀ id, memo'.master id = if memo.master id = joining then into else memo.master id
  exprs_size : memo'.exprs.size = memo.exprs.size
  exprs : ∀ id expr', memo'.expr? id = some expr' → ∃ expr, memo.expr? id = some expr ∧
    expr'.op = expr.op ∧ expr'.children = expr.children ∧
    memo'.master expr'.group = memo'.master expr.group

namespace Unites

variable {joining into : GroupId} {memo'' : Memo}

/-- Regrouping before. -/
theorem after (h' : Unites joining into memo' memo'') (h : Regroups memo memo') :
    Unites joining into memo memo'' where
  wellFormed := h'.wellFormed
  groups id := (h'.groups id).trans (h.groups id)
  masters id := by rw [h'.masters, h.masters]
  exprs_size := h'.exprs_size.trans h.exprs_size
  exprs id expr'' hexpr'' := by
    obtain ⟨expr', hexpr', hop', hchildren', howner'⟩ := h'.exprs id expr'' hexpr''
    obtain ⟨expr, hexpr, hop, hchildren, howner⟩ := h.exprs id expr' hexpr'
    refine ⟨expr, hexpr, hop'.trans hop, hchildren'.trans hchildren, howner'.trans ?_⟩
    rw [h'.masters, h'.masters, h.masters, h.masters, howner]

/-- Regrouping afterwards. -/
theorem trans (h : Unites joining into memo memo') (h' : Regroups memo' memo'') :
    Unites joining into memo memo'' where
  wellFormed := h'.wellFormed
  groups id := (h'.groups id).trans (h.groups id)
  masters id := (h'.masters id).trans (h.masters id)
  exprs_size := h'.exprs_size.trans h.exprs_size
  exprs id expr'' hexpr'' := by
    obtain ⟨expr', hexpr', hop', hchildren', howner'⟩ := h'.exprs id expr'' hexpr''
    obtain ⟨expr, hexpr, hop, hchildren, howner⟩ := h.exprs id expr' hexpr'
    refine ⟨expr, hexpr, hop'.trans hop, hchildren'.trans hchildren, ?_⟩
    rw [h'.masters, h'.masters, howner', howner]

theorem groups_size (h : Unites joining into memo memo') :
    memo'.groups.size = memo.groups.size :=
  groups_size_congr fun id => by simpa using congrArg Option.isSome (h.groups id)

end Unites

/-- Regrouping unites a class with itself only. -/
theorem Regroups.unites (h : Regroups memo memo') (id : GroupId) : Unites id id memo memo' where
  wellFormed := h.wellFormed
  groups := h.groups
  masters other := by
    rw [h.masters]
    split
    · assumption
    · rfl
  exprs_size := h.exprs_size
  exprs other expr' hexpr' := by
    obtain ⟨expr, hexpr, hop, hchildren, howner⟩ := h.exprs other expr' hexpr'
    exact ⟨expr, hexpr, hop, hchildren, by rw [h.masters, h.masters, howner]⟩

/-- Uniting a class with itself is a regrouping. -/
theorem Unites.regroups {into : GroupId} (h : Unites into into memo memo') :
    Regroups memo memo' := by
  have hmasters (id : GroupId) : memo'.master id = memo.master id := by
    rw [h.masters]
    split
    · rename_i hinto
      exact hinto.symm
    · rfl
  refine ⟨h.wellFormed, h.groups, hmasters, h.exprs_size, fun id expr' hexpr' => ?_⟩
  obtain ⟨expr, hexpr, hop, hchildren, howner⟩ := h.exprs id expr' hexpr'
  rw [hmasters, hmasters] at howner
  exact ⟨expr, hexpr, hop, hchildren, howner⟩

/-- Linking one master to another unites their classes. -/
theorem WellFormed.unites_setLink (h : memo.WellFormed) {joining into : GroupId}
    (hjoining : memo.master joining = joining) (hinto : memo.master into = into)
    (hne : joining ≠ into) (hjoiningKnown : joining.index < memo.groups.size)
    (hintoKnown : into.index < memo.groups.size) :
    Unites joining into memo (memo.setLink joining into) where
  wellFormed := h.setLink hjoining hinto hne hjoiningKnown hintoKnown
  groups id := by
    have hcontent := congrArg (Option.map Group.properties)
      (group?_setLink_content memo joining into id)
    rwa [Option.map_map, Option.map_map] at hcontent
  masters := master_setLink h.linksEnd (h.linksEnd.master_eq_self_iff.mp hjoining)
    (h.linksEnd.master_eq_self_iff.mp hinto) hne hjoiningKnown
  exprs_size := rfl
  exprs id expr hexpr := ⟨expr, hexpr, rfl, rfl, rfl⟩

/-- Recording that two groups compute the same result unites their classes. -/
theorem WellFormed.addDuplicate (h : memo.WellFormed) {left right : GroupId}
    (hleft : left.index < memo.groups.size) (hright : right.index < memo.groups.size) :
    ∃ joining into, Unites joining into memo (memo.addDuplicate left right) ∧
      (joining = memo.master left ∧ into = memo.master right ∨
        joining = memo.master right ∧ into = memo.master left) := by
  have hlooked : Regroups memo ((memo.compress left).compress right) :=
    ((sameContent_compress _).trans (sameContent_compress _)).regroups h
  have hends := hlooked.wellFormed.linksEnd
  unfold Memo.addDuplicate
  generalize (memo.compress left).compress right = looked at *
  rw [← hlooked.groups_size] at hleft hright
  have hfirst := hlooked.wellFormed.masterKnown left hleft
  have hsecond := hlooked.wellFormed.masterKnown right hright
  dsimp only
  split
  · rename_i hsame
    rw [hlooked.masters, hlooked.masters] at hsame
    exact ⟨_, _, hlooked.unites (memo.master left), .inl ⟨rfl, hsame⟩⟩
  · rename_i hne
    split
    · refine ⟨_, _, (hlooked.wellFormed.unites_setLink ?_ ?_ hne hfirst hsecond).after hlooked,
        .inl ⟨hlooked.masters left, hlooked.masters right⟩⟩ <;> exact hends.master_master _
    · refine ⟨_, _, (hlooked.wellFormed.unites_setLink ?_ ?_ (Ne.symm hne) hsecond
        hfirst).after hlooked, .inr ⟨hlooked.masters right, hlooked.masters left⟩⟩ <;>
          exact hends.master_master _

/-- Merging a group into another unites their classes. -/
theorem WellFormed.mergeInto (h : memo.WellFormed) {source target : GroupId}
    (hsource : source.index < memo.groups.size) (htarget : target.index < memo.groups.size) :
    Unites (memo.master source) (memo.master target) memo (memo.mergeInto source target) := by
  have hlooked : Regroups memo ((memo.compress source).compress target) :=
    ((sameContent_compress _).trans (sameContent_compress _)).regroups h
  have hends := hlooked.wellFormed.linksEnd
  unfold Memo.mergeInto
  generalize (memo.compress source).compress target = looked at *
  rw [← hlooked.groups_size] at hsource htarget
  have hjoining := hlooked.wellFormed.masterKnown source hsource
  have hinto := hlooked.wellFormed.masterKnown target htarget
  have hlinked : Unites (looked.master source) (looked.master target) looked
      (if looked.master source = looked.master target then looked
        else looked.setLink (looked.master source) (looked.master target)) := by
    split
    · rename_i hsame
      rw [hsame]
      exact (Regroups.refl hlooked.wellFormed).unites _
    · rename_i hne
      exact hlooked.wellFormed.unites_setLink (hends.master_master _) (hends.master_master _) hne
        hjoining hinto
  dsimp only
  generalize (if looked.master source = looked.master target then looked
    else looked.setLink (looked.master source) (looked.master target)) = linked at *
  have hmaster : linked.master source = looked.master target := by
    rw [hlinked.masters, if_pos rfl]
  have hmoved := hlinked.trans (hlinked.wellFormed.foldl_moveAlternatives fun below hbelow =>
    hlinked.wellFormed.linksEnd.master_of_mem_takeWhile hmaster hbelow)
  rw [hlooked.masters, hlooked.masters] at hmoved
  rw [hlooked.masters]
  exact hmoved.after hlooked

/-- Moving the alternatives of a duplicate group to its master is a regrouping. -/
theorem WellFormed.mergeToMaster (h : memo.WellFormed) (id : GroupId) :
    Regroups memo (memo.mergeToMaster id) := by
  unfold Memo.mergeToMaster
  cases hgroup : memo.group? id with
  | none => exact .refl h
  | some group =>
      dsimp only
      split
      · have hknown := exists_group?_eq_some.mp ⟨group, hgroup⟩
        have hunited := h.mergeInto hknown (h.masterKnown id hknown)
        rw [h.linksEnd.master_master] at hunited
        exact hunited.regroups
      · exact .refl h

/-- Merging duplicate groups is a regrouping. -/
theorem WellFormed.mergeDuplicates (h : memo.WellFormed) : Regroups memo memo.mergeDuplicates := by
  have hmoved : Regroups memo (memo.groupIds.foldl Memo.mergeToMaster memo) :=
    Regroups.foldl h fun id _ _ hcurrent => hcurrent.wellFormed.mergeToMaster id
  refine hmoved.trans (Regroups.foldl hmoved.wellFormed fun id _ _ hcurrent => ?_)
  exact hcurrent.wellFormed.dropRepeated id

end QueryPlanner.Memo
