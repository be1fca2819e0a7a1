import QueryPlanner.Proofs.Search.Progress

/-!
# Results that are found again

What was inserted is found again: after the result of a rule was inserted into a group without
uniting two groups, the group knows the result (`Memo.Knows`), and inserting it again adds nothing
(`Planning.Post.insertResult_known`). This stays so as long as the memo only grows and no groups are
united (`Memo.Knows.mono`).
-/

namespace QueryPlanner

open Memo (SameContent MastersRise)
open Planning (Keeps Post)

/-! ## Results that can be inserted -/

namespace RuleChild

mutual

/-- The child can be inserted: groups are known, and new expressions have the right number of
children and an operator that equals itself. -/
def Fits (memo : Memo) : RuleChild → Prop
  | .group id => id.index < memo.groups.size
  | .new op children => op.isPhysical = false ∧ op.same op = true ∧
      (∀ count, op.arity = some count → children.length = count) ∧ AllFit memo children

/-- All children can be inserted. -/
def AllFit (memo : Memo) : List RuleChild → Prop
  | [] => True
  | child :: rest => Fits memo child ∧ AllFit memo rest

end

variable {memo memo' : Memo}

mutual

theorem Fits.mono (hsize : memo.groups.size ≤ memo'.groups.size) : (child : RuleChild) →
    Fits memo child → Fits memo' child
  | .group _, h => by
      rw [Fits] at h ⊢
      exact h.trans_le hsize
  | .new _ children, h => by
      rw [Fits] at h ⊢
      exact ⟨h.1, h.2.1, h.2.2.1, AllFit.mono hsize children h.2.2.2⟩

theorem AllFit.mono (hsize : memo.groups.size ≤ memo'.groups.size) : (children : List RuleChild) →
    AllFit memo children → AllFit memo' children
  | [], h => h
  | child :: rest, h => by
      rw [AllFit] at h ⊢
      exact ⟨Fits.mono hsize child h.1, AllFit.mono hsize rest h.2⟩

end

end RuleChild

/-- The result can be inserted. -/
structure RuleResult.Fits (memo : Memo) (result : RuleResult) : Prop where
  plain : result.op.isPhysical = false
  same : result.op.same result.op = true
  arity : ∀ count, result.op.arity = some count → result.children.length = count
  children : RuleChild.AllFit memo result.children

theorem RuleResult.Fits.mono {memo memo' : Memo} {result : RuleResult} (h : result.Fits memo)
    (hsize : memo.groups.size ≤ memo'.groups.size) : result.Fits memo' :=
  { h with children := RuleChild.AllFit.mono hsize _ h.children }

namespace Memo

variable {memo memo' : Memo} {op : Operator} {children groups : List GroupId} {group : GroupId}
  {origin : Option Origin}

/-! ## Twins in a memo that grows -/

/-- The oldest twin stays the oldest one. -/
theorem Widens.findTwin? (h : memo.Widens memo') {twin : ExprId}
    (htwin : memo.findTwin? op children = some twin) : memo'.findTwin? op children = some twin := by
  obtain ⟨index, hindex, rfl⟩ := Option.map_eq_some_iff.mp htwin
  obtain ⟨hlt, hmatch, hfirst⟩ := Array.findIdx?_eq_some_iff_getElem.mp hindex
  have hlt' := hlt.trans_le h.exprs_size
  have hread (position : Nat) (hposition : position < memo.exprs.size)
      (hposition' : position < memo'.exprs.size) :
      memo'.exprs[position].op = memo.exprs[position].op ∧
        memo'.exprs[position].children = memo.exprs[position].children := by
    have hfound : memo.expr? ⟨position⟩ = some _ := Array.getElem?_eq_getElem hposition
    have hsame := h.exprs_of hfound (Array.getElem?_eq_getElem hposition')
    exact ⟨hsame.1, hsame.2.1⟩
  refine Option.map_eq_some_iff.mpr ⟨index, ?_, rfl⟩
  refine Array.findIdx?_eq_some_iff_getElem.mpr ⟨hlt', ?_, fun position hposition => ?_⟩
  · rw [(hread index hlt hlt').1, (hread index hlt hlt').2]
    exact hmatch
  · have hsame := hread position (hposition.trans hlt) (hposition.trans hlt')
    rw [hsame.1, hsame.2]
    exact hfirst position hposition

/-- An alternative that has no twin is found once it is added. -/
theorem findTwin?_addAlternative (hsame : op.same op = true)
    (hnone : memo.findTwin? op children = none) :
    (memo.addAlternative op children group origin).findTwin? op children =
      some ⟨memo.exprs.size⟩ := by
  have hnone := Option.map_eq_none_iff.mp hnone
  unfold Memo.findTwin? addAlternative
  dsimp only [modifyGroup]
  rw [Array.findIdx?_push, hnone]
  simp [hsame]

/-- An alternative is owned by the group that it was added to. -/
theorem exists_added (memo : Memo) (op : Operator) (children : List GroupId) (group : GroupId)
    (origin : Option Origin) : ∃ expr,
    (memo.addAlternative op children group origin).expr? ⟨memo.exprs.size⟩ = some expr ∧
      expr.group = group :=
  ⟨{ op, children, group, position := (memo.alternativesOf group).length, origin,
      level := memo.newLevel op children }, by rw [expr?_addAlternative, if_pos rfl], rfl⟩

/-! ## What a memo knows -/

mutual

/-- Inserting the child of a result finds this group. -/
inductive Finds (memo : Memo) : RuleChild → GroupId → Prop
  | group {id : GroupId} : Finds memo (.group id) (memo.master id)
  | new {op : Operator} {children : List RuleChild} {groups : List GroupId} {twin : ExprId}
      {expr : MemoExpr} (below : FindsAll memo children groups)
      (twin_found : memo.findTwin? op groups = some twin)
      (expr_found : memo.expr? twin = some expr) :
      Finds memo (.new op children) (memo.master expr.group)

/-- Inserting the children of a result finds these groups. -/
inductive FindsAll (memo : Memo) : List RuleChild → List GroupId → Prop
  | nil : FindsAll memo [] []
  | cons {child : RuleChild} {rest : List RuleChild} {group : GroupId} {groups : List GroupId}
      (first : Finds memo child group) (below : FindsAll memo rest groups) :
      FindsAll memo (child :: rest) (group :: groups)

end

/-- An alternative of the group, or of one with the same master, repeats the result. -/
structure Knows (memo : Memo) (group : GroupId) (result : RuleResult) : Prop where
  known : group.index < memo.groups.size
  fits : result.Fits memo
  repeated : ∃ groups twin expr, memo.FindsAll result.children groups ∧
    memo.findTwin? result.op groups = some twin ∧ memo.expr? twin = some expr ∧
    memo.master expr.group = memo.master group

mutual

theorem Finds.mono (hwidens : memo.Widens memo') (hmasters : ∀ id, memo'.master id = memo.master id) :
    {child : RuleChild} → {group : GroupId} → memo.Finds child group → memo'.Finds child group
  | .group id, _, .group => hmasters id ▸ .group
  | .new _ _, _, .new below htwin hexpr => by
      obtain ⟨expr', hexpr', _, _, hgroup⟩ := hwidens.exprs _ _ hexpr
      rw [← hgroup, ← hmasters]
      exact .new (FindsAll.mono hwidens hmasters below) (hwidens.findTwin? htwin) hexpr'

theorem FindsAll.mono (hwidens : memo.Widens memo')
    (hmasters : ∀ id, memo'.master id = memo.master id) :
    {children : List RuleChild} → {groups : List GroupId} → memo.FindsAll children groups →
    memo'.FindsAll children groups
  | [], _, .nil => .nil
  | _ :: _, _, .cons first below =>
      .cons (Finds.mono hwidens hmasters first) (FindsAll.mono hwidens hmasters below)

end

theorem FindsAll.length_eq {children : List RuleChild} {groups : List GroupId}
    (h : memo.FindsAll children groups) : groups.length = children.length := by
  induction children generalizing groups with
  | nil =>
      cases h
      rfl
  | cons child rest ih =>
      cases h with
      | cons _ below => exact congrArg (· + 1) (ih below)

/-- Inserting finds known masters. -/
theorem Finds.master_eq (hwell : memo.WellFormed) {child : RuleChild} {group : GroupId}
    (h : memo.Finds child group) (hfits : child.Fits memo) :
    memo.master group = group ∧ group.index < memo.groups.size := by
  cases h with
  | @group id =>
      rw [RuleChild.Fits] at hfits
      exact ⟨hwell.linksEnd.master_master id, hwell.masterKnown id hfits⟩
  | @new _ _ _ twin expr _ _ hexpr =>
      exact ⟨hwell.linksEnd.master_master _,
        hwell.masterKnown _ (hwell.ownerKnown twin expr hexpr)⟩

theorem FindsAll.master_eq (hwell : memo.WellFormed) {children : List RuleChild}
    {groups : List GroupId} (h : memo.FindsAll children groups)
    (hfits : RuleChild.AllFit memo children) :
    groups.map memo.master = groups ∧ ∀ group ∈ groups, group.index < memo.groups.size := by
  induction children generalizing groups with
  | nil =>
      cases h
      exact ⟨rfl, by simp⟩
  | cons child rest ih =>
      cases h with
      | cons first below =>
          rw [RuleChild.AllFit] at hfits
          obtain ⟨hmaster, hknown⟩ := first.master_eq hwell hfits.1
          obtain ⟨hmasters, hknowns⟩ := ih below hfits.2
          exact ⟨by rw [List.map_cons, hmaster, hmasters], List.forall_mem_cons.mpr ⟨hknown, hknowns⟩⟩

/-- What is known stays known while the memo grows and no groups are united. -/
theorem Knows.mono {result : RuleResult} (h : memo.Knows group result) (hwidens : memo.Widens memo')
    (hmasters : ∀ id, memo'.master id = memo.master id) : memo'.Knows group result where
  known := h.known.trans_le hwidens.groups_size
  fits := h.fits.mono hwidens.groups_size
  repeated := by
    obtain ⟨groups, twin, expr, hbelow, htwin, hexpr, hmaster⟩ := h.repeated
    obtain ⟨expr', hexpr', _, _, howner⟩ := hwidens.exprs twin expr hexpr
    refine ⟨groups, twin, expr', hbelow.mono hwidens hmasters, hwidens.findTwin? htwin, hexpr', ?_⟩
    rw [howner, hmasters, hmasters, hmaster]

/-! ## New groups -/

/-- The later memo has more groups, and those from before are as they were. -/
structure Annexes (memo memo' : Memo) : Prop extends memo.Accrues memo' where
  masters : ∀ id, memo'.master id = memo.master id
  unchanged : ∀ id : GroupId, id.index < memo.groups.size →
    memo'.alternativesOf id = memo.alternativesOf id

theorem Annexes.trans {memo'' : Memo} (h : memo.Annexes memo') (h' : memo'.Annexes memo'') :
    memo.Annexes memo'' where
  toAccrues := h.toAccrues.trans h'.toAccrues
  masters id := (h'.masters id).trans (h.masters id)
  unchanged id hid := (h'.unchanged id (hid.trans_le h.groups_size)).trans (h.unchanged id hid)

theorem Annexes.of_sameContent (haccrues : memo.Accrues memo') (hsame : SameContent memo memo')
    (hwell : memo.WellFormed) : memo.Annexes memo' where
  toAccrues := haccrues
  masters := hsame.master hwell.linksEnd
  unchanged id _ := hsame.alternativesOf id

end Memo

namespace Planning

open Memo (Annexes Inserts Finds FindsAll Knows)

variable {memo : Memo} {op : Operator} {groups : List GroupId}

theorem accrues_insert {target : Option GroupId} {origin : Option Origin}
    (hplain : op.isPhysical = false) : Keeps Memo.Accrues (Planning.insert op groups target origin) := by
  refine Memo.Filling.inserted ?_
  cases op with
  | physical _ => simp [Operator.isPhysical, Operator.physical?] at hplain
  | logical _ | scalar _ => rfl

/-- An operator that is inserted over masters, without a target, is found afterwards. -/
theorem Post.insert_new (origin : Option Origin) (hattainable : memo.Attainable)
    (hplain : op.isPhysical = false) (hsame : op.same op = true)
    (harity : ∀ count, op.arity = some count → groups.length = count)
    (hmasters : groups.map memo.master = groups)
    (hknown : ∀ group ∈ groups, group.index < memo.groups.size) :
    Post (Planning.insert op groups none origin) memo
      (fun outcome final => memo.Annexes final ∧ ∃ twin expr,
        final.findTwin? op groups = some twin ∧ final.expr? twin = some expr ∧
        outcome.group = final.master expr.group)
      (fun _ _ => False) := by
  have hwell := hattainable.inOrder.1
  have hvalid : memo.Insertable op groups none :=
    { known := by simpa using hknown
      arity := harity
      physical := fun hphysical => by simp [hplain] at hphysical }
  refine ((Post.insert origin hwell hvalid).both (accrues_insert hplain memo)).mono ?_
    fun _ _ hfail => hfail.1
  rintro outcome final ⟨hinserts, haccrues⟩
  cases hinserts with
  | @found twin expr _ htwin hexpr _ hsame =>
      rw [hmasters] at htwin
      obtain ⟨expr', hexpr', hcontent⟩ := hsame.exists_expr hexpr
      refine ⟨.of_sameContent haccrues hsame hwell, twin, expr', ?_, hexpr', ?_⟩
      · rw [hsame.findTwin?, htwin]
      · rw [show expr'.group = expr.group from congrArg (·.group) hcontent]
  | united _ _ hgiven => simp at hgiven
  | added _ hgiven => simp at hgiven
  | @created middle properties htwin _ _ hcontent =>
      -- the new group is its own master, and all others keep theirs
      have hlinks (id : GroupId) : ((middle.pushGroup properties).addAlternative op
          (groups.map memo.master) ⟨memo.groups.size⟩ origin).link? id = middle.link? id := by
        rw [Memo.link?_addAlternative, Memo.link?_pushGroup]
      have hends := hcontent.linksEnd hwell.linksEnd
      have hall := Memo.master_congr _ hends hlinks
      obtain ⟨expr, hexpr, hgroup⟩ := (middle.pushGroup properties).exists_added op
        (groups.map memo.master) ⟨memo.groups.size⟩ origin
      rw [show (middle.pushGroup properties).exprs.size = memo.exprs.size from
        hcontent.exprs_size] at hexpr
      refine ⟨⟨haccrues, fun id => (hall id).trans (hcontent.master hwell.linksEnd id),
        fun id hid => ?_⟩, ⟨memo.exprs.size⟩, expr, ?_, hexpr, ?_⟩
      · rw [Memo.alternativesOf_addAlternative (by simp [Memo.pushGroup, hcontent.groups_size]),
          if_neg (by rintro rfl; exact Nat.lt_irrefl _ hid), Memo.sameHomes_pushGroup.alternatives,
          hcontent.alternativesOf]
      · rw [hmasters] at htwin ⊢
        rw [← hcontent.exprs_size]
        refine Memo.findTwin?_addAlternative hsame ?_
        rw [← htwin, ← hcontent.findTwin?]
        rfl
      · rw [hgroup]
        have hnone : middle.group? ⟨memo.groups.size⟩ = none :=
          Memo.group?_eq_none.mpr hcontent.groups_size.le
        refine ((hends.congr hlinks).master_eq_self_iff.mpr ?_).symm
        rw [hlinks]
        exact congrArg (Option.bind · (·.duplicateOf)) hnone

mutual

/-- The child of a result is found where it was inserted. -/
theorem Post.childGroup_finds (origin : Origin) : (child : RuleChild) → {memo : Memo} →
    memo.Attainable → child.Fits memo →
    Post (Planning.childGroup origin child) memo
      (fun group final => memo.Annexes final ∧ final.Finds child group) (fun _ _ => False)
  | .group id, memo, hattainable, hfits => by
      rw [RuleChild.Fits] at hfits
      have hwell := hattainable.inOrder.1
      have haccrues : Keeps Memo.Accrues (Planning.resolve id) := keeps_resolve
      unfold Planning.childGroup
      refine ((Post.resolve hfits).both (haccrues memo)).mono ?_ fun _ _ hfail => hfail.1
      rintro _ final ⟨⟨rfl, hsame⟩, hfinal⟩
      refine ⟨.of_sameContent hfinal hsame hwell, ?_⟩
      rw [← hsame.master hwell.linksEnd]
      exact .group
  | .new op children, memo, hattainable, hfits => by
      rw [RuleChild.Fits] at hfits
      obtain ⟨hplain, hsame, harity, hbelow⟩ := hfits
      unfold Planning.childGroup
      refine (Post.childGroups_find origin children hattainable hbelow).andThen
        (fun _ _ hfail => hfail) ?_
      rintro groups middle ⟨hmiddle, hfinds⟩
      have hattainable := hmiddle.attainable hattainable
      obtain ⟨hmasters, hknown⟩ := hfinds.master_eq hattainable.inOrder.1
        (RuleChild.AllFit.mono hmiddle.groups_size _ hbelow)
      refine (Post.insert_new (some origin) hattainable hplain hsame (fun count hcount => ?_)
        hmasters hknown).andThen (fun _ _ hfail => hfail) ?_
      · rw [hfinds.length_eq]
        exact harity count hcount
      · rintro outcome final ⟨hfinal, twin, expr, htwin, hexpr, hgroup⟩
        refine Post.pure ⟨hmiddle.trans hfinal, ?_⟩
        rw [hgroup]
        exact .new (hfinds.mono hfinal.toWidens hfinal.masters) htwin hexpr

/-- The children of a result are found where they were inserted. -/
theorem Post.childGroups_find (origin : Origin) : (children : List RuleChild) → {memo : Memo} →
    memo.Attainable → RuleChild.AllFit memo children →
    Post (Planning.childGroups origin children) memo
      (fun groups final => memo.Annexes final ∧ final.FindsAll children groups) (fun _ _ => False)
  | [], memo, _, _ => Post.pure ⟨⟨.refl memo, fun _ => rfl, fun _ _ => rfl⟩, .nil⟩
  | child :: rest, memo, hattainable, hfits => by
      rw [RuleChild.AllFit] at hfits
      unfold Planning.childGroups
      refine (Post.childGroup_finds origin child hattainable hfits.1).andThen
        (fun _ _ hfail => hfail) ?_
      rintro group middle ⟨hmiddle, hfirst⟩
      refine (Post.childGroups_find origin rest (hmiddle.attainable hattainable)
        (RuleChild.AllFit.mono hmiddle.groups_size _ hfits.2)).andThen (fun _ _ hfail => hfail) ?_
      rintro groups final ⟨hfinal, hrest⟩
      exact Post.pure ⟨hmiddle.trans hfinal, .cons (hfirst.mono hfinal.toWidens hfinal.masters) hrest⟩

end

/-- What an insertion of a result into a group does, if no groups are united: the group knows the
result, and no other group gets alternatives. -/
structure Settles (memo : Memo) (group : GroupId) (result : RuleResult) (isNew : Bool)
    (final : Memo) : Prop where
  knows : final.Knows group result
  unchanged : ∀ id : GroupId, id.index < memo.groups.size →
    id ≠ memo.master group ∨ isNew = false → final.alternativesOf id = memo.alternativesOf id

theorem Post.insertResult_settles {group : GroupId} {origin : Origin} {result : RuleResult}
    (hattainable : memo.Attainable) (hgroup : group.index < memo.groups.size)
    (hfits : result.Fits memo) :
    Post (Planning.insertResult group origin result) memo
      (fun outcome final => memo.Accrues final ∧ ((∀ id, final.master id = memo.master id) →
        Settles memo group result outcome.isNew final))
      (fun _ _ => False) := by
  unfold Planning.insertResult
  refine (Post.childGroups_find origin result.children hattainable hfits.children).andThen
    (fun _ _ hfail => hfail) ?_
  rintro groups middle ⟨hmiddle, hfinds⟩
  have hattainable := hmiddle.attainable hattainable
  have hwell := hattainable.inOrder.1
  obtain ⟨hmasters, hknown⟩ := hfinds.master_eq hwell
    (RuleChild.AllFit.mono hmiddle.groups_size _ hfits.children)
  have hgroup' := hgroup.trans_le hmiddle.groups_size
  have hvalid : middle.Insertable result.op groups (some group) :=
    { known := by simpa [or_imp, forall_and] using ⟨hknown, hgroup'⟩
      arity := fun count hcount => hfinds.length_eq.trans (hfits.arity count hcount)
      physical := fun _ => rfl }
  refine ((Post.insert (some origin) hwell hvalid).both (accrues_insert hfits.plain middle)).mono ?_
    fun _ _ hfail => hfail.1
  rintro outcome final ⟨hinserts, haccrues⟩
  refine ⟨hmiddle.toAccrues.trans haccrues, fun hstay => ?_⟩
  have hstay (id : GroupId) : final.master id = middle.master id :=
    (hstay id).trans (hmiddle.masters id).symm
  have hbelow := hfinds.mono haccrues.toWidens hstay
  have hfits' := hfits.mono (hmiddle.groups_size.trans haccrues.groups_size)
  have hknown' := hgroup'.trans_le haccrues.groups_size
  cases hinserts with
  | @found twin expr _ htwin hexpr hhome hsame =>
      rw [hmasters] at htwin
      obtain ⟨expr', hexpr', _, _, howner⟩ := haccrues.exprs twin expr hexpr
      refine ⟨⟨hknown', hfits', groups, twin, expr', hbelow, haccrues.toWidens.findTwin? htwin, hexpr',
        ?_⟩, fun id hid _ => ?_⟩
      · rw [howner, hstay, hstay, hhome group rfl]
      · rw [hsame.alternativesOf, hmiddle.unchanged id hid]
  | @united twin expr _ id joining into htwin hexpr htarget haway hsides hunites =>
      -- one of two different masters would go up
      obtain rfl := Option.some.inj htarget
      have hmoved := hunites.masters joining
      have hself : middle.master joining = joining := by
        rcases hsides with ⟨rfl, _⟩ | ⟨rfl, _⟩ <;> exact hwell.linksEnd.master_master _
      rw [hstay, if_pos hself, hself] at hmoved
      rcases hsides with ⟨hjoining, hinto⟩ | ⟨hjoining, hinto⟩
      · exact absurd (hjoining.symm.trans (hmoved.trans hinto)) haway
      · exact absurd (hjoining.symm.trans (hmoved.trans hinto)).symm haway
  | @added looked id htwin htarget hsame =>
      obtain rfl := Option.some.inj htarget
      obtain ⟨expr, hexpr, howner⟩ := looked.exists_added result.op (groups.map middle.master)
        (middle.master group) (some origin)
      rw [hmasters] at htwin
      refine ⟨⟨hknown', hfits', groups, ⟨looked.exprs.size⟩, expr, hbelow, ?_, hexpr, ?_⟩,
        fun id hid hother => ?_⟩
      · rw [hmasters]
        exact Memo.findTwin?_addAlternative hfits.same (by rw [hsame.findTwin?, htwin])
      · rw [howner, hstay, hstay, hwell.linksEnd.master_master]
      · have hmasterKnown := hwell.masterKnown group hgroup'
        rw [Memo.alternativesOf_addAlternative (by rwa [hsame.groups_size]), if_neg,
          hsame.alternativesOf, hmiddle.unchanged id hid]
        rw [hmiddle.masters]
        exact hother.resolve_right (by simp)
  | created _ hnone => simp at hnone

/-! ## Inserting again -/

/-- An operator that has a twin is found again. -/
theorem Post.insert_again {target : Option GroupId} {origin : Option Origin} {twin : ExprId}
    {expr : MemoExpr} (hwell : memo.WellFormed) (hvalid : memo.Insertable op groups target)
    (hmasters : groups.map memo.master = groups) (htwin : memo.findTwin? op groups = some twin)
    (hexpr : memo.expr? twin = some expr)
    (hhome : ∀ id ∈ target, memo.master expr.group = memo.master id) :
    Post (Planning.insert op groups target origin) memo
      (fun outcome final => SameContent memo final ∧ outcome.group = memo.master expr.group ∧
        outcome.isNew = false)
      (fun _ _ => False) := by
  refine (Post.insert origin hwell hvalid).mono ?_ fun _ _ hfail => hfail
  rintro outcome final hinserts
  cases hinserts with
  | found hfound hfoundExpr _ hsame =>
      rw [hmasters] at hfound
      obtain rfl := Option.some.inj (htwin.symm.trans hfound)
      obtain rfl := Option.some.inj (hexpr.symm.trans hfoundExpr)
      exact ⟨hsame, hsame.master hwell.linksEnd _, rfl⟩
  | united hfound hfoundExpr hgiven haway =>
      rw [hmasters] at hfound
      obtain rfl := Option.some.inj (htwin.symm.trans hfound)
      obtain rfl := Option.some.inj (hexpr.symm.trans hfoundExpr)
      exact absurd (hhome _ hgiven).symm haway
  | added hnone => simp [hmasters, htwin] at hnone
  | created hnone => simp [hmasters, htwin] at hnone

mutual

/-- The child of a result that is found changes nothing when it is inserted again. -/
theorem Post.childGroup_again (origin : Origin) : (child : RuleChild) → {memo : Memo} →
    {group : GroupId} → memo.WellFormed → child.Fits memo → memo.Finds child group →
    Post (Planning.childGroup origin child) memo
      (fun found final => found = group ∧ SameContent memo final) (fun _ _ => False)
  | .group id, memo, _, _, hfits, .group => by
      rw [RuleChild.Fits] at hfits
      unfold Planning.childGroup
      exact Post.resolve hfits
  | .new op children, memo, _, hwell, hfits, @Finds.new _ _ _ groups twin expr below htwin hexpr => by
      rw [RuleChild.Fits] at hfits
      obtain ⟨hplain, _, harity, hbelow⟩ := hfits
      obtain ⟨hmasters, hknown⟩ := below.master_eq hwell hbelow
      unfold Planning.childGroup
      refine (Post.childGroups_again origin children hwell hbelow below).andThen
        (fun _ _ hfail => hfail) ?_
      rintro _ middle ⟨rfl, hmiddle⟩
      obtain ⟨expr', hexpr', hcontent⟩ := hmiddle.exists_expr hexpr
      have hmaster := hmiddle.master hwell.linksEnd
      refine (Post.insert_again (hmiddle.wellFormed hwell) ⟨?_, fun count hcount => ?_, fun hphysical => ?_⟩
        (by rw [funext hmaster, hmasters]) (by rw [hmiddle.findTwin?, htwin]) hexpr'
        (by simp)).andThen (fun _ _ hfail => hfail) ?_
      · rw [hmiddle.groups_size]
        simpa using hknown
      · rw [below.length_eq]
        exact harity count hcount
      · simp [hplain] at hphysical
      · rintro outcome final ⟨hfinal, hgroup, _⟩
        refine Post.pure ⟨?_, hmiddle.trans hfinal⟩
        rw [hgroup, hmaster, show expr'.group = expr.group from congrArg (·.group) hcontent]

/-- The children of a result that are found change nothing when they are inserted again. -/
theorem Post.childGroups_again (origin : Origin) : (children : List RuleChild) → {memo : Memo} →
    {groups : List GroupId} → memo.WellFormed → RuleChild.AllFit memo children →
    memo.FindsAll children groups →
    Post (Planning.childGroups origin children) memo
      (fun found final => found = groups ∧ SameContent memo final) (fun _ _ => False)
  | [], memo, _, _, _, .nil => Post.pure ⟨rfl, .refl memo⟩
  | child :: rest, memo, _, hwell, hfits, .cons first below => by
      rw [RuleChild.AllFit] at hfits
      unfold Planning.childGroups
      refine (Post.childGroup_again origin child hwell hfits.1 first).andThen
        (fun _ _ hfail => hfail) ?_
      rintro _ middle ⟨rfl, hmiddle⟩
      refine (Post.childGroups_again origin rest (hmiddle.wellFormed hwell)
        (RuleChild.AllFit.mono hmiddle.groups_size.ge _ hfits.2)
        (below.mono (.of_sameContent hmiddle) (hmiddle.master hwell.linksEnd))).andThen
        (fun _ _ hfail => hfail) ?_
      rintro _ final ⟨rfl, hfinal⟩
      exact Post.pure ⟨rfl, hmiddle.trans hfinal⟩

end

/-- Inserting a result that is known succeeds and adds nothing. -/
theorem Post.insertResult_known {group : GroupId} {origin : Origin} {result : RuleResult}
    (hwell : memo.WellFormed) (h : memo.Knows group result) :
    Post (Planning.insertResult group origin result) memo
      (fun outcome final => outcome.isNew = false ∧ SameContent memo final) (fun _ _ => False) := by
  obtain ⟨groups, twin, expr, hbelow, htwin, hexpr, hhome⟩ := h.repeated
  obtain ⟨hmasters, hknown⟩ := hbelow.master_eq hwell h.fits.children
  unfold Planning.insertResult
  refine (Post.childGroups_again origin result.children hwell h.fits.children hbelow).andThen
    (fun _ _ hfail => hfail) ?_
  rintro _ middle ⟨rfl, hmiddle⟩
  obtain ⟨expr', hexpr', hcontent⟩ := hmiddle.exists_expr hexpr
  have hmaster := hmiddle.master hwell.linksEnd
  refine (Post.insert_again (hmiddle.wellFormed hwell) ⟨?_, fun count hcount => ?_, fun _ => rfl⟩
    (by rw [funext hmaster, hmasters]) (by rw [hmiddle.findTwin?, htwin]) hexpr' ?_).mono ?_
    fun _ _ hfail => hfail
  · rw [hmiddle.groups_size]
    simpa [or_imp, forall_and] using ⟨hknown, h.known⟩
  · rw [hbelow.length_eq]
    exact h.fits.arity count hcount
  · intro id hid
    obtain rfl := Option.some.inj hid
    rw [hmaster, hmaster, show expr'.group = expr.group from congrArg (·.group) hcontent, hhome]
  · rintro outcome final ⟨hfinal, _, hold⟩
    exact ⟨hold, hmiddle.trans hfinal⟩

end Planning

end QueryPlanner
