import QueryPlanner.Proofs.Memo.Content

/-!
# Well-formed memos

`Memo.WellFormed` is what every operation on the memo relies on: links end at known groups, the
alternatives name known groups, a group lists its own alternatives, and a master starts with an
alternative that is not physical. Changes that leave the groups and alternatives as they are keep
it (`Memo.SameQuery`), and so does a new link between two masters.
-/

namespace QueryPlanner

/-- A group without what is derived from the rest of the memo, and without its contexts. -/
def Group.outline (group : Group) : Group := { group.content with contexts := [] }

/-- An alternative without the notes on what was done with it, and without its costings. -/
def MemoExpr.outline (expr : MemoExpr) : MemoExpr := { expr.content with costings := [] }

namespace Memo

/-- The references between groups and alternatives are in order. -/
structure Consistent (memo : Memo) : Prop where
  linksEnd : memo.LinksEnd
  masterKnown : ∀ id : GroupId, id.index < memo.groups.size →
    (memo.master id).index < memo.groups.size
  ownerKnown : ∀ id expr, memo.expr? id = some expr → expr.group.index < memo.groups.size
  childKnown : ∀ id expr, memo.expr? id = some expr →
    ∀ child ∈ expr.children, child.index < memo.groups.size
  arity : ∀ id expr, memo.expr? id = some expr →
    ∀ count, expr.op.arity = some count → expr.children.length = count
  /-- A group lists alternatives that it owns. -/
  listed : ∀ id group, memo.group? id = some group →
    ∀ alternative ∈ group.alternatives ++ group.duplicates,
      ∃ expr, memo.expr? alternative = some expr ∧ expr.group = id

/-- All references are in order, and the first alternative of a master, with which its group was
created, is not physical. -/
structure WellFormed (memo : Memo) : Prop extends memo.Consistent where
  supplied : ∀ id group, memo.group? id = some group → memo.master id = id →
    ∃ first expr, group.alternatives.head? = some first ∧ memo.expr? first = some expr ∧
      expr.op.isPhysical = false

variable {memo memo' : Memo}

/-- An alternative that a group lists is found, and the group owns it. -/
theorem Consistent.owned (h : memo.Consistent) {group : GroupId} {id : ExprId}
    (hid : id ∈ memo.alternativesOf group) :
    group.index < memo.groups.size ∧ ∃ expr, memo.expr? id = some expr ∧ expr.group = group := by
  unfold Memo.alternativesOf at hid
  cases hgroup : memo.group? group with
  | none => simp [hgroup] at hid
  | some found =>
      rw [hgroup, Option.map_some, Option.getD_some] at hid
      exact ⟨exists_group?_eq_some.mp ⟨found, hgroup⟩, h.listed _ found hgroup id (by simp [hid])⟩

/-- The empty memo is well formed. -/
theorem wellFormed_empty : ({} : Memo).WellFormed where
  linksEnd id := ⟨0, id, .here (by simp [link?, group?])⟩
  masterKnown id h := by simp at h
  ownerKnown id expr h := by simp [expr?] at h
  childKnown id expr h := by simp [expr?] at h
  arity id expr h := by simp [expr?] at h
  listed id group h := by simp [group?] at h
  supplied id group h := by simp [group?] at h

/-- Two memos have the same groups and alternatives, whatever planning has stored with them. -/
structure SameQuery (memo memo' : Memo) : Prop where
  groups : ∀ id, (memo'.group? id).map Group.outline = (memo.group? id).map Group.outline
  exprs : ∀ id, (memo'.expr? id).map MemoExpr.outline = (memo.expr? id).map MemoExpr.outline
  links : memo.LinksEnd → memo'.LinksEnd ∧ ∀ id, memo'.master id = memo.master id

theorem SameContent.sameQuery (h : SameContent memo memo') : SameQuery memo memo' where
  groups := h.map_group? _ fun _ => rfl
  exprs := h.map_expr? fun _ => rfl
  links := h.links

namespace SameQuery

variable (hsame : SameQuery memo memo')
include hsame

theorem linksEnd (hends : memo.LinksEnd) : memo'.LinksEnd := (hsame.links hends).1

theorem master (hends : memo.LinksEnd) (id : GroupId) : memo'.master id = memo.master id :=
  (hsame.links hends).2 id

/-- What is read off the outline of a group can be read off afterwards as well. -/
theorem map_group? {α : Type} (read : Group → α)
    (hread : ∀ group, read group.outline = read group) (id : GroupId) :
    (memo'.group? id).map read = (memo.group? id).map read := by
  have hmap := congrArg (Option.map read) (hsame.groups id)
  simpa only [Option.map_map, Function.comp_def, hread] using hmap

/-- A group that is found afterwards was there before. -/
theorem exists_group_before {id : GroupId} {group' : Group} (hgroup : memo'.group? id = some group') :
    ∃ group, memo.group? id = some group ∧ group'.outline = group.outline := by
  have hmap := hsame.groups id
  rw [hgroup] at hmap
  obtain ⟨group, hfound, hsame⟩ := Option.map_eq_some_iff.mp hmap.symm
  exact ⟨group, hfound, hsame.symm⟩

/-- An alternative is found again with the same outline. -/
theorem exists_expr {id : ExprId} {expr : MemoExpr} (hexpr : memo.expr? id = some expr) :
    ∃ expr', memo'.expr? id = some expr' ∧ expr'.outline = expr.outline := by
  have hmap := hsame.exprs id
  rw [hexpr] at hmap
  exact Option.map_eq_some_iff.mp hmap

/-- An alternative that is found afterwards was there before. -/
theorem exists_expr_before {id : ExprId} {expr' : MemoExpr} (hexpr : memo'.expr? id = some expr') :
    ∃ expr, memo.expr? id = some expr ∧ expr'.outline = expr.outline := by
  have hmap := hsame.exprs id
  rw [hexpr] at hmap
  obtain ⟨expr, hfound, hsame⟩ := Option.map_eq_some_iff.mp hmap.symm
  exact ⟨expr, hfound, hsame.symm⟩

theorem groups_size : memo'.groups.size = memo.groups.size :=
  groups_size_congr fun id => by simpa using congrArg Option.isSome (hsame.groups id)

theorem exprs_size : memo'.exprs.size = memo.exprs.size :=
  exprs_size_congr fun id => by simpa using congrArg Option.isSome (hsame.exprs id)

theorem alternativesOf (id : GroupId) : memo'.alternativesOf id = memo.alternativesOf id := by
  unfold Memo.alternativesOf
  rw [hsame.map_group? _ fun _ => rfl]

/-- What planning stores keeps a memo well formed. -/
theorem wellFormed (h : memo.WellFormed) : memo'.WellFormed where
  linksEnd := hsame.linksEnd h.linksEnd
  masterKnown id hid := by
    rw [hsame.groups_size] at hid ⊢
    rw [hsame.master h.linksEnd]
    exact h.masterKnown id hid
  ownerKnown id expr hexpr := by
    obtain ⟨before, hbefore, houtline⟩ := hsame.exists_expr_before hexpr
    rw [hsame.groups_size, show expr.group = before.group from congrArg (·.group) houtline]
    exact h.ownerKnown id before hbefore
  childKnown id expr hexpr := by
    obtain ⟨before, hbefore, houtline⟩ := hsame.exists_expr_before hexpr
    rw [hsame.groups_size, show expr.children = before.children from congrArg (·.children) houtline]
    exact h.childKnown id before hbefore
  arity id expr hexpr := by
    obtain ⟨before, hbefore, houtline⟩ := hsame.exists_expr_before hexpr
    rw [show expr.op = before.op from congrArg (·.op) houtline,
      show expr.children = before.children from congrArg (·.children) houtline]
    exact h.arity id before hbefore
  listed id group hgroup alternative hmem := by
    obtain ⟨before, hbefore, houtline⟩ := hsame.exists_group_before hgroup
    rw [show group.alternatives = before.alternatives from congrArg (·.alternatives) houtline,
      show group.duplicates = before.duplicates from congrArg (·.duplicates) houtline] at hmem
    obtain ⟨expr, hexpr, howner⟩ := h.listed id before hbefore alternative hmem
    obtain ⟨expr', hexpr', houtline'⟩ := hsame.exists_expr hexpr
    exact ⟨expr', hexpr', (congrArg (·.group) houtline').trans howner⟩
  supplied id group hgroup hmaster := by
    obtain ⟨before, hbefore, houtline⟩ := hsame.exists_group_before hgroup
    rw [hsame.master h.linksEnd] at hmaster
    rw [show group.alternatives = before.alternatives from congrArg (·.alternatives) houtline]
    obtain ⟨first, expr, hfirst, hexpr, hop⟩ := h.supplied id before hbefore hmaster
    obtain ⟨expr', hexpr', houtline'⟩ := hsame.exists_expr hexpr
    refine ⟨first, expr', hfirst, hexpr', ?_⟩
    rw [show expr'.op = expr.op from congrArg (·.op) houtline', hop]

end SameQuery

/-- Changes that leave the content keep a memo well formed. -/
theorem SameContent.wellFormed (hsame : SameContent memo memo') (h : memo.WellFormed) :
    memo'.WellFormed :=
  hsame.sameQuery.wellFormed h

/-! ## Linking masters -/

/-- Linking one master to another keeps a memo well formed. -/
theorem WellFormed.setLink (h : memo.WellFormed) {joining into : GroupId}
    (hjoining : memo.master joining = joining) (hinto : memo.master into = into)
    (hne : joining ≠ into) (hjoiningKnown : joining.index < memo.groups.size)
    (hintoKnown : into.index < memo.groups.size) : (memo.setLink joining into).WellFormed := by
  have hfree := h.linksEnd.master_eq_self_iff.mp hjoining
  have hend := h.linksEnd.master_eq_self_iff.mp hinto
  have hmaster := master_setLink h.linksEnd hfree hend hne hjoiningKnown
  have hgroup (id : GroupId) (group : Group)
      (hfound : (memo.setLink joining into).group? id = some group) :
      ∃ before, memo.group? id = some before ∧ group.content = before.content := by
    have hcontent := group?_setLink_content memo joining into id
    rw [hfound] at hcontent
    obtain ⟨before, hbefore, hsame⟩ := Option.map_eq_some_iff.mp hcontent.symm
    exact ⟨before, hbefore, hsame.symm⟩
  refine ⟨⟨h.linksEnd.setLink hfree hend hne hjoiningKnown, ?_, ?_, ?_, h.arity, ?_⟩, ?_⟩
  · intro id hid
    rw [groups_size_setLink] at hid ⊢
    rw [hmaster]
    split
    · exact hintoKnown
    · exact h.masterKnown id hid
  · rw [groups_size_setLink]
    exact h.ownerKnown
  · rw [groups_size_setLink]
    exact h.childKnown
  · intro id group hfound alternative hmem
    obtain ⟨before, hbefore, hcontent⟩ := hgroup id group hfound
    rw [show group.alternatives = before.alternatives from congrArg (·.alternatives) hcontent,
      show group.duplicates = before.duplicates from congrArg (·.duplicates) hcontent] at hmem
    exact h.listed id before hbefore alternative hmem
  · intro id group hfound hself
    obtain ⟨before, hbefore, hcontent⟩ := hgroup id group hfound
    rw [show group.alternatives = before.alternatives from congrArg (·.alternatives) hcontent]
    refine h.supplied id before hbefore ?_
    rw [hmaster] at hself
    split at hself
    · rw [← hself, hinto]
    · exact hself

end Memo

end QueryPlanner
