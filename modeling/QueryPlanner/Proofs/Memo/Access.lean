import QueryPlanner.Memo.Context
import QueryPlanner.Memo.Insert

/-!
# Look-ups after changes

What a change of one group, alternative or context does to later look-ups by identifier.
-/

namespace QueryPlanner.Memo

variable {memo : Memo} {id other : GroupId}

theorem group?_modifyGroup {change : Group → Group} :
    (memo.modifyGroup id change).group? other =
      if id = other then (memo.group? other).map change else memo.group? other := by
  obtain ⟨index⟩ := id
  obtain ⟨otherIndex⟩ := other
  simp [group?, modifyGroup, Array.getElem?_modify]

theorem expr?_modifyExpr {id other : ExprId} {change : MemoExpr → MemoExpr} :
    (memo.modifyExpr id change).expr? other =
      if id = other then (memo.expr? other).map change else memo.expr? other := by
  obtain ⟨index⟩ := id
  obtain ⟨otherIndex⟩ := other
  simp [expr?, modifyExpr, Array.getElem?_modify]

theorem context?_modifyContext {id other : ContextId} {change : Context → Context} :
    (memo.modifyContext id change).context? other =
      if id = other then (memo.context? other).map change else memo.context? other := by
  obtain ⟨index⟩ := id
  obtain ⟨otherIndex⟩ := other
  simp [context?, modifyContext, Array.getElem?_modify]

@[simp] theorem groups_size_modifyGroup {change : Group → Group} :
    (memo.modifyGroup id change).groups.size = memo.groups.size := by
  simp [modifyGroup]

@[simp] theorem expr?_modifyGroup {change : Group → Group} {expr : ExprId} :
    (memo.modifyGroup id change).expr? expr = memo.expr? expr := rfl

@[simp] theorem exprs_modifyGroup {change : Group → Group} :
    (memo.modifyGroup id change).exprs = memo.exprs := rfl

@[simp] theorem group?_modifyExpr {expr : ExprId} {change : MemoExpr → MemoExpr} :
    (memo.modifyExpr expr change).group? id = memo.group? id := rfl

@[simp] theorem groups_modifyExpr {expr : ExprId} {change : MemoExpr → MemoExpr} :
    (memo.modifyExpr expr change).groups = memo.groups := rfl

@[simp] theorem exprs_size_modifyExpr {expr : ExprId} {change : MemoExpr → MemoExpr} :
    (memo.modifyExpr expr change).exprs.size = memo.exprs.size := by
  simp [modifyExpr]

/-- A group is found when its number is below the number of groups. -/
theorem group?_isSome (id : GroupId) : (memo.group? id).isSome ↔ id.index < memo.groups.size := by
  simp [group?]

/-- An alternative is found when its number is below the number of alternatives. -/
theorem expr?_isSome (expr : ExprId) :
    (memo.expr? expr).isSome ↔ expr.index < memo.exprs.size := by
  simp [expr?]

/-- Two memos in which the same groups are found have the same number of groups. -/
theorem groups_size_congr {memo' : Memo}
    (h : ∀ id, (memo'.group? id).isSome = (memo.group? id).isSome) :
    memo'.groups.size = memo.groups.size := by
  have hknown (index : Nat) : index < memo'.groups.size ↔ index < memo.groups.size := by
    rw [← group?_isSome ⟨index⟩, h, group?_isSome]
  have hbelow := hknown memo.groups.size
  have habove := hknown memo'.groups.size
  omega

/-- Two memos in which the same alternatives are found have the same number of alternatives. -/
theorem exprs_size_congr {memo' : Memo}
    (h : ∀ id, (memo'.expr? id).isSome = (memo.expr? id).isSome) :
    memo'.exprs.size = memo.exprs.size := by
  have hknown (index : Nat) : index < memo'.exprs.size ↔ index < memo.exprs.size := by
    rw [← expr?_isSome ⟨index⟩, h, expr?_isSome]
  have hbelow := hknown memo.exprs.size
  have habove := hknown memo'.exprs.size
  omega

theorem group?_eq_none : memo.group? id = none ↔ memo.groups.size ≤ id.index := by
  simp [group?]

theorem exists_group?_eq_some :
    (∃ group, memo.group? id = some group) ↔ id.index < memo.groups.size := by
  rw [← group?_isSome, Option.isSome_iff_exists]

end QueryPlanner.Memo
