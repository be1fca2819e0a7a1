import QueryPlanner.Operator.Basic
import QueryPlanner.Proofs.Estimate

/-!
# Equality of operators

Operators are compared by tests of their own: a number of rows that is not a number differs even
from itself, and the description of a table does not matter. `Operator.equates_same` says that what
is found equal stays together all the same, whatever the operators are.
-/

namespace QueryPlanner

/-- A test of equality that does not depend on the direction and can be chained. -/
structure Equates {α : Type} (same : α → α → Bool) : Prop where
  symm : ∀ {left right}, same left right = true → same right left = true
  trans : ∀ {left middle right}, same left middle = true → same middle right = true →
    same left right = true

namespace Estimate

theorem equates_sameLiteral : Equates sameLiteral where
  symm {left right} h := by
    simp only [sameLiteral, Bool.or_eq_true, Bool.and_eq_true] at *
    exact h.imp And.symm beq_symm
  trans {left middle right} h h' := by
    simp only [sameLiteral, Bool.or_eq_true, Bool.and_eq_true] at *
    rcases h with h | h <;> rcases h' with h' | h'
    · exact .inl ⟨h.1, h'.2⟩
    · exact absurd h.2 (Bool.eq_false_iff.mp (isNaN_eq_false_of_beq h').1)
    · exact absurd h'.1 (Bool.eq_false_iff.mp (isNaN_eq_false_of_beq h).2)
    · exact .inr (beq_trans h h')

/-- Also what is not a number is the same literal as itself. -/
theorem sameLiteral_self (value : Float) : sameLiteral value value = true := by
  unfold sameLiteral
  cases hplace : place? value.toModel.unpack with
  | some place => rw [beq_iff.mpr ⟨place, hplace, hplace⟩, Bool.or_true]
  | none =>
      have hnumber : value.isNaN = true := by
        change value.toModel.unpack.isNaN = true
        cases hvalue : value.toModel.unpack with
        | notANumber => rfl
        | infinity sign | zero sign | finite sign _ _ _ =>
            rw [hvalue] at hplace
            cases sign <;> exact absurd hplace (Option.some_ne_none _)
      rw [hnumber]
      rfl

end Estimate

theorem Literal.same_self (literal : Literal) : literal.same literal = true := by
  cases literal with
  | real value => exact Estimate.sameLiteral_self value
  | null => rfl
  | bool _ | integer _ | text _ | date _ => exact beq_self_eq_true _

theorem Literal.equates_same : Equates Literal.same where
  symm {left right} h := by
    cases left <;> cases right <;> first
      | exact Estimate.equates_sameLiteral.symm h
      | simp_all [same]
  trans {left middle right} h h' := by
    cases left <;> cases middle <;> simp only [same, beq_iff_eq] at h <;> first
      | exact absurd h Bool.false_ne_true
      | cases right <;> first
        | exact Estimate.equates_sameLiteral.trans h h'
        | simp_all [same]

namespace Scalar

mutual

theorem same_symm {left right : Scalar} (h : left.same right = true) :
    right.same left = true := by
  cases left <;> cases right <;> simp only [same, Bool.and_eq_true, beq_iff_eq] at h ⊢ <;> first
    | exact h.symm
    | exact Literal.equates_same.symm h
    | exact ⟨⟨h.1.1.symm, same_symm h.1.2⟩, same_symm h.2⟩
    | exact same_symm h
    | exact sameList_symm h
    | exact absurd h Bool.false_ne_true

theorem sameList_symm {left right : List Scalar} (h : sameList left right = true) :
    sameList right left = true := by
  cases left <;> cases right <;> simp only [sameList, Bool.and_eq_true] at h ⊢ <;> first
    | exact ⟨same_symm h.1, sameList_symm h.2⟩
    | exact absurd h Bool.false_ne_true

end

mutual

theorem same_trans {left middle right : Scalar} (h : left.same middle = true)
    (h' : middle.same right = true) : left.same right = true := by
  cases left <;> cases middle <;> simp only [same, Bool.and_eq_true, beq_iff_eq] at h <;>
    first
      | exact absurd h Bool.false_ne_true
      | cases right <;> simp only [same, Bool.and_eq_true, beq_iff_eq] at h' ⊢ <;> first
        | exact h.trans h'
        | exact Literal.equates_same.trans h h'
        | exact ⟨⟨h.1.1.trans h'.1.1, same_trans h.1.2 h'.1.2⟩, same_trans h.2 h'.2⟩
        | exact same_trans h h'
        | exact sameList_trans h h'
        | exact absurd h' Bool.false_ne_true

theorem sameList_trans {left middle right : List Scalar} (h : sameList left middle = true)
    (h' : sameList middle right = true) : sameList left right = true := by
  cases left <;> cases middle <;> simp only [sameList, Bool.and_eq_true] at h <;> first
    | exact absurd h Bool.false_ne_true
    | cases right <;> simp only [sameList, Bool.and_eq_true] at h' ⊢ <;> first
      | exact ⟨same_trans h.1 h'.1, sameList_trans h.2 h'.2⟩
      | exact absurd h' Bool.false_ne_true

end

theorem equates_same : Equates same := ⟨same_symm, same_trans⟩

mutual

/-- Every expression equals itself. -/
theorem same_self : (expr : Scalar) → expr.same expr = true
  | .column _ => by rw [same, beq_self_eq_true]
  | .literal value => by rw [same, value.same_self]
  | .compare _ left right => by
      rw [same, beq_self_eq_true, same_self left, same_self right]
      rfl
  | .isNull operand => by rw [same, same_self operand]
  | .not operand => by rw [same, same_self operand]
  | .and operands => by rw [same, sameList_self operands]
  | .or operands => by rw [same, sameList_self operands]

theorem sameList_self : (exprs : List Scalar) → sameList exprs exprs = true
  | [] => rfl
  | expr :: rest => by
      rw [sameList, same_self expr, sameList_self rest]
      rfl

end

end Scalar

theorem TableAccess.equates_same : Equates TableAccess.same where
  symm h := by
    simp only [same, Bool.and_eq_true, beq_iff_eq] at *
    exact ⟨⟨h.1.1.symm, h.1.2.symm⟩, h.2.symm⟩
  trans h h' := by
    simp only [same, Bool.and_eq_true, beq_iff_eq] at *
    exact ⟨⟨h.1.1.trans h'.1.1, h.1.2.trans h'.1.2⟩, h.2.trans h'.2⟩

theorem CustomLogical.equates_same : Equates CustomLogical.same where
  symm h := by
    have hrows {left right : CustomLogical} : (left.rows == right.rows) = true →
        (right.rows == left.rows) = true := Estimate.beq_symm
    simp only [same, Bool.and_eq_true, beq_iff_eq] at *
    grind
  trans h h' := by
    have hrows {left middle right : CustomLogical} : (left.rows == middle.rows) = true →
        (middle.rows == right.rows) = true → (left.rows == right.rows) = true := Estimate.beq_trans
    simp only [same, Bool.and_eq_true, beq_iff_eq] at *
    grind

theorem CustomPhysical.equates_same : Equates CustomPhysical.same where
  symm h := by
    have hcost := @Estimate.equates_sameLiteral.symm
    simp only [same, Bool.and_eq_true, beq_iff_eq] at *
    grind
  trans h h' := by
    have hcost := @Estimate.equates_sameLiteral.trans
    simp only [same, Bool.and_eq_true, beq_iff_eq] at *
    grind

theorem ScalarOperator.equates_same : Equates ScalarOperator.same where
  symm {left right} h := by
    cases left <;> cases right <;> simp only [same, beq_iff_eq] at h ⊢ <;> first
      | exact Scalar.equates_same.symm h
      | exact h.symm
      | exact absurd h Bool.false_ne_true
  trans {left middle right} h h' := by
    cases left <;> cases middle <;> simp only [same, beq_iff_eq] at h <;> first
      | exact absurd h Bool.false_ne_true
      | cases right <;> simp only [same, beq_iff_eq] at h' ⊢ <;> first
        | exact Scalar.equates_same.trans h h'
        | exact h.trans h'
        | exact absurd h' Bool.false_ne_true

theorem LogicalOperator.equates_same : Equates LogicalOperator.same where
  symm {left right} h := by
    cases left <;> cases right <;> simp only [same, Bool.and_eq_true, beq_iff_eq] at h ⊢ <;> first
      | exact TableAccess.equates_same.symm h
      | exact ⟨h.1.symm, h.2.symm⟩
      | exact CustomLogical.equates_same.symm h
      | exact absurd h Bool.false_ne_true
  trans {left middle right} h h' := by
    cases left <;> cases middle <;> simp only [same, Bool.and_eq_true, beq_iff_eq] at h <;> first
      | exact absurd h Bool.false_ne_true
      | cases right <;> simp only [same, Bool.and_eq_true, beq_iff_eq] at h' ⊢ <;> first
        | exact TableAccess.equates_same.trans h h'
        | exact ⟨h.1.trans h'.1, h.2.trans h'.2⟩
        | exact CustomLogical.equates_same.trans h h'
        | exact absurd h' Bool.false_ne_true

theorem PhysicalOperator.equates_same : Equates PhysicalOperator.same where
  symm {left right} h := by
    cases left <;> cases right <;> simp only [same, Bool.and_eq_true, beq_iff_eq] at h ⊢ <;> first
      | exact TableAccess.equates_same.symm h
      | exact ⟨TableAccess.equates_same.symm h.1, h.2.symm⟩
      | exact h.symm
      | exact ⟨h.1.symm, h.2.symm⟩
      | exact ⟨⟨h.1.1.symm, h.1.2.symm⟩, h.2.symm⟩
      | exact CustomPhysical.equates_same.symm h
      | exact absurd h Bool.false_ne_true
  trans {left middle right} h h' := by
    cases left <;> cases middle <;> simp only [same, Bool.and_eq_true, beq_iff_eq] at h <;> first
      | exact absurd h Bool.false_ne_true
      | cases right <;> simp only [same, Bool.and_eq_true, beq_iff_eq] at h' ⊢ <;> first
        | exact TableAccess.equates_same.trans h h'
        | exact ⟨TableAccess.equates_same.trans h.1 h'.1, h.2.trans h'.2⟩
        | exact h.trans h'
        | exact ⟨h.1.trans h'.1, h.2.trans h'.2⟩
        | exact ⟨⟨h.1.1.trans h'.1.1, h.1.2.trans h'.1.2⟩, h.2.trans h'.2⟩
        | exact CustomPhysical.equates_same.trans h h'
        | exact absurd h' Bool.false_ne_true

/-- Operators that are found equal form classes. -/
theorem Operator.equates_same : Equates Operator.same where
  symm {left right} h := by
    cases left <;> cases right <;> first
      | exact LogicalOperator.equates_same.symm h
      | exact PhysicalOperator.equates_same.symm h
      | exact ScalarOperator.equates_same.symm h
      | exact absurd h Bool.false_ne_true
  trans {left middle right} h h' := by
    cases left <;> cases middle <;> first
      | exact absurd h Bool.false_ne_true
      | cases right <;> first
        | exact LogicalOperator.equates_same.trans h h'
        | exact PhysicalOperator.equates_same.trans h h'
        | exact ScalarOperator.equates_same.trans h h'
        | exact absurd h' Bool.false_ne_true

end QueryPlanner
