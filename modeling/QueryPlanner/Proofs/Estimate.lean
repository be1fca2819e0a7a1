import Mathlib.Data.Prod.Lex
import Mathlib.Order.Compare
import QueryPlanner.Cost

/-!
# The order of estimates

Doubles compare by where they stand (`Estimate.place?`), and what is not a number compares with
nothing. So `<` is a strict order that `==` goes along with.
-/

namespace QueryPlanner

namespace Estimate

open Float.Model (UnpackedFloat)

/-- Where a double stands among the others: its class from negative to positive infinity, then its
exponent, then its mantissa. What is not a number stands nowhere. -/
def place? : UnpackedFloat → Option (ℤ ×ₗ ℤ ×ₗ ℤ)
  | .notANumber => none
  | .infinity .negative => some (toLex (-2, toLex (0, 0)))
  | .finite .negative mantissa exponent _ => some (toLex (-1, toLex (-exponent, -mantissa)))
  | .zero _ => some (toLex (0, toLex (0, 0)))
  | .finite .positive mantissa exponent _ => some (toLex (1, toLex (exponent, mantissa)))
  | .infinity .positive => some (toLex (2, toLex (0, 0)))

theorem compare_toLex {α β : Type} [Ord α] [Ord β] (left right : α × β) :
    compare (toLex left) (toLex right) =
      (compare left.1 right.1).then (compare left.2 right.2) := rfl

theorem compare_cast (left right : ℕ) : compare (left : ℤ) right = compare left right := by
  rcases lt_trichotomy left right with h | h | h
  · rw [compare_lt_iff_lt.mpr h, compare_lt_iff_lt.mpr (by omega)]
  · rw [compare_eq_iff_eq.mpr h, compare_eq_iff_eq.mpr (by omega)]
  · rw [compare_gt_iff_gt.mpr h, compare_gt_iff_gt.mpr (by omega)]

theorem compare_neg (left right : ℤ) : compare (-left) (-right) = (compare left right).swap := by
  rcases lt_trichotomy left right with h | h | h
  · rw [compare_lt_iff_lt.mpr h, compare_gt_iff_gt.mpr (by omega)]; rfl
  · rw [compare_eq_iff_eq.mpr h, compare_eq_iff_eq.mpr (by omega)]; rfl
  · rw [compare_gt_iff_gt.mpr h, compare_lt_iff_lt.mpr (by omega)]; rfl

/-- Doubles compare as their places do. -/
theorem compare_eq (left right : UnpackedFloat) :
    left.compare right = (place? left).bind fun mine => (place? right).map (compare mine) := by
  rcases left with (_ | _) | _ | _ | ⟨_ | _, m, e, hm⟩ <;>
    rcases right with (_ | _) | _ | _ | ⟨_ | _, m', e', hm'⟩ <;>
    first
      | rfl
      | change some _ = some _
        simp [compare_toLex, compare_cast, compare_neg, Ordering.swap_then]

theorem place_inj {a b c a' b' c' : ℤ}
    (h : some (toLex (a, toLex (b, c))) = some (toLex (a', toLex (b', c')))) :
    a = a' ∧ b = b' ∧ c = c' := by
  simpa [Prod.ext_iff] using h

variable {a b c : Float}

theorem compare_eq_some_iff {left right : UnpackedFloat} {order : Ordering} :
    left.compare right = some order ↔
      ∃ mine theirs, place? left = some mine ∧ place? right = some theirs ∧
        compare mine theirs = order := by
  rw [compare_eq]
  simp only [Option.bind_eq_some_iff, Option.map_eq_some_iff]
  exact ⟨fun ⟨mine, hmine, theirs, htheirs, h⟩ => ⟨mine, theirs, hmine, htheirs, h⟩,
    fun ⟨mine, theirs, hmine, htheirs, h⟩ => ⟨mine, hmine, theirs, htheirs, h⟩⟩

theorem lt_iff : a < b ↔ ∃ mine theirs, place? a.toModel.unpack = some mine ∧
    place? b.toModel.unpack = some theirs ∧ mine < theirs := by
  have h : a < b ↔ a.toModel.unpack.compare b.toModel.unpack = some .lt := by
    change decide (a.toModel < b.toModel) = true ↔ _
    rw [decide_eq_true_iff]
    change (a.toModel.unpack.compare b.toModel.unpack == some .lt) = true ↔ _
    exact beq_iff_eq
  rw [h, compare_eq_some_iff]
  simp only [compare_lt_iff_lt]

theorem beq_iff : (a == b) = true ↔ ∃ place, place? a.toModel.unpack = some place ∧
    place? b.toModel.unpack = some place := by
  have h : (a == b) = true ↔ a.toModel.unpack.compare b.toModel.unpack = some .eq := by
    change (a.toModel.unpack.compare b.toModel.unpack == some .eq) = true ↔ _
    exact beq_iff_eq
  rw [h, compare_eq_some_iff]
  simp only [compare_eq_iff_eq]
  exact ⟨fun ⟨mine, theirs, hmine, htheirs, heq⟩ => ⟨mine, hmine, heq ▸ htheirs⟩,
    fun ⟨place, hmine, htheirs⟩ => ⟨place, place, hmine, htheirs, rfl⟩⟩

theorem le_iff : a ≤ b ↔ ∃ mine theirs, place? a.toModel.unpack = some mine ∧
    place? b.toModel.unpack = some theirs ∧ mine ≤ theirs := by
  have h : a ≤ b ↔ (a.toModel.unpack.compare b.toModel.unpack).any (·.isLE) = true := by
    change decide (a.toModel ≤ b.toModel) = true ↔ _
    rw [decide_eq_true_iff]
    rfl
  rw [h, Option.any_eq_true]
  simp only [compare_eq_some_iff, ← Ordering.ne_gt_iff_isLE]
  refine ⟨?_, fun ⟨mine, theirs, hmine, htheirs, hle⟩ =>
    ⟨_, ⟨mine, theirs, hmine, htheirs, rfl⟩, compare_le_iff_le.mpr hle⟩⟩
  rintro ⟨_, ⟨mine, theirs, hmine, htheirs, rfl⟩, hle⟩
  exact ⟨mine, theirs, hmine, htheirs, compare_le_iff_le.mp hle⟩

/-- What stands somewhere is a number. -/
theorem isNaN_eq_false {place : ℤ ×ₗ ℤ ×ₗ ℤ} (h : place? a.toModel.unpack = some place) :
    a.isNaN = false := by
  change a.toModel.unpack.isNaN = false
  cases hvalue : a.toModel.unpack with
  | notANumber =>
      rw [hvalue] at h
      exact absurd h.symm (Option.some_ne_none _)
  | infinity _ | zero _ | finite _ _ _ _ => rfl

/-- What is not a number is equal to nothing. -/
theorem isNaN_eq_false_of_beq (h : (a == b) = true) : a.isNaN = false ∧ b.isNaN = false := by
  obtain ⟨place, ha, hb⟩ := beq_iff.mp h
  exact ⟨isNaN_eq_false ha, isNaN_eq_false hb⟩

theorem not_lt_self : ¬ a < a := by
  rw [lt_iff]
  rintro ⟨mine, theirs, hmine, htheirs, h⟩
  obtain rfl := Option.some.inj (hmine.symm.trans htheirs)
  exact lt_irrefl _ h

theorem lt_of_lt_of_lt (h : a < b) (h' : b < c) : a < c := by
  rw [lt_iff] at *
  obtain ⟨place, middle, hplace, hmiddle, h⟩ := h
  obtain ⟨middle', last, hmiddle', hlast, h'⟩ := h'
  obtain rfl := Option.some.inj (hmiddle.symm.trans hmiddle')
  exact ⟨place, last, hplace, hlast, h.trans h'⟩

theorem le_of_lt (h : a < b) : a ≤ b := by
  rw [lt_iff] at h
  rw [le_iff]
  obtain ⟨mine, theirs, hmine, htheirs, h⟩ := h
  exact ⟨mine, theirs, hmine, htheirs, h.le⟩

theorem le_trans (h : a ≤ b) (h' : b ≤ c) : a ≤ c := by
  rw [le_iff] at *
  obtain ⟨place, middle, hplace, hmiddle, h⟩ := h
  obtain ⟨middle', last, hmiddle', hlast, h'⟩ := h'
  obtain rfl := Option.some.inj (hmiddle.symm.trans hmiddle')
  exact ⟨place, last, hplace, hlast, h.trans h'⟩

/-- What is below something is a number. -/
theorem le_self_of_le (h : a ≤ b) : a ≤ a := by
  rw [le_iff] at *
  obtain ⟨place, -, hplace, -, -⟩ := h
  exact ⟨place, place, hplace, hplace, le_rfl⟩

/-- What is above something is a number. -/
theorem le_self_of_ge (h : a ≤ b) : b ≤ b := by
  rw [le_iff] at *
  obtain ⟨-, place, -, hplace, -⟩ := h
  exact ⟨place, place, hplace, hplace, le_rfl⟩

/-- Of two numbers one does not exceed the other. -/
theorem le_of_not_lt (ha : a ≤ a) (hb : b ≤ b) (h : ¬ a < b) : b ≤ a := by
  rw [lt_iff] at h
  rw [le_iff] at *
  obtain ⟨mine, -, hmine, -, -⟩ := ha
  obtain ⟨theirs, -, htheirs, -, -⟩ := hb
  exact ⟨theirs, mine, htheirs, hmine,
    not_lt.mp fun hlower => h ⟨mine, theirs, hmine, htheirs, hlower⟩⟩

theorem lt_or_beq_of_le (h : a ≤ b) : a < b ∨ (a == b) = true := by
  obtain ⟨mine, theirs, hmine, htheirs, hle⟩ := le_iff.mp h
  obtain rfl | hlower := hle.eq_or_lt
  · exact .inr (beq_iff.mpr ⟨mine, hmine, htheirs⟩)
  · exact .inl (lt_iff.mpr ⟨mine, theirs, hmine, htheirs, hlower⟩)

theorem beq_symm (h : (a == b) = true) : (b == a) = true := by
  rw [beq_iff] at *
  exact h.imp fun _ => And.symm

theorem place?_eq_of_beq (h : (a == b) = true) :
    place? a.toModel.unpack = place? b.toModel.unpack := by
  obtain ⟨place, ha, hb⟩ := beq_iff.mp h
  rw [ha, hb]

/-- Equal doubles are below the same doubles. -/
theorem lt_iff_of_beq_left (h : (a == b) = true) : a < c ↔ b < c := by
  rw [lt_iff, lt_iff, place?_eq_of_beq h]

/-- Equal doubles do not exceed the same doubles. -/
theorem le_iff_of_beq (h : (a == b) = true) : a ≤ c ↔ b ≤ c := by
  rw [le_iff, le_iff, place?_eq_of_beq h]

theorem beq_trans (h : (a == b) = true) (h' : (b == c) = true) : (a == c) = true := by
  rw [beq_iff, place?_eq_of_beq h, place?_eq_of_beq h']
  obtain ⟨place, -, hplace⟩ := beq_iff.mp h'
  exact ⟨place, hplace, hplace⟩

theorem not_lt_of_beq (h : (a == b) = true) : ¬ a < b := by
  rw [lt_iff_of_beq_left h]
  exact not_lt_self

/-- Finite doubles at one place are zeros, or the same. -/
theorem eq_of_place?_eq {left right : UnpackedFloat} (hfinite : left.isFinite = true)
    (h : place? left = place? right) :
    (∃ sign sign', left = .zero sign ∧ right = .zero sign') ∨ left = right := by
  rcases left with (_ | _) | _ | _ | ⟨_ | _, m, e, hm⟩ <;>
    rcases right with (_ | _) | _ | _ | ⟨_ | _, m', e', hm'⟩ <;>
    first
      | exact absurd hfinite Bool.false_ne_true
      | exact absurd h (Option.some_ne_none _)
      | exact .inl ⟨_, _, rfl, rfl⟩
      | obtain ⟨hclass, hexponent, hmantissa⟩ := place_inj h
        first
          | omega
          | obtain rfl : e = e' := by omega
            obtain rfl : m = m' := by omega
            exact .inr rfl

/-! ## The larger of two estimates -/

theorem larger_eq_or : larger a b = a ∨ larger a b = b := by
  unfold larger
  split
  · exact .inr rfl
  split
  · exact .inl rfl
  split
  · exact .inl rfl
  · exact .inr rfl

/-- Of two numbers, neither exceeds the larger one. -/
theorem le_larger (ha : a ≤ a) (hb : b ≤ b) : a ≤ larger a b ∧ b ≤ larger a b := by
  obtain ⟨place, _, hplace, _⟩ := le_iff.mp ha
  obtain ⟨place', _, hplace', _⟩ := le_iff.mp hb
  unfold larger
  rw [isNaN_eq_false hplace, isNaN_eq_false hplace']
  simp only [Bool.false_eq_true, if_false]
  split
  · rename_i hlower
    exact ⟨ha, le_of_lt hlower⟩
  · rename_i hnot
    exact ⟨le_of_not_lt hb ha hnot, hb⟩

end Estimate

end QueryPlanner
