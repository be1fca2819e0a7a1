import QueryPlanner.Proofs.Rounding

/-!
# Costs near each other

Costs are compared with a tolerance: two of them are near each other when they differ, as multiples of
the least positive double, by less than a fixed number (`Cost.near_iff`). So a cost between two that
are near each other is near both. Being near is no equality: of three costs, the middle one may be
near both others. `Cost.Apart` says of some costs that two of them are equal or too far apart for the
tolerance to matter; among these, `Cost.near` is equality and `Cost.lowerThan` is `<`.
-/

namespace QueryPlanner

open Float.Model (UnpackedFloat)

namespace Cost

variable {left right : Cost}

/-- Costs are near each other if and only if they are finite and, as multiples of the least positive
double, differ by less than this number. -/
theorem near_iff : left.near right = true ↔ left.total.isFinite = true ∧
    right.total.isFinite = true ∧
    (Estimate.units left.total - Estimate.units right.total).natAbs < 2 ^ 1022 - 2 ^ 968 := by
  obtain ⟨x, hx⟩ : ∃ x, x = left.total.toModel.unpack := ⟨_, rfl⟩
  obtain ⟨y, hy⟩ : ∃ y, y = right.total.toModel.unpack := ⟨_, rfl⟩
  have hnear : left.near right = true ↔
      (Float.ofModel (.pack (.sub .binary64 x y))).abs < Estimate.epsilon := by
    rw [hx, hy]
    exact decide_eq_true_iff
  have hcanonical : Rounding.IsCanonical x := hx ▸ Rounding.isCanonical_unpack _
  have hcanonical' : Rounding.IsCanonical y := hy ▸ Rounding.isCanonical_unpack _
  change _ ↔ left.total.toModel.unpack.isFinite = true ∧
    right.total.toModel.unpack.isFinite = true ∧ _
  unfold Estimate.units
  rw [hnear, ← hx, ← hy]
  by_cases hfinite : x.isFinite = true ∧ y.isFinite = true
  · obtain ⟨zero, hsub⟩ :=
      Rounding.exists_sub_eq_nearest hcanonical hcanonical' hfinite.1 hfinite.2
    rw [hsub, Rounding.abs_lt_epsilon_iff Rounding.isCanonical_nearest,
      Rounding.isSmall_nearest_iff, ← and_assoc, and_iff_right hfinite]
  · have hsub := Rounding.isFinite_sub hfinite
    refine iff_of_false ?_ fun h => hfinite ⟨h.1, h.2.1⟩
    generalize UnpackedFloat.sub .binary64 x y = difference at hsub
    cases difference with
    | zero | finite => exact absurd hsub.symm Bool.false_ne_true
    | infinity sign => exact (Rounding.abs_lt_epsilon_iff (x := .infinity sign) trivial).mp
    | notANumber => exact (Rounding.abs_lt_epsilon_iff (x := .notANumber) trivial).mp

theorem near_comm : left.near right = right.near left := by
  rw [Bool.eq_iff_iff, near_iff, near_iff, ← Int.natAbs_neg, neg_sub]
  exact and_left_comm

/-- Costs between two costs that are near each other are near both of them. -/
theorem near_of_between {middle : Cost} (hlow : left.total ≤ middle.total)
    (hhigh : middle.total ≤ right.total) (hnear : left.near right = true) :
    left.near middle = true ∧ middle.near right = true := by
  obtain ⟨hleft, hright, hclose⟩ := near_iff.mp hnear
  have hmiddle := Estimate.isFinite_of_between hleft hright hlow hhigh
  have hlow := (Estimate.le_iff_units hleft hmiddle).mp hlow
  have hhigh := (Estimate.le_iff_units hmiddle hright).mp hhigh
  rw [near_iff, near_iff]
  generalize 2 ^ 1022 - 2 ^ 968 = bound at hclose ⊢
  refine ⟨⟨hleft, hmiddle, ?_⟩, hmiddle, hright, ?_⟩ <;> omega

theorem isFinite_of_near (h : left.near right = true) :
    left.total.isFinite = true ∧ right.total.isFinite = true :=
  ⟨(near_iff.mp h).1, (near_iff.mp h).2.1⟩

/-- A cost that is not near a higher one is lower than all that are near the higher one. -/
theorem lt_of_lt_of_near {middle : Cost} (hlower : left.total < middle.total)
    (hapart : left.near middle = false) (hnear : middle.near right = true) :
    left.total < right.total := by
  obtain ⟨_, hfinite⟩ := isFinite_of_near hnear
  have hright : right.total ≤ right.total := (Estimate.le_iff_units hfinite hfinite).mpr le_rfl
  have hleft : left.total ≤ left.total := Estimate.le_self_of_le (Estimate.le_of_lt hlower)
  by_contra hnot
  have hbetween := near_of_between (Estimate.le_of_not_lt hleft hright hnot)
    (Estimate.le_of_lt hlower) (near_comm.trans hnear)
  simp [hapart] at hbetween

/-- A cost that is not near a lower one is higher than all that are near the lower one. -/
theorem lt_of_near_of_lt {middle : Cost} (hnear : left.near middle = true)
    (hlower : middle.total < right.total) (hapart : middle.near right = false) :
    left.total < right.total := by
  obtain ⟨hfinite, _⟩ := isFinite_of_near hnear
  have hleft : left.total ≤ left.total := (Estimate.le_iff_units hfinite hfinite).mpr le_rfl
  have hright : right.total ≤ right.total := Estimate.le_self_of_ge (Estimate.le_of_lt hlower)
  by_contra hnot
  have hbetween := near_of_between (Estimate.le_of_lt hlower)
    (Estimate.le_of_not_lt hleft hright hnot) (near_comm.trans hnear)
  simp [hapart] at hbetween

/-- Equal finite costs are near each other. -/
theorem near_of_beq (hfinite : left.total.isFinite = true)
    (h : (left.total == right.total) = true) : left.near right = true := by
  obtain ⟨place, hleft, hright⟩ := Estimate.beq_iff.mp h
  have hle : left.total ≤ right.total := Estimate.le_iff.mpr ⟨place, place, hleft, hright, le_rfl⟩
  have hge : right.total ≤ left.total := Estimate.le_iff.mpr ⟨place, place, hright, hleft, le_rfl⟩
  have hfinite' := Estimate.isFinite_of_between hfinite hfinite hle hge
  have hsame : Estimate.units left.total = Estimate.units right.total :=
    le_antisymm ((Estimate.le_iff_units hfinite hfinite').mp hle)
      ((Estimate.le_iff_units hfinite' hfinite).mp hge)
  refine near_iff.mpr ⟨hfinite, hfinite', ?_⟩
  rw [hsame, sub_self]
  decide +kernel

/-- Of two finite costs that are not near each other, one is lower. -/
theorem lt_or_lt_of_not_near (hleft : left.total.isFinite = true) (hright : right.total.isFinite = true)
    (hapart : left.near right = false) : left.total < right.total ∨ right.total < left.total := by
  by_cases hlower : left.total < right.total
  · exact .inl hlower
  · have hnumber {cost : Cost} (hfinite : cost.total.isFinite = true) : cost.total ≤ cost.total :=
      (Estimate.le_iff_units hfinite hfinite).mpr le_rfl
    obtain hlower | hequal := Estimate.lt_or_beq_of_le
      (Estimate.le_of_not_lt (hnumber hleft) (hnumber hright) hlower)
    · exact .inr hlower
    · simp [near_of_beq hleft (Estimate.beq_symm hequal)] at hapart

/-- Two costs are equal, or they differ by at least the distance between one and the next double. -/
def Apart (left right : Cost) : Prop :=
  (left.total == right.total) = true ∨ left.near right = false

theorem Apart.beq_of_near (h : Apart left right) (hnear : left.near right = true) :
    (left.total == right.total) = true := by
  obtain h | h := h
  · exact h
  · simp [hnear] at h

theorem lowerThan_iff : left.lowerThan right = true ↔
    left.total < right.total ∧ left.near right = false := by
  unfold lowerThan
  simp

theorem lt_of_lowerThan (h : left.lowerThan right = true) : left.total < right.total :=
  (lowerThan_iff.mp h).1

theorem Apart.lowerThan_iff (h : Apart left right) :
    left.lowerThan right = true ↔ left.total < right.total := by
  rw [Cost.lowerThan_iff, and_iff_left_iff_imp]
  intro hlower
  obtain hequal | hapart := h
  · exact absurd hlower (Estimate.not_lt_of_beq hequal)
  · exact hapart

theorem Apart.near_iff (h : Apart left right) (hfinite : left.total.isFinite = true) :
    left.near right = true ↔ (left.total == right.total) = true :=
  ⟨h.beq_of_near, near_of_beq hfinite⟩

end Cost

end QueryPlanner
