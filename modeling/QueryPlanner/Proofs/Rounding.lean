import Mathlib.Tactic.Positivity
import Mathlib.Tactic.Ring
import QueryPlanner.Proofs.Estimate

/-!
# Doubles as whole numbers

Every finite double is a whole multiple of the least positive one (`Estimate.units`). Doubles compare
as these multiples do, and the difference of two is the difference of the multiples, rounded
(`Rounding.exists_sub_eq_nearest`). Rounding is monotone (`Rounding.exponent_mono`), so whether a
rounded value is below a power of two shows at the multiple already (`Rounding.isSmall_nearest_iff`).
-/

namespace QueryPlanner

open Float.Model (UnpackedFloat Format)
open Float.Model.UnpackedFloat (Sign ExtendedMantissa)

/-! ## Rounding a whole number -/

namespace Rounding

variable {em em' : ExtendedMantissa} {n n' : ℕ}

/-- What rounding looks at, as one number: the mantissa with the two bits after it. -/
def code (em : ExtendedMantissa) : ℕ :=
  4 * em.mantissa + 2 * em.roundBit.toNat + em.stickyBit.toNat

/-- A mantissa that nothing was dropped of. -/
abbrev exact (n : ℕ) : ExtendedMantissa := .ofMantissaAndAccuracy n .exact

theorem shiftRight_zero : em >>> 0 = em := rfl

theorem shiftRight_succ : em >>> (n + 1) = (em >>> n).shiftRightOne := rfl

theorem shiftRight_add {count : ℕ} : em >>> (n + count) = (em >>> n) >>> count := by
  induction count with
  | zero => rfl
  | succ count ih => rw [← Nat.add_assoc, shiftRight_succ, ih, shiftRight_succ]

theorem mantissa_shiftRight : (em >>> n).mantissa = em.mantissa / 2 ^ n := by
  induction n with
  | zero => simp [shiftRight_zero]
  | succ n ih =>
      rw [shiftRight_succ, pow_succ, ← Nat.div_div_eq_div_mul, ← ih]
      rfl

/-- The bits that were shifted in are dropped again, and nothing is lost. -/
theorem exact_shiftRight : exact (n <<< n') >>> n' = exact n := by
  induction n' generalizing n with
  | zero => simp [shiftRight_zero]
  | succ n' ih =>
      rw [Nat.add_comm, Nat.shiftLeft_add, Nat.add_comm, shiftRight_succ, ih]
      simp [exact, ExtendedMantissa.ofMantissaAndAccuracy, ExtendedMantissa.shiftRightOne,
        Nat.shiftLeft_eq]

/-- Only the difference of two shifts counts, if one way of shifting is to the left or to the right
only. -/
theorem exact_shiftLeft_shiftRight {left right left' right' : ℕ}
    (h : left + right' = left' + right) (hone : left = 0 ∨ right = 0) :
    exact (n <<< left) >>> right = exact (n <<< left') >>> right' := by
  obtain rfl | rfl := hone
  · obtain rfl : right' = left' + right := by omega
    rw [shiftRight_add, exact_shiftRight]
    simp
  · obtain rfl : left' = left + right' := by omega
    rw [Nat.shiftLeft_add, exact_shiftRight, shiftRight_zero]

theorem code_exact_mono (h : n ≤ n') : code (exact n) ≤ code (exact n') := by
  simpa [code, exact, ExtendedMantissa.ofMantissaAndAccuracy] using h

theorem code_shiftRightOne :
    code em.shiftRightOne = 2 * em.mantissa + (em.roundBit || em.stickyBit).toNat := by
  unfold code ExtendedMantissa.shiftRightOne
  dsimp only
  have hbit : (em.mantissa % 2 != 0).toNat = em.mantissa % 2 := by
    obtain h | h := Nat.mod_two_eq_zero_or_one em.mantissa <;> simp [h]
  omega

/-- Dropping a bit keeps the order. -/
theorem code_shiftRightOne_mono (h : code em ≤ code em') :
    code em.shiftRightOne ≤ code em'.shiftRightOne := by
  rw [code_shiftRightOne, code_shiftRightOne]
  obtain ⟨m, r, s⟩ := em
  obtain ⟨m', r', s'⟩ := em'
  cases r <;> cases s <;> cases r' <;> cases s' <;> simp [code] at h ⊢ <;> omega

theorem code_shiftRight_mono (h : code em ≤ code em') (n : ℕ) : code (em >>> n) ≤ code (em' >>> n) := by
  induction n with
  | zero => exact h
  | succ n ih => exact code_shiftRightOne_mono ih

theorem roundedMantissa_mono (h : code em ≤ code em') : em.roundedMantissa ≤ em'.roundedMantissa := by
  obtain ⟨m, r, s⟩ := em
  obtain ⟨m', r', s'⟩ := em'
  cases r <;> cases s <;> cases r' <;> cases s' <;>
    simp [code, ExtendedMantissa.roundedMantissa, ExtendedMantissa.accuracy,
      Float.Model.UnpackedFloat.Accuracy.roundToNearestEven] at h ⊢ <;> omega

theorem mantissa_le_roundedMantissa : em.mantissa ≤ em.roundedMantissa := by
  obtain ⟨m, r, s⟩ := em
  cases r <;> cases s <;>
    simp [ExtendedMantissa.roundedMantissa, ExtendedMantissa.accuracy,
      Float.Model.UnpackedFloat.Accuracy.roundToNearestEven]

theorem roundedMantissa_le : em.roundedMantissa ≤ em.mantissa + 1 := by
  obtain ⟨m, r, s⟩ := em
  cases r <;> cases s <;>
    simp [ExtendedMantissa.roundedMantissa, ExtendedMantissa.accuracy,
      Float.Model.UnpackedFloat.Accuracy.roundToNearestEven]
  omega

theorem log2_mono (h : n ≤ n') : n.log2 ≤ n'.log2 := by
  rcases Nat.eq_zero_or_pos n with rfl | hpos
  · simp
  · exact (Nat.le_log2 (by omega)).mpr ((Nat.log2_self_le (by omega)).trans h)

/-- The mantissa that a whole number is rounded to, of at most 53 bits, or of one more when all of
them are carried over. -/
def mantissa (n : ℕ) : ℕ := (exact n >>> (n.log2 - 52)).roundedMantissa

/-- How many bits a whole number loses when it is rounded. -/
def exponent (n : ℕ) : ℕ := (n.log2 - 52) + ((mantissa n).log2 - 52)

theorem mantissa_of_log2_le (h : n.log2 ≤ 52) : mantissa n = n := by
  unfold mantissa
  rw [Nat.sub_eq_zero_of_le h]
  rfl

/-- A longer number keeps 53 bits, or one more when all of them are carried over. -/
theorem mantissa_bounds (h : 52 ≤ n.log2) : 2 ^ 52 ≤ mantissa n ∧ mantissa n ≤ 2 ^ 53 := by
  have hne : n ≠ 0 := by rintro rfl; simp at h
  have hkept : (exact n >>> (n.log2 - 52)).mantissa = n / 2 ^ (n.log2 - 52) := mantissa_shiftRight
  have hlow : 2 ^ 52 ≤ n / 2 ^ (n.log2 - 52) := by
    rw [Nat.le_div_iff_mul_le (by positivity), ← pow_add, Nat.add_sub_cancel' h]
    exact Nat.log2_self_le hne
  have hhigh : n / 2 ^ (n.log2 - 52) < 2 ^ 53 := by
    rw [Nat.div_lt_iff_lt_mul (by positivity), ← pow_add,
      show 53 + (n.log2 - 52) = n.log2 + 1 by omega]
    exact Nat.lt_log2_self
  have hleast : n / 2 ^ (n.log2 - 52) ≤ mantissa n := hkept ▸ mantissa_le_roundedMantissa
  have hmost : mantissa n ≤ n / 2 ^ (n.log2 - 52) + 1 := hkept ▸ roundedMantissa_le
  omega

theorem log2_mantissa_le : (mantissa n).log2 ≤ 53 := by
  by_cases h : 52 ≤ n.log2
  · have hlog : (2 ^ 53 : ℕ).log2 = 53 := Nat.log2_two_pow
    exact hlog ▸ log2_mono (mantissa_bounds h).2
  · rw [mantissa_of_log2_le (by omega)]
    omega

/-- Rounding is monotone in the exponent. -/
theorem exponent_mono (h : n ≤ n') : exponent n ≤ exponent n' := by
  have hlog := log2_mono h
  have hmost := log2_mantissa_le (n := n)
  unfold exponent
  rcases Nat.lt_or_ge (n.log2 - 52) (n'.log2 - 52) with hlower | hsame
  · omega
  · have hequal : n.log2 - 52 = n'.log2 - 52 := by omega
    have hmantissa : mantissa n ≤ mantissa n' := by
      unfold mantissa
      rw [hequal]
      exact roundedMantissa_mono (code_shiftRight_mono (code_exact_mono h) _)
    have := log2_mono hmantissa
    omega

/-- The numbers that are rounded to below the given power of two. -/
theorem exponent_lt_iff : exponent n < 970 ↔ n < 2 ^ 1022 - 2 ^ 968 := by
  have hlast : exponent (2 ^ 1022 - 2 ^ 968 - 1) < 970 := by decide +kernel
  have hfirst : 970 ≤ exponent (2 ^ 1022 - 2 ^ 968) := by decide +kernel
  constructor
  · intro h
    by_contra hn
    exact absurd (hfirst.trans (exponent_mono (Nat.le_of_not_lt hn))) (by omega)
  · intro h
    exact (exponent_mono (Nat.le_sub_one_of_lt h)).trans_lt hlast

/-- The mantissa of a rounded number: the last bit is dropped when all bits were carried over. -/
def kept (n : ℕ) : ℕ := mantissa n / 2 ^ ((mantissa n).log2 - 52)

/-- The mantissa and the exponent of a finite double: the mantissa has all its bits, or the exponent
is the least one. -/
structure Canonical (m : ℕ) (e : ℤ) : Prop where
  least : -1074 ≤ e
  most : m < 2 ^ 53
  full : 2 ^ 52 ≤ m ∨ e = -1074

theorem log2_shiftLeft (h : 0 < n) (count : ℕ) : (n <<< count).log2 = n.log2 + count := by
  rw [Nat.shiftLeft_eq, Nat.log2_eq_iff (by positivity), pow_add,
    show n.log2 + count + 1 = n.log2 + 1 + count by omega, pow_add]
  exact ⟨Nat.mul_le_mul_right _ (Nat.log2_self_le (by omega)),
    Nat.mul_lt_mul_of_pos_right Nat.lt_log2_self (by positivity)⟩

theorem kept_of_log2_le (h : n.log2 ≤ 52) : kept n = n ∧ exponent n = 0 := by
  unfold kept exponent
  rw [mantissa_of_log2_le h, Nat.sub_eq_zero_of_le h]
  simp

/-- A longer number keeps 53 bits. -/
theorem kept_bounds (h : 52 ≤ n.log2) : 2 ^ 52 ≤ kept n ∧ kept n < 2 ^ 53 := by
  obtain ⟨hleast, hmost⟩ := mantissa_bounds h
  unfold kept
  obtain hcarried | hlower := Nat.eq_or_lt_of_le hmost
  · rw [hcarried, Nat.log2_two_pow]
    decide
  · have hlog : (mantissa n).log2 = 52 := (Nat.log2_eq_iff (by omega)).mpr ⟨hleast, hlower⟩
    rw [hlog, Nat.sub_self, pow_zero, Nat.div_one]
    exact ⟨hleast, hlower⟩

theorem kept_pos (h : 0 < n) : 0 < kept n := by
  rcases Nat.le_total n.log2 52 with hshort | hlong
  · rwa [(kept_of_log2_le hshort).1]
  · exact (Nat.two_pow_pos 52).trans_le (kept_bounds hlong).1

/-- A rounded number is canonical. -/
theorem canonical_kept (n : ℕ) : Canonical (kept n) (exponent n - 1074) := by
  rcases Nat.lt_or_ge n.log2 52 with hshort | hlong
  · obtain ⟨hkept, hexponent⟩ := kept_of_log2_le hshort.le
    rw [hkept, hexponent]
    refine ⟨by omega, ?_, .inr (by omega)⟩
    exact Nat.lt_log2_self.trans_le (Nat.pow_le_pow_right (by omega) (by omega))
  · obtain ⟨hleast, hmost⟩ := kept_bounds hlong
    exact ⟨by omega, hmost, .inl hleast⟩

/-- A canonical number is not changed by rounding. -/
theorem kept_of_canonical {m : ℕ} {e : ℤ} (h : Canonical m e) (hpos : 0 < m) :
    kept (m <<< (e + 1074).toNat) = m ∧ exponent (m <<< (e + 1074).toNat) = (e + 1074).toNat := by
  have hlog : m.log2 < 53 := (Nat.log2_lt (by omega)).mpr h.most
  obtain hfull | hleast := h.full
  · have hlog : m.log2 = 52 := by
      have := (Nat.le_log2 (by omega)).mpr hfull
      omega
    have hmantissa : mantissa (m <<< (e + 1074).toNat) = m := by
      unfold mantissa
      rw [log2_shiftLeft hpos, hlog, Nat.add_sub_cancel_left, exact_shiftRight]
      rfl
    unfold kept exponent
    rw [hmantissa, log2_shiftLeft hpos, hlog]
    simp
  · obtain rfl := hleast
    exact kept_of_log2_le (by simpa using by omega)

/-! ## Rounding a double -/

theorem targetExponent_eq (e : ℤ) : Format.binary64.targetExponent e = max (e - 53) (-1074) := rfl

theorem finite_congr {sign : Sign} {m m' : ℕ} {e e' : ℤ} {hpos : 0 < m} {hpos' : 0 < m'}
    (hm : m = m') (he : e = e') :
    UnpackedFloat.finite sign m e hpos = .finite sign m' e' hpos' := by
  subst hm he
  rfl

/-- However a value is written, shifting it to the exponent for its size leaves the same mantissa and
the same bits after it. -/
theorem shiftToTargetExponent_decreaseExponent {m : ℕ} {e : ℤ} (hpos : 0 < m) (he : -1074 ≤ e) :
    let target := Format.binary64.targetExponent (Float.Model.totalExponent m e)
    let start := UnpackedFloat.decreaseExponent m e target
    let n := m <<< (e + 1074).toNat
    UnpackedFloat.shiftToTargetExponent .binary64 start.1 start.2 .exact =
      (exact n >>> (n.log2 - 52), ((n.log2 - 52 : ℕ) : ℤ) - 1074) := by
  intro target start n
  obtain ⟨bits, rfl⟩ : ∃ bits : ℕ, e = bits - 1074 := ⟨(e + 1074).toNat, by omega⟩
  have hbits : ((bits : ℤ) - 1074 + 1074).toNat = bits := by omega
  have hlog : n.log2 = m.log2 + bits := by
    simp only [n, hbits, log2_shiftLeft hpos]
  have htarget : target = ((n.log2 - 52 : ℕ) : ℤ) - 1074 := by
    simp only [target, targetExponent_eq, Float.Model.totalExponent]
    omega
  obtain ⟨grown, hgrown⟩ : ∃ grown : ℕ, grown = ((bits : ℤ) - 1074 - target).toNat := ⟨_, rfl⟩
  have hstart : start = (m <<< grown, (bits : ℤ) - 1074 - grown) := by
    simp only [start, UnpackedFloat.decreaseExponent, hgrown]
  have hsame : Format.binary64.targetExponent (Float.Model.totalExponent start.1 start.2) =
      target := by
    rw [hstart]
    simp only [target, Float.Model.totalExponent, log2_shiftLeft hpos]
    congr 1
    push_cast
    ring
  have hn : n = m <<< bits := by simp only [n, hbits]
  have hshifted : exact (m <<< grown) >>> (target - (bits - 1074 - grown)).toNat =
      exact n >>> (n.log2 - 52) := by
    rw [hn] at htarget ⊢
    exact exact_shiftLeft_shiftRight (by omega) (by omega)
  unfold UnpackedFloat.shiftToTargetExponent UnpackedFloat.shiftToExponent
  dsimp only
  rw [hsame, hstart]
  dsimp only
  rw [hshifted]
  congr 1
  omega

/-- What is rounded is shifted again, in case all bits were carried over. -/
theorem shiftToTargetExponent_mantissa (n : ℕ) :
    UnpackedFloat.shiftToTargetExponent .binary64 (mantissa n) (((n.log2 - 52 : ℕ) : ℤ) - 1074)
      .exact = (exact (mantissa n) >>> ((mantissa n).log2 - 52), (exponent n : ℤ) - 1074) := by
  have htarget : Format.binary64.targetExponent
      (Float.Model.totalExponent (mantissa n) (((n.log2 - 52 : ℕ) : ℤ) - 1074)) =
        max ((mantissa n).log2 + (((n.log2 - 52 : ℕ) : ℤ) - 1074) - 52) (-1074) := by
    simp only [targetExponent_eq, Float.Model.totalExponent]
    omega
  unfold UnpackedFloat.shiftToTargetExponent UnpackedFloat.shiftToExponent exponent
  dsimp only
  rw [htarget]
  congr 1
  · congr 1
    omega
  · omega

/-- A value is rounded as a multiple of the least positive double. -/
theorem round_eq {m : ℕ} {e : ℤ} (sign : Sign) (hpos : 0 < m) (he : -1074 ≤ e)
    (hn : n = m <<< (e + 1074).toNat) (hpos' : 0 < n) :
    UnpackedFloat.round .binary64 sign m e =
      .finite sign (kept n) (exponent n - 1074) (kept_pos hpos') := by
  have hfirst := shiftToTargetExponent_decreaseExponent hpos he
  have hagain := shiftToTargetExponent_mantissa n
  have hkept : (exact (mantissa n) >>> ((mantissa n).log2 - 52)).mantissa = kept n :=
    mantissa_shiftRight
  dsimp only at hfirst
  rw [← hn] at hfirst
  unfold UnpackedFloat.round UnpackedFloat.roundWithAccuracy
  dsimp only
  rw [hfirst]
  dsimp only
  have hmantissa : (UnpackedFloat.shiftToTargetExponent .binary64
      (exact n >>> (n.log2 - 52)).roundedMantissa (((n.log2 - 52 : ℕ) : ℤ) - 1074)
        .exact).1.mantissa = kept n := (congrArg (·.1.mantissa) hagain).trans hkept
  have hexponent : (UnpackedFloat.shiftToTargetExponent .binary64
      (exact n >>> (n.log2 - 52)).roundedMantissa (((n.log2 - 52 : ℕ) : ℤ) - 1074)
        .exact).2 = exponent n - 1074 := congrArg (·.2) hagain
  rw [dif_neg (hmantissa.trans_ne (kept_pos hpos').ne')]
  exact finite_congr hmantissa hexponent

/-! ## The difference of two doubles -/

/-- How many times the least positive double a value is. -/
def units : UnpackedFloat → ℤ
  | .finite sign m e _ => sign.apply (m <<< (e + 1074).toNat : ℕ)
  | _ => 0

/-- A finite value is written as a double has it. -/
def IsCanonical : UnpackedFloat → Prop
  | .finite _ m e _ => Canonical m e
  | _ => True

/-- The value is finite, and its magnitude is below the distance between one and the next double. -/
def IsSmall : UnpackedFloat → Prop
  | .zero _ => True
  | .finite _ _ e _ => e < -104
  | _ => False

/-- The value that a multiple of the least positive double is rounded to. -/
def nearest (z : ℤ) (zero : Sign) : UnpackedFloat := .normalize .binary64 z (-1074) zero

variable {x y : UnpackedFloat} {sign zero : Sign} {z : ℤ}

theorem nearest_zero : nearest 0 zero = .zero zero := rfl

theorem normalize_apply {e : ℤ} (sign : Sign) (hpos : 0 < n) :
    UnpackedFloat.normalize .binary64 (sign.apply n) e zero =
      UnpackedFloat.round .binary64 sign n e := by
  unfold UnpackedFloat.normalize
  cases sign with
  | negative =>
      have hlower : compare (Sign.negative.apply n) 0 = .lt :=
        compare_lt_iff_lt.mpr (by simpa [Sign.apply] using hpos)
      rw [hlower]
      simp [Sign.apply]
  | positive =>
      have hgreater : compare (Sign.positive.apply n) 0 = .gt :=
        compare_gt_iff_gt.mpr (by simpa [Sign.apply] using hpos)
      rw [hgreater]
      simp [Sign.apply]

theorem nearest_apply (hpos : 0 < n) : nearest (sign.apply n) zero =
    .finite sign (kept n) (exponent n - 1074) (kept_pos hpos) := by
  unfold nearest
  rw [normalize_apply sign hpos, round_eq sign hpos le_rfl (by simp) hpos]

theorem apply_shiftLeft {count : ℕ} :
    sign.apply (n <<< count : ℕ) = sign.apply n * 2 ^ count := by
  cases sign <;> simp [Sign.apply, Nat.shiftLeft_eq]

/-- A whole number is zero, or a positive one with a sign. -/
theorem eq_zero_or_exists_apply (z : ℤ) : z = 0 ∨ ∃ sign : Sign, ∃ n : ℕ, 0 < n ∧ z = sign.apply n := by
  rcases lt_trichotomy z 0 with hlower | rfl | hgreater
  · exact .inr ⟨.negative, z.natAbs, by omega, by simp only [Sign.apply]; omega⟩
  · exact .inl rfl
  · exact .inr ⟨.positive, z.natAbs, by omega, by simp only [Sign.apply]; omega⟩

theorem natAbs_apply : (sign.apply n).natAbs = n := by cases sign <;> simp [Sign.apply]

theorem isCanonical_nearest : IsCanonical (nearest z zero) := by
  obtain rfl | ⟨sign, n, hpos, rfl⟩ := eq_zero_or_exists_apply z
  · trivial
  · rw [nearest_apply hpos]
    exact canonical_kept n

theorem isSmall_nearest_iff : IsSmall (nearest z zero) ↔ z.natAbs < 2 ^ 1022 - 2 ^ 968 := by
  obtain rfl | ⟨sign, n, hpos, rfl⟩ := eq_zero_or_exists_apply z
  · exact iff_of_true trivial (by decide +kernel)
  · rw [nearest_apply hpos, natAbs_apply, ← exponent_lt_iff]
    unfold IsSmall
    omega

/-- A double is the multiple that it is. -/
theorem nearest_units {m : ℕ} {e : ℤ} {hpos : 0 < m} (h : Canonical m e) :
    nearest (units (.finite sign m e hpos)) zero = .finite sign m e hpos := by
  obtain ⟨hkept, hexponent⟩ := kept_of_canonical h hpos
  have hpos' : 0 < m <<< (e + 1074).toNat := by
    rw [Nat.shiftLeft_eq]
    positivity
  have hleast := h.least
  unfold units
  rw [nearest_apply hpos']
  exact finite_congr hkept (by omega)

theorem normalize_eq_nearest {e : ℤ} (he : -1074 ≤ e) :
    UnpackedFloat.normalize .binary64 z e zero = nearest (z * 2 ^ (e + 1074).toNat) zero := by
  obtain rfl | ⟨sign, n, hpos, rfl⟩ := eq_zero_or_exists_apply z
  · rw [zero_mul]
    rfl
  · have hpos' : 0 < n <<< (e + 1074).toNat := by
      rw [Nat.shiftLeft_eq]
      positivity
    rw [← apply_shiftLeft, normalize_apply sign hpos, nearest_apply hpos']
    exact round_eq sign hpos he rfl hpos'

theorem units_neg {m : ℕ} {e : ℤ} {hpos : 0 < m} :
    units (.finite (-sign) m e hpos) = -units (.finite sign m e hpos) := by
  cases sign
  · exact (neg_neg _).symm
  · rfl

/-- However far the exponent is decreased, the value stays the same multiple. -/
theorem apply_decreaseExponent {m : ℕ} {e target : ℤ} {hpos : 0 < m} (htarget : -1074 ≤ target)
    (h : target ≤ e) : sign.apply (UnpackedFloat.decreaseExponent m e target).1 *
      2 ^ (target + 1074).toNat = units (.finite sign m e hpos) := by
  have hshift : (e - target).toNat + (target + 1074).toNat = (e + 1074).toNat := by omega
  unfold UnpackedFloat.decreaseExponent units
  dsimp only
  rw [← apply_shiftLeft, ← Nat.shiftLeft_add, hshift]

/-- Values are subtracted at the smaller one of their exponents. -/
theorem sub_finite {m m' : ℕ} {e e' : ℤ} {sign' : Sign} {hpos : 0 < m} {hpos' : 0 < m'}
    (he : -1074 ≤ e) (he' : -1074 ≤ e') :
    UnpackedFloat.sub .binary64 (.finite sign m e hpos) (.finite sign' m' e' hpos') =
      nearest (units (.finite sign m e hpos) - units (.finite sign' m' e' hpos')) .positive := by
  have hleast : -1074 ≤ min e e' := by omega
  rw [← apply_decreaseExponent hleast (min_le_left e e'),
    ← apply_decreaseExponent hleast (min_le_right e e'), ← sub_mul, ← normalize_eq_nearest hleast]
  rfl

/-- Values are added at the smaller one of their exponents. -/
theorem add_finite {m m' : ℕ} {e e' : ℤ} {sign' : Sign} {hpos : 0 < m} {hpos' : 0 < m'}
    (he : -1074 ≤ e) (he' : -1074 ≤ e') :
    UnpackedFloat.add .binary64 (.finite sign m e hpos) (.finite sign' m' e' hpos') =
      nearest (units (.finite sign m e hpos) + units (.finite sign' m' e' hpos')) .positive := by
  have hleast : -1074 ≤ min e e' := by omega
  rw [← apply_decreaseExponent hleast (min_le_left e e'),
    ← apply_decreaseExponent hleast (min_le_right e e'), ← add_mul, ← normalize_eq_nearest hleast]
  rfl

/-- The difference of two doubles is that of the multiples, rounded. -/
theorem exists_sub_eq_nearest (hx : IsCanonical x) (hy : IsCanonical y)
    (hfinite : x.isFinite = true) (hfinite' : y.isFinite = true) :
    ∃ zero, UnpackedFloat.sub .binary64 x y = nearest (units x - units y) zero := by
  cases x with
  | infinity | notANumber => exact absurd hfinite Bool.false_ne_true
  | zero sign =>
      cases y with
      | infinity | notANumber => exact absurd hfinite' Bool.false_ne_true
      | zero sign' => cases sign <;> cases sign' <;> exact ⟨_, rfl⟩
      | finite sign' m e hpos =>
          refine ⟨.positive, ?_⟩
          have hsame : units (.zero sign) - units (.finite sign' m e hpos) =
              units (.finite (-sign') m e hpos) := by
            rw [units_neg]
            exact zero_sub _
          rw [hsame, nearest_units hy]
          rfl
  | finite sign m e hpos =>
      cases y with
      | infinity | notANumber => exact absurd hfinite' Bool.false_ne_true
      | zero sign' =>
          refine ⟨.positive, ?_⟩
          have hsame : units (.finite sign m e hpos) - units (.zero sign') =
              units (.finite sign m e hpos) := sub_zero _
          rw [hsame, nearest_units hx]
          rfl
      | finite sign' m' e' hpos' => exact ⟨.positive, sub_finite hx.least hy.least⟩

/-- Where one of two values is not finite, neither is their difference. -/
theorem isFinite_sub (h : ¬ (x.isFinite = true ∧ y.isFinite = true)) :
    (UnpackedFloat.sub .binary64 x y).isFinite = false := by
  rcases x with (_ | _) | _ | _ | _ <;> rcases y with (_ | _) | _ | _ | _ <;>
    first
      | rfl
      | exact absurd ⟨rfl, rfl⟩ h

/-! ## Doubles as they are stored -/

/-- The bit that is not stored stands above the others. -/
theorem toNat_append_one (m : BitVec 52) : (1#1 ++ m).toNat = 2 ^ 52 + m.toNat := by
  rw [BitVec.toNat_append, ← Nat.shiftLeft_add_eq_or_of_lt m.isLt]
  simp [Nat.shiftLeft_eq]

/-- The sign of a stored double is read again. -/
theorem ofBitVec_unpackSign (e : BitVec 11) (m : BitVec 52) :
    Sign.ofBitVec (UnpackedFloat.unpackSign (UnpackedFloat.packComponents .binary64 sign e m)) =
      sign := by
  have hsign : UnpackedFloat.unpackSign (UnpackedFloat.packComponents .binary64 sign e m) =
      sign.toBitVec := by
    change (sign.toBitVec ++ e ++ m).extractLsb' 63 1 = sign.toBitVec
    rw [BitVec.extractLsb'_append_eq_of_le (by decide),
      BitVec.extractLsb'_append_eq_of_le (by decide)]
    cases sign <;> rfl
  rw [hsign]
  cases sign <;> rfl

variable {bits : BitVec Format.binary64.numBits} {mantissaBits : BitVec 52}
  {exponentBits : BitVec 11}

/-- A double whose exponent is neither the first nor the last one has a full mantissa. -/
theorem unpack_full (hmantissa : UnpackedFloat.unpackMantissa bits = mantissaBits)
    (hexponent : UnpackedFloat.unpackExponent bits = exponentBits)
    (hsign : Sign.ofBitVec (UnpackedFloat.unpackSign bits) = sign)
    (hlast : exponentBits ≠ -1#11) (hfirst : exponentBits ≠ 0#11)
    (hpos : 0 < (1#1 ++ mantissaBits).toNat) :
    UnpackedFloat.unpack .binary64 bits =
      .finite sign (1#1 ++ mantissaBits).toNat (exponentBits.toNat - 1075) hpos := by
  subst hmantissa hexponent hsign
  unfold UnpackedFloat.unpack
  dsimp only
  rw [if_neg hlast, if_neg hfirst]
  rfl

/-- A double with the first exponent has a part of a mantissa. -/
theorem unpack_part (hmantissa : UnpackedFloat.unpackMantissa bits = mantissaBits)
    (hexponent : UnpackedFloat.unpackExponent bits = 0#11)
    (hsign : Sign.ofBitVec (UnpackedFloat.unpackSign bits) = sign)
    (hpos : 0 < mantissaBits.toNat) :
    UnpackedFloat.unpack .binary64 bits = .finite sign mantissaBits.toNat (-1074) hpos := by
  subst hmantissa hsign
  have hsome : UnpackedFloat.unpackMantissa bits ≠ 0#52 := fun h => by
    have := congrArg BitVec.toNat h
    exact hpos.ne' this
  have hlast : UnpackedFloat.unpackExponent bits ≠ -1#11 := by
    rw [hexponent]
    decide
  unfold UnpackedFloat.unpack
  dsimp only
  rw [if_neg hlast, if_pos hexponent, dif_neg hsome]
  refine finite_congr rfl ?_
  rw [hexponent]
  rfl

/-- The value of a double is canonical. -/
theorem isCanonical_unpack (bits : BitVec Format.binary64.numBits) :
    IsCanonical (.unpack .binary64 bits) := by
  by_cases hlast : UnpackedFloat.unpackExponent bits = -1#11
  · unfold UnpackedFloat.unpack
    dsimp only
    rw [if_pos hlast]
    split <;> trivial
  by_cases hfirst : UnpackedFloat.unpackExponent bits = 0#11
  · by_cases hzero : UnpackedFloat.unpackMantissa bits = 0#52
    · unfold UnpackedFloat.unpack
      dsimp only
      rw [if_neg hlast, if_pos hfirst, dif_pos hzero]
      trivial
    · have hpos : 0 < (UnpackedFloat.unpackMantissa bits).toNat :=
        Nat.pos_of_ne_zero fun h => hzero (BitVec.eq_of_toNat_eq h)
      rw [unpack_part rfl hfirst rfl hpos]
      have hmost : (UnpackedFloat.unpackMantissa bits).toNat < 2 ^ 52 := BitVec.isLt _
      exact ⟨le_rfl, by omega, .inr rfl⟩
  · have hpos : 0 < (UnpackedFloat.unpackExponent bits).toNat :=
      Nat.pos_of_ne_zero fun h => hfirst (BitVec.eq_of_toNat_eq h)
    have hmantissa : (UnpackedFloat.unpackMantissa bits).toNat < 2 ^ 52 := BitVec.isLt _
    have hone := toNat_append_one (UnpackedFloat.unpackMantissa bits)
    rw [unpack_full rfl rfl rfl hlast hfirst (by omega)]
    exact ⟨by omega, by omega, .inl (by omega)⟩

theorem pack_finite {m : ℕ} {e : ℤ} {hpos : 0 < m} :
    UnpackedFloat.pack .binary64 (.finite sign m e hpos) =
      if 2 ^ 11 ≤ (e + (1023 : ℕ) + (52 : ℕ)).toNat + 1 then
        UnpackedFloat.packedInfinity .binary64 sign
      else if m.log2 + 1 = 53 then
        UnpackedFloat.packComponents .binary64 sign
          (BitVec.ofNat 11 (e + (1023 : ℕ) + (52 : ℕ)).toNat) (BitVec.ofNat 52 m)
      else UnpackedFloat.packComponents .binary64 sign 0#11 (BitVec.ofNat 52 m) := rfl

/-- A double that can be stored is read again. -/
theorem unpack_pack {m : ℕ} {e : ℤ} {hpos : 0 < m} (h : Canonical m e) (he : e ≤ 971) :
    UnpackedFloat.unpack .binary64 (UnpackedFloat.pack .binary64 (.finite sign m e hpos)) =
      .finite sign m e hpos := by
  have hleast := h.least
  have hmost := h.most
  obtain ⟨biased, hbiased⟩ : ∃ biased : ℕ, (biased : ℤ) = e + 1075 := ⟨(e + 1075).toNat, by omega⟩
  have hnat : (e + (1023 : ℕ) + (52 : ℕ)).toNat = biased := by omega
  rw [pack_finite, hnat, if_neg (by omega)]
  by_cases hfull : 2 ^ 52 ≤ m
  · have hlog : m.log2 = 52 := (Nat.log2_eq_iff (by omega)).mpr ⟨hfull, hmost⟩
    have hstored : (BitVec.ofNat 11 biased).toNat = biased := by
      rw [BitVec.toNat_ofNat]
      omega
    have hother (n : BitVec 11) (hn : biased ≠ n.toNat) : BitVec.ofNat 11 biased ≠ n :=
      fun heq => hn (hstored.symm.trans (congrArg BitVec.toNat heq))
    have hone : (1#1 ++ BitVec.ofNat 52 m).toNat = m := by
      rw [toNat_append_one, BitVec.toNat_ofNat]
      omega
    rw [if_pos (by omega), unpack_full UnpackedFloat.unpackMantissa_packComponents
      UnpackedFloat.unpackExponent_packComponents (ofBitVec_unpackSign _ _)
      (hother _ (by simp; omega)) (hother _ (by simp; omega)) (by omega)]
    exact finite_congr hone (by omega)
  · have hlog : m.log2 < 52 := (Nat.log2_lt (by omega)).mpr (Nat.lt_of_not_le hfull)
    have hexponent : -1074 = e := (h.full.resolve_left hfull).symm
    have hstored : (BitVec.ofNat 52 m).toNat = m := by
      rw [BitVec.toNat_ofNat]
      omega
    rw [if_neg (by omega), unpack_part UnpackedFloat.unpackMantissa_packComponents
      UnpackedFloat.unpackExponent_packComponents (ofBitVec_unpackSign _ _) (by omega)]
    exact finite_congr hstored hexponent

/-- A value that is too large is stored as an infinity. -/
theorem unpack_pack_of_lt {m : ℕ} {e : ℤ} {hpos : 0 < m} (he : 971 < e) :
    UnpackedFloat.unpack .binary64 (UnpackedFloat.pack .binary64 (.finite sign m e hpos)) =
      .infinity sign := by
  rw [pack_finite, if_pos (by omega)]
  cases sign <;> rfl

/-- The magnitude of a stored value is below the distance between one and the next double if and
only if the value is small. -/
theorem abs_lt_epsilon_iff (hx : IsCanonical x) :
    (Float.ofModel (.pack x)).abs < Estimate.epsilon ↔ IsSmall x := by
  cases x with
  | infinity sign => exact iff_of_false (by cases sign <;> decide +kernel) id
  | notANumber => exact iff_of_false (by decide +kernel) id
  | zero sign => exact iff_of_true (by cases sign <;> decide +kernel) trivial
  | finite sign m e hpos =>
      have hread (value : UnpackedFloat) (hvalue : UnpackedFloat.unpack .binary64
            (UnpackedFloat.pack .binary64 (.finite sign m e hpos)) = value) :
          (Float.ofModel (.pack (.finite sign m e hpos))).abs.toModel.unpack =
            UnpackedFloat.unpack .binary64 (UnpackedFloat.pack .binary64 value.abs) := by
        rw [← hvalue]
        rfl
      have hepsilon : Estimate.place? Estimate.epsilon.toModel.unpack =
          some (toLex (1, toLex (-104, 2 ^ 52))) := by decide +kernel
      rw [Estimate.lt_iff, hepsilon]
      by_cases hstored : e ≤ 971
      · have hplace : UnpackedFloat.unpack .binary64 (UnpackedFloat.pack .binary64
            (UnpackedFloat.finite sign m e hpos).abs) = .finite .positive m e hpos :=
          unpack_pack hx hstored
        have hfull : 2 ^ 52 ≤ m ∨ e = -1074 := hx.full
        rw [hread _ (unpack_pack hx hstored), hplace]
        dsimp only [Estimate.place?, IsSmall]
        simp only [Option.some.injEq, exists_eq_left', exists_and_left,
          Prod.Lex.toLex_lt_toLex, lt_irrefl, false_or, true_and]
        omega
      · rw [hread _ (unpack_pack_of_lt (by omega))]
        have hplace : Estimate.place? (UnpackedFloat.unpack .binary64 (UnpackedFloat.pack .binary64
            (UnpackedFloat.infinity sign).abs)) = some (toLex (2, toLex (0, 0))) := by
          cases sign <;> rfl
        rw [hplace]
        dsimp only [IsSmall]
        simp only [Option.some.injEq, exists_eq_left', exists_and_left, Prod.Lex.toLex_lt_toLex]
        omega

/-! ## The order of doubles -/

/-- A larger exponent, or the same one with a larger mantissa, makes a larger multiple. -/
theorem shiftLeft_lt {m m' : ℕ} {e e' : ℤ} (h : Canonical m e) (h' : Canonical m' e')
    (hlower : e < e' ∨ e = e' ∧ m < m') :
    m <<< (e + 1074).toNat < m' <<< (e' + 1074).toNat := by
  have hleast := h.least
  have hleast' := h'.least
  rw [Nat.shiftLeft_eq, Nat.shiftLeft_eq]
  obtain hlower | ⟨rfl, hlower⟩ := hlower
  · have hfull : 2 ^ 52 ≤ m' := h'.full.resolve_right (by omega)
    calc m * 2 ^ (e + 1074).toNat < 2 ^ 53 * 2 ^ (e + 1074).toNat :=
          Nat.mul_lt_mul_of_pos_right h.most (by positivity)
      _ = 2 ^ 52 * 2 ^ ((e + 1074).toNat + 1) := by ring
      _ ≤ m' * 2 ^ (e' + 1074).toNat :=
          Nat.mul_le_mul hfull (Nat.pow_le_pow_right (by omega) (by omega))
  · exact Nat.mul_lt_mul_of_pos_right hlower (by positivity)

theorem shiftLeft_pos {m : ℕ} (hpos : 0 < m) (count : ℕ) : 0 < m <<< count := by
  rw [Nat.shiftLeft_eq]
  positivity

/-- Values with a lower place are lower multiples. -/
theorem units_lt_of_place_lt {place place' : ℤ ×ₗ ℤ ×ₗ ℤ} (hx : IsCanonical x)
    (hy : IsCanonical y) (hfinite : x.isFinite = true) (hfinite' : y.isFinite = true)
    (hplace : Estimate.place? x = some place) (hplace' : Estimate.place? y = some place')
    (h : place < place') : units x < units y := by
  have hpositive (m : ℕ) (e : ℤ) (hpos : 0 < m) : 0 < ((m <<< (e + 1074).toNat : ℕ) : ℤ) :=
    Int.natCast_pos.mpr (shiftLeft_pos hpos _)
  rcases x with (_ | _) | _ | _ | ⟨_ | _, m, e, hpos⟩ <;>
    rcases y with (_ | _) | _ | _ | ⟨_ | _, m', e', hpos'⟩ <;>
    first
      | exact absurd hfinite Bool.false_ne_true
      | exact absurd hfinite' Bool.false_ne_true
      | obtain rfl := Option.some.inj hplace
        obtain rfl := Option.some.inj hplace'
        simp only [Prod.Lex.toLex_lt_toLex] at h
        dsimp only [units, Sign.apply]
  case zero.zero => omega
  case zero.finite.negative => omega
  case zero.finite.positive => exact hpositive m' e' hpos'
  case finite.negative.zero => have := hpositive m e hpos; omega
  case finite.negative.finite.negative =>
    have := shiftLeft_lt hy hx (by omega)
    omega
  case finite.negative.finite.positive =>
    have := hpositive m e hpos
    have := hpositive m' e' hpos'
    omega
  case finite.positive.zero => omega
  case finite.positive.finite.negative => omega
  case finite.positive.finite.positive =>
    have := shiftLeft_lt hx hy (by omega)
    omega

theorem exists_place_of_isFinite (hfinite : x.isFinite = true) :
    ∃ place, Estimate.place? x = some place := by
  rcases x with (_ | _) | _ | _ | ⟨_ | _, m, e, hpos⟩ <;>
    first
      | exact absurd hfinite Bool.false_ne_true
      | exact ⟨_, rfl⟩

end Rounding

namespace Estimate

variable {a b : Float}

/-- How many times the least positive double a finite double is. -/
def units (a : Float) : ℤ := Rounding.units a.toModel.unpack

theorem units_lt_of_lt (ha : a.isFinite = true) (hb : b.isFinite = true) (h : a < b) :
    units a < units b := by
  obtain ⟨place, place', hplace, hplace', hlower⟩ := lt_iff.mp h
  exact Rounding.units_lt_of_place_lt (Rounding.isCanonical_unpack _)
    (Rounding.isCanonical_unpack _) ha hb hplace hplace' hlower

/-- Finite doubles compare as multiples of the least positive one. -/
theorem le_iff_units (ha : a.isFinite = true) (hb : b.isFinite = true) :
    a ≤ b ↔ units a ≤ units b := by
  obtain ⟨place, hplace⟩ := Rounding.exists_place_of_isFinite ha
  obtain ⟨place', hplace'⟩ := Rounding.exists_place_of_isFinite hb
  rw [le_iff]
  constructor
  · rintro ⟨mine, theirs, hmine, htheirs, hle⟩
    obtain rfl | hlower := hle.eq_or_lt
    · have hsame : place? a.toModel.unpack = place? b.toModel.unpack := hmine.trans htheirs.symm
      obtain ⟨sign, sign', ha', hb'⟩ | heq := eq_of_place?_eq ha hsame
      · unfold units
        rw [ha', hb']
        rfl
      · unfold units
        rw [heq]
    · exact (units_lt_of_lt ha hb (lt_iff.mpr ⟨_, _, hmine, htheirs, hlower⟩)).le
  · intro hle
    refine ⟨place, place', hplace, hplace', not_lt.mp fun hlower => ?_⟩
    exact absurd hle (units_lt_of_lt hb ha (lt_iff.mpr ⟨_, _, hplace', hplace, hlower⟩)).not_ge

/-- What is between finite doubles is finite. -/
theorem isFinite_of_between {c : Float} (ha : a.isFinite = true) (hc : c.isFinite = true)
    (h : a ≤ b) (h' : b ≤ c) : b.isFinite = true := by
  have hclass {d : Float} {place : ℤ ×ₗ ℤ ×ₗ ℤ} (hplace : place? d.toModel.unpack = some place) :
      d.isFinite = true ↔ -1 ≤ (ofLex place).1 ∧ (ofLex place).1 ≤ 1 := by
    change d.toModel.unpack.isFinite = true ↔ _
    generalize d.toModel.unpack = value at hplace
    rcases value with (_ | _) | _ | _ | ⟨_ | _, m, e, hm⟩ <;>
      first
        | exact absurd hplace.symm (Option.some_ne_none _)
        | obtain rfl := Option.some.inj hplace
          first
            | exact iff_of_true rfl (by dsimp only [ofLex_toLex]; omega)
            | exact iff_of_false Bool.false_ne_true (by dsimp only [ofLex_toLex]; omega)
  obtain ⟨first, middle, hfirst, hmiddle, hlow⟩ := le_iff.mp h
  obtain ⟨middle', last, hmiddle', hlast, hhigh⟩ := le_iff.mp h'
  obtain rfl := Option.some.inj (hmiddle.symm.trans hmiddle')
  rw [hclass hfirst] at ha
  rw [hclass hlast] at hc
  rw [hclass hmiddle]
  have := Prod.Lex.le_iff.mp hlow
  have := Prod.Lex.le_iff.mp hhigh
  omega

end Estimate

end QueryPlanner
