import QueryPlanner.Proofs.Nearness
import QueryPlanner.Proofs.Reduction

/-!
# Sums of doubles

The sum of two doubles that are not negative is the sum of their multiples of the least positive
double, rounded, or it is infinite (`Estimate.add_cases`). Rounding is monotone, so adding is monotone,
and a sum is at least each of its parts (`Estimate.add_le_add`, `Estimate.le_add`). A power of two
that divides a number divides what it is rounded to (`Rounding.dvd_rounded`), so sums of whole numbers
are whole numbers, however large they are (`Estimate.Whole.add`). Whole numbers are apart.
-/

namespace QueryPlanner

open Float.Model (UnpackedFloat Format)
open Float.Model.UnpackedFloat (Sign)

/-! ## Rounded multiples -/

namespace Rounding

variable {n n' : ℕ} {m : ℕ} {e : ℤ}

/-- The number that a whole number is rounded to. -/
def rounded (n : ℕ) : ℕ := kept n <<< exponent n

/-- Of numbers that lose as many bits, the larger one keeps a larger mantissa. -/
theorem kept_mono (h : n ≤ n') (hsame : exponent n = exponent n') : kept n ≤ kept n' := by
  have hlog := log2_mono h
  unfold exponent at hsame
  obtain hequal | hlower := Nat.eq_or_lt_of_le (Nat.sub_le_sub_right hlog 52)
  · have hmantissa : mantissa n ≤ mantissa n' := by
      unfold mantissa
      rw [hequal]
      exact roundedMantissa_mono (code_shiftRight_mono (code_exact_mono h) _)
    have hcarried : (mantissa n).log2 - 52 = (mantissa n').log2 - 52 := by omega
    unfold kept
    rw [hcarried]
    exact Nat.div_le_div_right hmantissa
  · -- all bits of the smaller number were carried over
    have hlong : 52 ≤ n.log2 := by
      by_contra hshort
      rw [mantissa_of_log2_le (by omega)] at hsame
      omega
    have hall : mantissa n = 2 ^ 53 := by
      obtain ⟨hleast, hmost⟩ := mantissa_bounds hlong
      obtain hall | hfew := Nat.eq_or_lt_of_le hmost
      · exact hall
      · have hbits : (mantissa n).log2 = 52 := (Nat.log2_eq_iff (by omega)).mpr ⟨hleast, hfew⟩
        omega
    have hkept : kept n = 2 ^ 52 := by
      unfold kept
      rw [hall, Nat.log2_two_pow]
      decide
    rw [hkept]
    exact (kept_bounds (by omega)).1

/-- Rounding is monotone. -/
theorem rounded_mono (h : n ≤ n') : rounded n ≤ rounded n' := by
  unfold rounded
  obtain hsame | hlower := (exponent_mono h).eq_or_lt
  · rw [hsame, Nat.shiftLeft_eq, Nat.shiftLeft_eq]
    exact Nat.mul_le_mul_right _ (kept_mono h hsame)
  · have hless := shiftLeft_lt (canonical_kept n) (canonical_kept n') (.inl (by omega))
    simpa using hless.le

/-- A double is not changed by rounding. -/
theorem rounded_of_canonical (h : Canonical m e) (hpos : 0 < m) :
    rounded (m <<< (e + 1074).toNat) = m <<< (e + 1074).toNat := by
  obtain ⟨hkept, hexponent⟩ := kept_of_canonical h hpos
  rw [rounded, hkept, hexponent]

/-- A number whose last bits are zeros loses none but zeros. -/
theorem rounded_of_dvd (h : 2 ^ (n.log2 - 52) ∣ n) : rounded n = n := by
  obtain rfl | hpos := Nat.eq_zero_or_pos n
  · rfl
  obtain ⟨q, hq⟩ := h
  have hshifted : n = q <<< (n.log2 - 52) := by rw [Nat.shiftLeft_eq, mul_comm, ← hq]
  have hqpos : 0 < q := Nat.pos_of_ne_zero fun hzero => by simp [hzero] at hq; omega
  have hlog : n.log2 = q.log2 + (n.log2 - 52) := by
    rw [← log2_shiftLeft hqpos, ← hshifted]
  obtain ⟨e, he⟩ : ∃ e : ℤ, (e + 1074).toNat = n.log2 - 52 ∧ -1074 ≤ e :=
    ⟨(n.log2 - 52 : ℕ) - 1074, by omega, by omega⟩
  have hcanonical : Canonical q e := by
    refine ⟨he.2, ?_, ?_⟩
    · exact Nat.lt_log2_self.trans_le (Nat.pow_le_pow_right (by omega) (by omega))
    · by_cases hlong : 52 ≤ n.log2
      · exact .inl ((Nat.le_log2 (by omega)).mp (by omega))
      · exact .inr (by omega)
  have hsame := rounded_of_canonical hcanonical hqpos
  rwa [he.1, ← hshifted] at hsame

/-- A power of two that divides a number divides what the number is rounded to. -/
theorem dvd_rounded {count : ℕ} (h : 2 ^ count ∣ n) : 2 ^ count ∣ rounded n := by
  rcases Nat.le_total count (exponent n) with hlost | hkept
  · rw [rounded, Nat.shiftLeft_eq]
    exact Dvd.dvd.mul_left (Nat.pow_dvd_pow 2 hlost) _
  · rwa [rounded_of_dvd ((Nat.pow_dvd_pow 2 (by unfold exponent at hkept; omega)).trans h)]

end Rounding

/-! ## Sums -/

namespace Estimate

open Rounding

variable {a b a' b' : Float}

/-- How many times the least positive double a double is that is finite and not negative. -/
def count (a : Float) : ℕ := (units a).toNat

theorem unpack_of_isFinite (h : 0.0 ≤ a) (hfinite : a.isFinite = true) :
    (∃ sign, a.toModel.unpack = .zero sign) ∨
      ∃ m e, ∃ hpos : 0 < m, a.toModel.unpack = .finite .positive m e hpos := by
  obtain hzero | hpositive | hinfinite := unpack_of_nonneg h
  · exact .inl hzero
  · exact .inr hpositive
  · change a.toModel.unpack.isFinite = true at hfinite
    rw [hinfinite] at hfinite
    exact absurd hfinite Bool.false_ne_true

theorem count_eq_zero {sign : Sign} (h : a.toModel.unpack = .zero sign) : count a = 0 := by
  unfold count units
  rw [h]
  rfl

theorem count_eq {m : ℕ} {e : ℤ} {hpos : 0 < m}
    (h : a.toModel.unpack = .finite .positive m e hpos) : count a = m <<< (e + 1074).toNat := by
  unfold count units
  rw [h]
  rfl

theorem units_eq_count (h : 0.0 ≤ a) (hfinite : a.isFinite = true) : units a = count a := by
  have hzero : units 0.0 = 0 := by decide +kernel
  have hle := (le_iff_units (by decide +kernel) hfinite).mp h
  unfold count
  omega

theorem rounded_count (h : 0.0 ≤ a) (hfinite : a.isFinite = true) : rounded (count a) = count a := by
  have hcanonical : IsCanonical a.toModel.unpack := isCanonical_unpack _
  obtain ⟨sign, hread⟩ | ⟨m, e, hpos, hread⟩ := unpack_of_isFinite h hfinite
  · rw [count_eq_zero hread]
    rfl
  · rw [hread] at hcanonical
    rw [count_eq hread]
    exact rounded_of_canonical hcanonical hpos

/-- Finite doubles are added as multiples, and the sum is rounded. -/
theorem add_eq_nearest (ha : 0.0 ≤ a) (hb : 0.0 ≤ b) (hfinite : a.isFinite = true)
    (hfinite' : b.isFinite = true) : ∃ zero,
      UnpackedFloat.add .binary64 a.toModel.unpack b.toModel.unpack =
        nearest ((count a + count b : ℕ) : ℤ) zero := by
  have hcanonical : IsCanonical a.toModel.unpack := isCanonical_unpack _
  have hcanonical' : IsCanonical b.toModel.unpack := isCanonical_unpack _
  obtain ⟨sign, hread⟩ | ⟨m, e, hpos, hread⟩ := unpack_of_isFinite ha hfinite <;>
    obtain ⟨sign', hread'⟩ | ⟨m', e', hpos', hread'⟩ := unpack_of_isFinite hb hfinite' <;>
    rw [hread] at hcanonical ⊢ <;> rw [hread'] at hcanonical' ⊢
  · rw [count_eq_zero hread, count_eq_zero hread']
    cases sign <;> cases sign' <;> exact ⟨_, rfl⟩
  · rw [count_eq_zero hread, count_eq hread', Nat.zero_add]
    exact ⟨.positive, (nearest_units hcanonical').symm⟩
  · rw [count_eq hread, count_eq_zero hread', Nat.add_zero]
    exact ⟨.positive, (nearest_units hcanonical).symm⟩
  · rw [count_eq hread, count_eq hread']
    exact ⟨.positive, add_finite hcanonical.least hcanonical'.least⟩

/-- The sum of doubles that are not negative is infinite, since one of them is or since it is too
large, or it is the sum of the multiples, rounded. -/
theorem add_cases (ha : 0.0 ≤ a) (hb : 0.0 ≤ b) :
    ((a + b).toModel.unpack = .infinity .positive ∧
        (a.isFinite = true → b.isFinite = true → 2045 < exponent (count a + count b))) ∨
      (a.isFinite = true ∧ b.isFinite = true ∧ (a + b).isFinite = true ∧
        exponent (count a + count b) ≤ 2045 ∧
        units (a + b) = (rounded (count a + count b) : ℕ)) := by
  have hstored : (a + b).toModel.unpack = UnpackedFloat.unpack .binary64
      (UnpackedFloat.pack .binary64 (.add .binary64 a.toModel.unpack b.toModel.unpack)) := rfl
  by_cases hfinite : a.isFinite = true ∧ b.isFinite = true
  · obtain ⟨hleft, hright⟩ := hfinite
    obtain ⟨zero, hsum⟩ := add_eq_nearest ha hb hleft hright
    rw [hsum] at hstored
    obtain hnone | hpos := Nat.eq_zero_or_pos (count a + count b)
    · rw [hnone] at hstored ⊢
      have hread : ∃ sign, (a + b).toModel.unpack = .zero sign :=
        ⟨zero, by rw [hstored]; cases zero <;> rfl⟩
      obtain ⟨sign, hread⟩ := hread
      refine .inr ⟨hleft, hright, ?_, by decide +kernel, ?_⟩
      · change (a + b).toModel.unpack.isFinite = true
        rw [hread]
        rfl
      · unfold units
        rw [hread]
        rfl
    · rw [show ((count a + count b : ℕ) : ℤ) = Sign.positive.apply (count a + count b : ℕ) from rfl,
        nearest_apply hpos] at hstored
      rcases Nat.lt_or_ge 2045 (exponent (count a + count b)) with hlarge | hsmall
      · exact .inl ⟨hstored.trans (unpack_pack_of_lt (by omega)), fun _ _ => hlarge⟩
      · have hread := hstored.trans (unpack_pack (canonical_kept _) (by omega))
        refine .inr ⟨hleft, hright, ?_, hsmall, ?_⟩
        · change (a + b).toModel.unpack.isFinite = true
          rw [hread]
          rfl
        · unfold units
          rw [hread]
          have hshift : ((exponent (count a + count b) : ℤ) - 1074 + 1074).toNat =
              exponent (count a + count b) := by omega
          change ((_ <<< ((exponent (count a + count b) : ℤ) - 1074 + 1074).toNat : ℕ) : ℤ) = _
          rw [hshift]
          rfl
  · refine .inl ⟨?_, fun hleft hright => absurd ⟨hleft, hright⟩ hfinite⟩
    change ¬ (a.toModel.unpack.isFinite = true ∧ b.toModel.unpack.isFinite = true) at hfinite
    have hsum : UnpackedFloat.add .binary64 a.toModel.unpack b.toModel.unpack =
        .infinity .positive := by
      obtain ⟨sign, hread⟩ | ⟨m, e, hpos, hread⟩ | hread := unpack_of_nonneg ha <;>
        obtain ⟨sign', hread'⟩ | ⟨m', e', hpos', hread'⟩ | hread' := unpack_of_nonneg hb <;>
        rw [hread, hread'] at hfinite ⊢ <;>
        first
          | exact absurd ⟨rfl, rfl⟩ hfinite
          | rfl
    rw [hsum] at hstored
    exact hstored

theorem zero_le_of_infinite (h : a.toModel.unpack = .infinity .positive) : 0.0 ≤ a :=
  le_infinity (by decide +kernel) h

/-- Sums of doubles that are not negative are not negative. -/
theorem add_nonneg (ha : 0.0 ≤ a) (hb : 0.0 ≤ b) : 0.0 ≤ a + b := by
  obtain ⟨hread, _⟩ | ⟨_, _, hfinite, _, hunits⟩ := add_cases ha hb
  · exact zero_le_of_infinite hread
  · rw [le_iff_units (by decide +kernel) hfinite, hunits]
    exact (show units 0.0 = 0 by decide +kernel) ▸ Int.natCast_nonneg _

theorem count_mono (ha : 0.0 ≤ a) (h : a ≤ a') (hfinite : a'.isFinite = true) :
    a.isFinite = true ∧ count a ≤ count a' := by
  have hbelow := isFinite_of_between (by decide +kernel) hfinite ha h
  exact ⟨hbelow, Int.toNat_le_toNat ((le_iff_units hbelow hfinite).mp h)⟩

/-- Adding is monotone. -/
theorem add_le_add (ha : 0.0 ≤ a) (hb : 0.0 ≤ b) (h : a ≤ a') (h' : b ≤ b') :
    a + b ≤ a' + b' := by
  obtain ⟨hread, _⟩ | ⟨hleft, hright, hfinite, hsmall, hunits⟩ :=
    add_cases (le_trans ha h) (le_trans hb h')
  · exact le_infinity (le_self_of_ge (add_nonneg ha hb)) hread
  · obtain ⟨hleft', hlower⟩ := count_mono ha h hleft
    obtain ⟨hright', hlower'⟩ := count_mono hb h' hright
    have hless : count a + count b ≤ count a' + count b' := Nat.add_le_add hlower hlower'
    obtain ⟨_, hlarge⟩ | ⟨_, _, hfinite', _, hunits'⟩ := add_cases ha hb
    · have := exponent_mono hless
      have := hlarge hleft' hright'
      omega
    · rw [le_iff_units hfinite' hfinite, hunits, hunits']
      exact Int.ofNat_le.mpr (rounded_mono hless)

/-- A sum is at least each of its parts. -/
theorem le_add (ha : 0.0 ≤ a) (hb : 0.0 ≤ b) : a ≤ a + b ∧ b ≤ a + b := by
  obtain ⟨hread, _⟩ | ⟨hleft, hright, hfinite, _, hunits⟩ := add_cases ha hb
  · exact ⟨le_infinity (le_self_of_ge ha) hread, le_infinity (le_self_of_ge hb) hread⟩
  · have hlower := rounded_mono (Nat.le_add_right (count a) (count b))
    have hlower' := rounded_mono (Nat.le_add_left (count b) (count a))
    rw [rounded_count ha hleft] at hlower
    rw [rounded_count hb hright] at hlower'
    rw [le_iff_units hleft hfinite, le_iff_units hright hfinite, hunits, units_eq_count ha hleft,
      units_eq_count hb hright]
    exact ⟨Int.ofNat_le.mpr hlower, Int.ofNat_le.mpr hlower'⟩

/-! ## Whole numbers -/

/-- A whole number that is not negative, or infinity. -/
structure Whole (a : Float) : Prop where
  nonneg : 0.0 ≤ a
  dvd : a.isFinite = true → 2 ^ 1074 ∣ count a

/-- Sums of whole numbers are whole numbers. -/
theorem Whole.add (ha : Whole a) (hb : Whole b) : Whole (a + b) where
  nonneg := add_nonneg ha.nonneg hb.nonneg
  dvd hfinite := by
    obtain ⟨hread, _⟩ | ⟨hleft, hright, _, _, hunits⟩ := add_cases ha.nonneg hb.nonneg
    · change (a + b).toModel.unpack.isFinite = true at hfinite
      rw [hread] at hfinite
      exact absurd hfinite Bool.false_ne_true
    · rw [count, hunits, Int.toNat_natCast]
      exact dvd_rounded (Nat.dvd_add (ha.dvd hleft) (hb.dvd hright))

/-- Taking off nothing changes nothing. -/
theorem unpack_sub_zero (a : Float) : (a - 0.0).toModel.unpack = a.toModel.unpack := by
  have hstored : (a - 0.0).toModel.unpack = UnpackedFloat.unpack .binary64
      (UnpackedFloat.pack .binary64 (.sub .binary64 a.toModel.unpack (.zero .positive))) := rfl
  have hcanonical : IsCanonical a.toModel.unpack := isCanonical_unpack _
  have hlimit (sign : Sign) (m : ℕ) (e : ℤ) (hpos : 0 < m)
      (hread : a.toModel.unpack = .finite sign m e hpos) : e ≤ 971 := exponent_le_of_unpack hread
  generalize a.toModel.unpack = value at hstored hcanonical hlimit ⊢
  cases value with
  | zero sign => cases sign <;> exact hstored
  | infinity sign => cases sign <;> exact hstored
  | notANumber => exact hstored
  | finite sign m e hpos => exact hstored.trans (unpack_pack hcanonical (hlimit sign m e hpos rfl))

theorem le_sub_zero (h : b ≤ a) : b ≤ a - 0.0 := by
  rw [le_iff] at h ⊢
  rwa [unpack_sub_zero]

theorem Whole.sub_zero (h : Whole a) : Whole (a - 0.0) := by
  refine ⟨le_sub_zero h.nonneg, fun hfinite => ?_⟩
  change (a - 0.0).toModel.unpack.isFinite = true at hfinite
  rw [unpack_sub_zero] at hfinite
  unfold count units
  rw [unpack_sub_zero]
  exact h.dvd hfinite

/-! ## Accumulated values -/

variable {P : Float → Prop} {op : Float → Float → Float} {start : Float} {values values' : List Float}

/-- Among the numbers with a property, the operation is closed, monotone, and gives no less than it
takes. -/
structure Accumulates (P : Float → Prop) (op : Float → Float → Float) : Prop where
  number : ∀ a, P a → a ≤ a
  closed : ∀ a b, P a → P b → P (op a b)
  monotone : ∀ a b a' b', P a → P b → P a' → P b' → a ≤ a' → b ≤ b' → op a b ≤ op a' b'
  covering : ∀ a b, P a → P b → a ≤ op a b ∧ b ≤ op a b

theorem accumulates_add : Accumulates (fun a => 0.0 ≤ a) (· + ·) where
  number _ := le_self_of_ge
  closed _ _ := add_nonneg
  monotone _ _ _ _ ha hb _ _ := add_le_add ha hb
  covering _ _ := le_add

theorem accumulates_whole : Accumulates Whole (· + ·) where
  number _ ha := le_self_of_ge ha.nonneg
  closed _ _ := Whole.add
  monotone _ _ _ _ ha hb _ _ := add_le_add ha.nonneg hb.nonneg
  covering _ _ ha hb := le_add ha.nonneg hb.nonneg

theorem accumulates_larger (h : ∀ a, P a → a ≤ a) : Accumulates P larger where
  number := h
  closed a b ha hb := by
    obtain hsame | hsame := larger_eq_or (a := a) (b := b) <;> rw [hsame] <;> assumption
  monotone a b a' b' ha hb ha' hb' hle hle' := by
    obtain ⟨hleft, hright⟩ := le_larger (h a' ha') (h b' hb')
    obtain hsame | hsame := larger_eq_or (a := a) (b := b) <;> rw [hsame]
    · exact le_trans hle hleft
    · exact le_trans hle' hright
  covering a b ha hb := le_larger (h a ha) (h b hb)

namespace Accumulates

theorem foldl (h : Accumulates P op) (hstart : P start) (hvalues : ∀ value ∈ values, P value) :
    P (values.foldl op start) :=
  List.foldlRecOn values op hstart fun found hfound value hvalue =>
    h.closed found value hfound (hvalues value hvalue)

theorem foldl_le_foldl (h : Accumulates P op) {start' : Float} (hstart : P start)
    (hstart' : P start') (hle : start ≤ start')
    (hvalues : List.Forall₂ (fun value value' => P value ∧ P value' ∧ value ≤ value') values values') :
    values.foldl op start ≤ values'.foldl op start' := by
  induction hvalues generalizing start start' with
  | nil => exact hle
  | cons hvalue _ ih =>
      obtain ⟨hleft, hright, hvalue⟩ := hvalue
      exact ih (h.closed _ _ hstart hleft) (h.closed _ _ hstart' hright)
        (h.monotone _ _ _ _ hstart hleft hstart' hright hle hvalue)

theorem le_foldl (h : Accumulates P op) (hstart : P start) (hvalues : ∀ value ∈ values, P value) :
    start ≤ values.foldl op start ∧ ∀ value ∈ values, value ≤ values.foldl op start := by
  induction values generalizing start with
  | nil => exact ⟨h.number start hstart, by simp⟩
  | cons value rest ih =>
      rw [List.forall_mem_cons] at hvalues ⊢
      obtain ⟨hbefore, hvalue⟩ := h.covering start value hstart hvalues.1
      obtain ⟨hlast, hrest⟩ := ih (h.closed _ _ hstart hvalues.1) hvalues.2
      exact ⟨le_trans hbefore hlast, le_trans hvalue hlast, hrest⟩

/-- Accumulating only some of the values gives no more. -/
theorem foldl_le_foldl_of_sublist (h : Accumulates P op) {start' : Float} (hstart : P start)
    (hstart' : P start') (hle : start ≤ start') (hsublist : values.Sublist values')
    (hvalues : ∀ value ∈ values', P value) :
    values.foldl op start ≤ values'.foldl op start' := by
  induction hsublist generalizing start start' with
  | slnil => exact hle
  | cons value _ ih =>
      rw [List.forall_mem_cons] at hvalues
      exact ih hstart (h.closed _ _ hstart' hvalues.1)
        (le_trans hle (h.covering _ _ hstart' hvalues.1).1) hvalues.2
  | cons_cons value _ ih =>
      rw [List.forall_mem_cons] at hvalues
      exact ih (h.closed _ _ hstart hvalues.1) (h.closed _ _ hstart' hvalues.1)
        (h.monotone _ _ _ _ hstart hvalues.1 hstart' hvalues.1 hle (h.number _ hvalues.1)) hvalues.2

end Accumulates

end Estimate

/-- Whole numbers are apart. -/
theorem Cost.apart_of_whole {left right : Cost} (h : Estimate.Whole left.total)
    (h' : Estimate.Whole right.total) : left.Apart right := by
  by_contra hnot
  unfold Apart at hnot
  rw [not_or, Bool.not_eq_false, near_iff] at hnot
  obtain ⟨hdiffer, hfinite, hfinite', hclose⟩ := hnot
  rw [Estimate.units_eq_count h.nonneg hfinite, Estimate.units_eq_count h'.nonneg hfinite'] at hclose
  have hdvd : 2 ^ 1074 ∣ ((Estimate.count left.total : ℤ) - Estimate.count right.total).natAbs := by
    rw [← Int.natCast_dvd]
    exact dvd_sub (Int.natCast_dvd_natCast.mpr (h.dvd hfinite))
      (Int.natCast_dvd_natCast.mpr (h'.dvd hfinite'))
  have hlimit : 2 ^ 1022 - 2 ^ 968 < 2 ^ 1074 := by decide +kernel
  have hsame := Nat.eq_zero_of_dvd_of_lt hdvd (hclose.trans hlimit)
  have hle : left.total ≤ right.total := by
    rw [Estimate.le_iff_units hfinite hfinite', Estimate.units_eq_count h.nonneg hfinite,
      Estimate.units_eq_count h'.nonneg hfinite']
    omega
  obtain hlower | hequal := Estimate.lt_or_beq_of_le hle
  · have hless := Estimate.units_lt_of_lt hfinite hfinite' hlower
    rw [Estimate.units_eq_count h.nonneg hfinite, Estimate.units_eq_count h'.nonneg hfinite'] at hless
    omega
  · exact hdiffer hequal

end QueryPlanner
