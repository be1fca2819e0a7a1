import Mathlib.Tactic.NormNum
import QueryPlanner.Proofs.Rounding
import QueryPlanner.Statistics

/-!
# Doubles that get no larger

A value that lies at most as high as a double is rounded to one that does, too
(`Rounding.within_roundWithAccuracy`). So taking a charge off a cost that is not negative does not
raise it (`Cost.saturatingSub_le`), and neither does sharing rows among hosts raise their number
(`Statistics.rowsPerHost_le`).
-/

namespace QueryPlanner

open Float.Model (UnpackedFloat Format)
open Float.Model.UnpackedFloat (Sign ExtendedMantissa Accuracy)

namespace Rounding

variable {m q : ℕ} {e t : ℤ} {accuracy : Accuracy} {sign : Sign}

/-! ## The two shifts of rounding -/

/-- The exponent that a mantissa is shifted to, so that 53 bits are left, or that is least. -/
def shiftedExponent (q : ℕ) (t : ℤ) : ℤ := max t (max (q.log2 + t - 52) (-1074))

theorem shiftToTargetExponent_eq : UnpackedFloat.shiftToTargetExponent .binary64 q t accuracy =
    (ExtendedMantissa.ofMantissaAndAccuracy q accuracy >>> (shiftedExponent q t - t).toNat,
      shiftedExponent q t) := by
  have htarget : Format.binary64.targetExponent (Float.Model.totalExponent q t) =
      max (q.log2 + t - 52) (-1074) := by
    simp only [targetExponent_eq, Float.Model.totalExponent]
    omega
  unfold UnpackedFloat.shiftToTargetExponent UnpackedFloat.shiftToExponent shiftedExponent
  dsimp only
  rw [htarget]
  congr 1
  · congr 1
    omega
  · omega

/-- The mantissa after the first shift, rounded. -/
def firstMantissa (q : ℕ) (t : ℤ) (accuracy : Accuracy) : ℕ :=
  (ExtendedMantissa.ofMantissaAndAccuracy q accuracy >>>
    (shiftedExponent q t - t).toNat).roundedMantissa

/-- The exponent after the second shift. -/
def lastExponent (q : ℕ) (t : ℤ) (accuracy : Accuracy) : ℤ :=
  shiftedExponent (firstMantissa q t accuracy) (shiftedExponent q t)

/-- The mantissa after the second shift, which drops no more than zeros. -/
def lastMantissa (q : ℕ) (t : ℤ) (accuracy : Accuracy) : ℕ :=
  firstMantissa q t accuracy / 2 ^ (lastExponent q t accuracy - shiftedExponent q t).toNat

theorem roundWithAccuracy_eq : UnpackedFloat.roundWithAccuracy .binary64 sign q t accuracy =
    if h : lastMantissa q t accuracy = 0 then .zero sign
    else .finite sign (lastMantissa q t accuracy) (lastExponent q t accuracy)
      (Nat.pos_of_ne_zero h) := by
  unfold UnpackedFloat.roundWithAccuracy
  dsimp only
  rw [shiftToTargetExponent_eq]
  dsimp only
  rw [shiftToTargetExponent_eq]
  dsimp only
  have hmantissa : (ExtendedMantissa.ofMantissaAndAccuracy (firstMantissa q t accuracy) .exact >>>
      (lastExponent q t accuracy - shiftedExponent q t).toNat).mantissa =
        lastMantissa q t accuracy := mantissa_shiftRight
  have hsame (k : ℕ) (hk : k = lastMantissa q t accuracy) :
      (if h : k = 0 then UnpackedFloat.zero sign
        else .finite sign k (lastExponent q t accuracy) (Nat.pos_of_ne_zero h)) =
      if h : lastMantissa q t accuracy = 0 then .zero sign
        else .finite sign (lastMantissa q t accuracy) (lastExponent q t accuracy)
          (Nat.pos_of_ne_zero h) := by
    subst hk
    rfl
  exact hsame _ hmantissa

/-! ## Rounding what is at most a double -/

theorem log2_lt_of_canonical (h : Canonical m e) : m.log2 < 53 := by
  rcases Nat.eq_zero_or_pos m with rfl | hpos
  · simp
  · exact (Nat.log2_lt (by omega)).mpr h.most

/-- A mantissa that is at most that of a double at the same exponent is shifted no further. -/
theorem shiftedExponent_le (h : Canonical m e) (ht : t ≤ e) (hq : q ≤ m <<< (e - t).toNat) :
    shiftedExponent q t ≤ e := by
  have hleast := h.least
  have hlog := log2_lt_of_canonical h
  have hbits : (q.log2 : ℤ) + t - 52 ≤ e := by
    rcases Nat.eq_zero_or_pos m with rfl | hpos
    · obtain rfl : q = 0 := by simpa using hq
      simp
      omega
    · have := log2_mono hq
      rw [log2_shiftLeft hpos] at this
      omega
  unfold shiftedExponent
  omega

theorem shiftLeft_div {count lost : ℕ} (h : lost ≤ count) :
    m <<< count / 2 ^ lost = m <<< (count - lost) := by
  obtain ⟨rest, rfl⟩ := Nat.exists_eq_add_of_le h
  rw [Nat.shiftLeft_eq, Nat.shiftLeft_eq, Nat.add_sub_cancel_left, pow_add, mul_comm (2 ^ lost),
    ← mul_assoc, Nat.mul_div_cancel _ (by positivity)]

/-- What lies at most as high as a double, is rounded to a mantissa that does, too. -/
theorem firstMantissa_le (h : Canonical m e) (ht : t ≤ e)
    (hcode : code (.ofMantissaAndAccuracy q accuracy) ≤ code (exact (m <<< (e - t).toNat)))
    (hq : q ≤ m <<< (e - t).toNat) :
    firstMantissa q t accuracy ≤ m <<< (e - shiftedExponent q t).toNat := by
  have hle := shiftedExponent_le h ht hq
  have hfrom : t ≤ shiftedExponent q t := le_max_left _ _
  have hsplit : (e - t).toNat =
      (e - shiftedExponent q t).toNat + (shiftedExponent q t - t).toNat := by omega
  refine (roundedMantissa_mono (code_shiftRight_mono hcode _)).trans ?_
  rw [hsplit, Nat.shiftLeft_add, exact_shiftRight]
  exact le_rfl

/-- Rounding leaves 53 bits, when there were as many or the exponent was low enough. -/
theorem canonical_last (hfull : 2 ^ 52 ≤ q ∨ t ≤ -1074) :
    Canonical (lastMantissa q t accuracy) (lastExponent q t accuracy) := by
  set first := shiftedExponent q t with hfirst
  set r := firstMantissa q t accuracy with hr
  have hlast : lastExponent q t accuracy = max first (max (r.log2 + first - 52) (-1074)) := rfl
  have hkept : lastMantissa q t accuracy = r / 2 ^ (lastExponent q t accuracy - first).toNat := rfl
  have hlow : -1074 ≤ first := (le_max_right _ _).trans (le_max_right _ _)
  obtain ⟨lost, hlost⟩ : ∃ lost : ℕ, (lost : ℤ) = lastExponent q t accuracy - first :=
    ⟨(lastExponent q t accuracy - first).toNat, by omega⟩
  rw [hkept, ← hlost, Int.toNat_natCast]
  have hdropped : r.log2 ≤ 52 + lost := by omega
  refine ⟨by omega, ?_, ?_⟩
  · rw [Nat.div_lt_iff_lt_mul (by positivity), ← pow_add]
    exact Nat.lt_log2_self.trans_le (Nat.pow_le_pow_right (by omega) (by omega))
  · by_cases hleast : lastExponent q t accuracy = -1074
    · exact .inr hleast
    -- above the least exponent the mantissa is full before the second shift already
    have hlog : 52 ≤ r.log2 := by
      by_cases hcarried : first < lastExponent q t accuracy
      · omega
      · have hbits : 2 ^ 52 ≤ q := by
          rcases hfull with hbits | hlower
          · exact hbits
          · by_contra hshort
            have hshort : q.log2 < 53 := log2_lt_of_canonical ⟨le_rfl, by omega, .inr rfl⟩
            have : first = max t (max (q.log2 + t - 52) (-1074)) := rfl
            omega
        have hq : q ≠ 0 := by omega
        have hqlog : 52 ≤ q.log2 := (Nat.le_log2 hq).mpr hbits
        have hcount : (first - t).toNat = q.log2 - 52 := by
          have : first = max t (max (q.log2 + t - 52) (-1074)) := rfl
          omega
        have hmantissa : (ExtendedMantissa.ofMantissaAndAccuracy q accuracy).mantissa = q := by
          rcases accuracy with _ | _ | _ | _ <;> rfl
        have hleft : q / 2 ^ (q.log2 - 52) ≤ r := by
          rw [hr, firstMantissa, ← hfirst, hcount]
          calc q / 2 ^ (q.log2 - 52)
              = (ExtendedMantissa.ofMantissaAndAccuracy q accuracy >>> (q.log2 - 52)).mantissa := by
                rw [mantissa_shiftRight, hmantissa]
            _ ≤ _ := mantissa_le_roundedMantissa
        have hkeeps : 2 ^ 52 ≤ q / 2 ^ (q.log2 - 52) := by
          rw [Nat.le_div_iff_mul_le (by positivity), ← pow_add, Nat.add_sub_cancel' hqlog]
          exact Nat.log2_self_le hq
        have hrne : r ≠ 0 := by omega
        exact (Nat.le_log2 hrne).mpr (hkeeps.trans hleft)
    left
    have hrne : r ≠ 0 := by
      rintro hzero
      rw [hzero] at hlog
      simp at hlog
    have hlostEq : lost = r.log2 - 52 := by omega
    rw [Nat.le_div_iff_mul_le (by positivity), ← pow_add, hlostEq, Nat.add_sub_cancel' hlog]
    exact Nat.log2_self_le hrne

/-- The value is no zero's or finite value's rounding up: it is zero, or at most as high as the
double, with a mantissa and an exponent as a double has them. -/
inductive Within (m : ℕ) (e : ℤ) (sign : Sign) : UnpackedFloat → Prop
  | zero : Within m e sign (.zero sign)
  | finite {k : ℕ} {d : ℤ} (hpos : 0 < k) (canonical : Canonical k d)
      (lower : d < e ∨ d = e ∧ k ≤ m) : Within m e sign (.finite sign k d hpos)

/-- What lies at most as high as a double is rounded to what does, too. -/
theorem within_roundWithAccuracy (h : Canonical m e) (ht : t ≤ e)
    (hcode : code (.ofMantissaAndAccuracy q accuracy) ≤ code (exact (m <<< (e - t).toNat)))
    (hq : q ≤ m <<< (e - t).toNat) (hfull : 2 ^ 52 ≤ q ∨ t ≤ -1074) :
    Within m e sign (UnpackedFloat.roundWithAccuracy .binary64 sign q t accuracy) := by
  have hfirst := shiftedExponent_le h ht hq
  have hmantissa := firstMantissa_le h ht hcode hq
  have hlast : lastExponent q t accuracy ≤ e := shiftedExponent_le h hfirst hmantissa
  have hfrom : shiftedExponent q t ≤ lastExponent q t accuracy := le_max_left _ _
  rw [roundWithAccuracy_eq]
  by_cases hnone : lastMantissa q t accuracy = 0
  · rw [dif_pos hnone]
    exact .zero
  · rw [dif_neg hnone]
    refine .finite _ (canonical_last hfull) (hlast.lt_or_eq.imp_right fun hsame => ⟨hsame, ?_⟩)
    calc lastMantissa q t accuracy
        ≤ m <<< (e - shiftedExponent q t).toNat /
            2 ^ (lastExponent q t accuracy - shiftedExponent q t).toNat :=
          Nat.div_le_div_right hmantissa
      _ = m := by
          rw [hsame, shiftLeft_div le_rfl, Nat.sub_self]
          rfl

/-- A whole number of the least positive doubles that is at most a double. -/
theorem within_round {n : ℕ} (h : Canonical m e) (hn : n ≤ m <<< (e + 1074).toNat) :
    Within m e sign (UnpackedFloat.round .binary64 sign n (-1074)) := by
  have htarget : UnpackedFloat.decreaseExponent n (-1074)
      (Format.binary64.targetExponent (Float.Model.totalExponent n (-1074))) = (n, -1074) := by
    have hleast : -1074 ≤ Format.binary64.targetExponent (Float.Model.totalExponent n (-1074)) :=
      le_max_right _ _
    have hnone : (-1074 - Format.binary64.targetExponent
        (Float.Model.totalExponent n (-1074))).toNat = 0 := by omega
    unfold UnpackedFloat.decreaseExponent
    dsimp only
    rw [hnone]
    rfl
  unfold UnpackedFloat.round
  dsimp only
  rw [htarget]
  have hsub : (e - -1074).toNat = (e + 1074).toNat := by omega
  exact within_roundWithAccuracy h h.least (hsub ▸ code_exact_mono hn) (hsub ▸ hn) (.inr le_rfl)

/-! ## Quotients -/

/-- The accuracy of a quotient stands for less than one more. -/
theorem code_ofFraction_lt (q r d : ℕ) :
    code (.ofMantissaAndAccuracy q (UnpackedFloat.accuracyOfFraction r d)) < 4 * q + 4 := by
  unfold UnpackedFloat.accuracyOfFraction
  split
  · simp [code, ExtendedMantissa.ofMantissaAndAccuracy]
  · cases compare (2 * r) d <;> simp [code, ExtendedMantissa.ofMantissaAndAccuracy]

/-- A quotient, with its accuracy, is at most what the dividend is at most a multiple of. -/
theorem code_quotient_le {n d bound : ℕ} (h : n ≤ bound * d) :
    code (.ofMantissaAndAccuracy (n / d) (UnpackedFloat.accuracyOfFraction (n % d) d)) ≤
      code (exact bound) := by
  have hbound : code (exact bound) = 4 * bound := by
    simp [code, exact, ExtendedMantissa.ofMantissaAndAccuracy]
  rw [hbound]
  obtain hlower | hequal := (Nat.div_le_of_le_mul (mul_comm bound d ▸ h)).lt_or_eq
  · have := code_ofFraction_lt (n / d) (n % d) d
    omega
  · have hrest : n % d = 0 := by
      have hsplit := Nat.div_add_mod n d
      rw [hequal, mul_comm] at hsplit
      omega
    rw [hequal, hrest]
    simp [code, UnpackedFloat.accuracyOfFraction, ExtendedMantissa.ofMantissaAndAccuracy]

/-- Dividing by a double that is one or more. -/
theorem within_div {m' : ℕ} {e' : ℤ} {hpos : 0 < m} {hpos' : 0 < m'} (h : Canonical m e)
    (h' : Canonical m' e') (hone : 2 ^ 52 ≤ m' ∧ -52 ≤ e') :
    Within m e .positive (UnpackedFloat.div .binary64 (.finite .positive m e hpos)
      (.finite .positive m' e' hpos')) := by
  have hlog := log2_lt_of_canonical h
  have hlog' : m'.log2 = 52 := (Nat.log2_eq_iff (by omega)).mpr ⟨hone.1, h'.most⟩
  have hleast := h.least
  obtain ⟨t, ht⟩ : ∃ t, t = min (e - e') (Format.binary64.targetExponent
      (Float.Model.totalExponent m e - Float.Model.totalExponent m' e')) := ⟨_, rfl⟩
  have htarget : t = min (e - e') (max (m.log2 - 52 + e - e' - 53) (-1074)) := by
    rw [ht]
    simp only [targetExponent_eq, Float.Model.totalExponent]
    omega
  have hle : t ≤ e := by omega
  have hresult : UnpackedFloat.div .binary64 (.finite .positive m e hpos)
      (.finite .positive m' e' hpos') = UnpackedFloat.roundWithAccuracy .binary64 .positive
        (m <<< (e - e' - t).toNat / m') t
          (UnpackedFloat.accuracyOfFraction (m <<< (e - e' - t).toNat % m') m') := by
    rw [ht]
    rfl
  have hmost : m <<< (e - e' - t).toNat ≤ m <<< (e - t).toNat * m' := by
    rw [Nat.shiftLeft_eq, Nat.shiftLeft_eq, mul_assoc]
    refine Nat.mul_le_mul_left m ?_
    calc 2 ^ (e - e' - t).toNat ≤ 2 ^ ((e - t).toNat + 52) :=
          Nat.pow_le_pow_right (by omega) (by omega)
      _ = 2 ^ (e - t).toNat * 2 ^ 52 := pow_add ..
      _ ≤ 2 ^ (e - t).toNat * m' := Nat.mul_le_mul_left _ hone.1
  rw [hresult]
  refine within_roundWithAccuracy h hle (code_quotient_le hmost)
    (Nat.div_le_of_le_mul (mul_comm m' _ ▸ hmost)) ?_
  by_cases hleastExponent : t ≤ -1074
  · exact .inr hleastExponent
  · left
    have hcount : (e - e' - t).toNat = 105 - m.log2 := by omega
    rw [Nat.le_div_iff_mul_le hpos', hcount, Nat.shiftLeft_eq]
    calc 2 ^ 52 * m' ≤ 2 ^ 52 * 2 ^ 53 := Nat.mul_le_mul_left _ h'.most.le
      _ = 2 ^ (m.log2 + (105 - m.log2)) := by
          rw [← pow_add, Nat.add_sub_cancel' (by omega)]
      _ = 2 ^ m.log2 * 2 ^ (105 - m.log2) := pow_add ..
      _ ≤ m * 2 ^ (105 - m.log2) := Nat.mul_le_mul_right _ (Nat.log2_self_le (by omega))

/-! ## What is stored -/

/-- A double that is finite has no higher exponent. -/
theorem exponent_le_of_unpack {bits : BitVec Format.binary64.numBits} {hpos : 0 < m}
    (h : UnpackedFloat.unpack .binary64 bits = .finite sign m e hpos) : e ≤ 971 := by
  have hbits : (UnpackedFloat.unpackExponent bits).toNat < 2 ^ 11 := BitVec.isLt _
  unfold UnpackedFloat.unpack at h
  dsimp only at h
  by_cases hlast : UnpackedFloat.unpackExponent bits = -1#11
  · rw [if_pos hlast] at h
    by_cases hzero : UnpackedFloat.unpackMantissa bits = 0#52
    · exact absurd ((if_pos hzero).symm.trans h) nofun
    · exact absurd ((if_neg hzero).symm.trans h) nofun
  have hlower : (UnpackedFloat.unpackExponent bits).toNat ≠ 2 ^ 11 - 1 := fun hsame =>
    hlast (BitVec.eq_of_toNat_eq hsame)
  rw [if_neg hlast] at h
  by_cases hfirst : UnpackedFloat.unpackExponent bits = 0#11
  · rw [if_pos hfirst] at h
    by_cases hzero : UnpackedFloat.unpackMantissa bits = 0#52
    · exact absurd ((dif_pos hzero).symm.trans h) nofun
    · have he : _ = e := (UnpackedFloat.finite.inj ((dif_neg hzero).symm.trans h)).2.2
      change ((UnpackedFloat.unpackExponent bits).toNat : ℤ) - ((1023 : ℕ) + (52 : ℕ)) + 1 = e at he
      have hnone : (UnpackedFloat.unpackExponent bits).toNat = 0 := by
        rw [hfirst]
        rfl
      omega
  · have he : _ = e := (UnpackedFloat.finite.inj ((if_neg hfirst).symm.trans h)).2.2
    change ((UnpackedFloat.unpackExponent bits).toNat : ℤ) - 1075 = e at he
    omega

/-- A value that is written as a double has it is read again, or it is too large. -/
theorem unpack_pack_or (sign : Sign) (hpos : 0 < m) (h : Canonical m e) :
    UnpackedFloat.unpack .binary64 (UnpackedFloat.pack .binary64 (.finite sign m e hpos)) =
        .finite sign m e hpos ∨
      UnpackedFloat.unpack .binary64 (UnpackedFloat.pack .binary64 (.finite sign m e hpos)) =
        .infinity sign := by
  by_cases he : e ≤ 971
  · exact .inl (unpack_pack h he)
  · exact .inr (unpack_pack_of_lt (by omega))

/-- A value with 53 bits that is one or more, or too large. -/
inductive AtLeastOne : UnpackedFloat → Prop
  | infinity : AtLeastOne (.infinity .positive)
  | finite {m : ℕ} {e : ℤ} (hpos : 0 < m) (canonical : Canonical m e) (full : 2 ^ 52 ≤ m) (above : -52 ≤ e) :
      AtLeastOne (.finite .positive m e hpos)

theorem atLeastOne_roundWithAccuracy (hfull : 2 ^ 52 ≤ q) (habove : 0 ≤ q.log2 + t) :
    AtLeastOne (UnpackedFloat.roundWithAccuracy .binary64 .positive q t accuracy) := by
  have hcanonical : Canonical (lastMantissa q t accuracy) (lastExponent q t accuracy) :=
    canonical_last (.inl hfull)
  have hfirst : (q.log2 : ℤ) + t - 52 ≤ shiftedExponent q t :=
    (le_max_left _ _).trans (le_max_right _ _)
  have hlast : shiftedExponent q t ≤ lastExponent q t accuracy := le_max_left _ _
  have hbits : 2 ^ 52 ≤ lastMantissa q t accuracy := hcanonical.full.resolve_right (by omega)
  rw [roundWithAccuracy_eq, dif_neg (by omega)]
  exact .finite _ hcanonical hbits (by omega)

theorem AtLeastOne.stored {x : UnpackedFloat} (h : AtLeastOne x) :
    AtLeastOne (UnpackedFloat.unpack .binary64 (UnpackedFloat.pack .binary64 x)) := by
  cases h with
  | infinity => exact .infinity
  | finite hpos canonical full above =>
      obtain hread | hread := unpack_pack_or .positive hpos canonical <;> rw [hread]
      · exact .finite hpos canonical full above
      · exact .infinity

end Rounding

namespace Estimate

open Rounding

/-- A small positive count is written as a double has it. -/
theorem exists_ofUInt64 {n : ℕ} (hpos : 0 < n) (hsmall : n < 2 ^ 53) :
    ∃ m e, ∃ hm : 0 < m, n.toUInt64.toFloat.toModel.unpack = .finite .positive m e hm ∧
      2 ^ 52 ≤ m ∧ -52 ≤ e := by
  have hcount : n.toUInt64.toNat = n := by
    rw [Nat.toUInt64_eq, UInt64.toNat_ofNat']
    exact Nat.mod_eq_of_lt (by omega)
  obtain ⟨units, hunits⟩ : ∃ units, units = n <<< (0 + 1074 : ℤ).toNat := ⟨_, rfl⟩
  have hlog : units.log2 = n.log2 + 1074 := hunits ▸ log2_shiftLeft hpos _
  have hpos' : 0 < units := hunits ▸ shiftLeft_pos hpos _
  have hshort : n.log2 < 53 := (Nat.log2_lt (by omega)).mpr hsmall
  have hmantissa := log2_mantissa_le (n := units)
  have hvalue : UnpackedFloat.ofUInt64 .binary64 n.toUInt64 =
      .finite .positive (kept units) (exponent units - 1074) (kept_pos hpos') := by
    unfold UnpackedFloat.ofUInt64 UnpackedFloat.ofNat UnpackedFloat.ofInt
    rw [hcount]
    exact (normalize_apply .positive hpos).trans
      (round_eq .positive hpos (by omega) hunits hpos')
  have hlow : (units.log2 : ℤ) - 52 ≤ exponent units := by
    unfold exponent
    omega
  refine ⟨kept units, exponent units - 1074, kept_pos hpos', ?_, (kept_bounds (by omega)).1,
    by omega⟩
  change UnpackedFloat.unpack .binary64 (UnpackedFloat.pack .binary64
    (UnpackedFloat.ofUInt64 .binary64 n.toUInt64)) = _
  rw [hvalue]
  refine unpack_pack (canonical_kept _) ?_
  unfold exponent
  omega

/-- A positive count is one or more as a double. -/
theorem atLeastOne_ofNat {n : ℕ} (hpos : 0 < n) : AtLeastOne (Float.ofNat n).toModel.unpack := by
  change AtLeastOne (Float.ofScientific n false 0).toModel.unpack
  unfold Float.ofScientific
  split
  · rename_i hsmall
    obtain ⟨m, e, hm, hread, hfull, habove⟩ := exists_ofUInt64 hpos hsmall.1
    change AtLeastOne (UnpackedFloat.unpack .binary64 (UnpackedFloat.pack .binary64
      (UnpackedFloat.mul .binary64 n.toUInt64.toFloat.toModel.unpack
        (Float.exactlyRepresentablePowersOfTen[0]).toModel.unpack)))
    have hone : (Float.exactlyRepresentablePowersOfTen[0]).toModel.unpack =
        .finite .positive (2 ^ 52) (-52) (by decide) := rfl
    rw [hread, hone]
    refine AtLeastOne.stored (atLeastOne_roundWithAccuracy ?_ ?_)
    · exact hfull.trans (Nat.le_mul_of_pos_right _ (by positivity))
    · have hlog : 104 ≤ (m * 2 ^ 52).log2 := by
        rw [Nat.le_log2 (by positivity)]
        calc 2 ^ 104 = 2 ^ 52 * 2 ^ 52 := by norm_num
          _ ≤ m * 2 ^ 52 := Nat.mul_le_mul_right _ hfull
      omega
  · rename_i hlarge
    have hbits : 2 ^ 53 ≤ n := by omega
    change AtLeastOne (UnpackedFloat.unpack .binary64 (UnpackedFloat.pack .binary64
      (UnpackedFloat.ofScientific .binary64 n 0)))
    have hvalue : UnpackedFloat.ofScientific .binary64 n 0 =
        .roundWithAccuracy .binary64 .positive (n <<< 53 * 1) (-53) .exact := by
      have hrange : (2 ^ Format.binary64.exponentBits : ℤ) = 2048 := rfl
      unfold UnpackedFloat.ofScientific
      rw [dif_neg (by omega), if_neg (by decide), if_neg (by rw [hrange]; omega), if_pos le_rfl]
      rfl
    rw [hvalue, mul_one]
    refine AtLeastOne.stored (atLeastOne_roundWithAccuracy ?_ ?_)
    · rw [Nat.shiftLeft_eq]
      exact (show 2 ^ 52 ≤ n by omega).trans (Nat.le_mul_of_pos_right _ (by positivity))
    · rw [log2_shiftLeft hpos]
      omega

/-! ## Doubles that are not negative -/

variable {a b : Float}

theorem place?_zero : place? (0.0 : Float).toModel.unpack = some (toLex (0, toLex (0, 0))) := by
  decide +kernel

theorem place?_stored_zero (sign : Sign) : place? (UnpackedFloat.unpack .binary64
    (UnpackedFloat.pack .binary64 (.zero sign))) = some (toLex (0, toLex (0, 0))) := by
  cases sign <;> rfl

/-- A double that is not negative is a zero or positive. -/
theorem unpack_of_nonneg (h : 0.0 ≤ a) :
    (∃ sign, a.toModel.unpack = .zero sign) ∨
      (∃ m e, ∃ hpos : 0 < m, a.toModel.unpack = .finite .positive m e hpos) ∨
      a.toModel.unpack = .infinity .positive := by
  obtain ⟨place, place', hplace, hplace', hle⟩ := le_iff.mp h
  obtain rfl := Option.some.inj (place?_zero.symm.trans hplace)
  generalize a.toModel.unpack = value at hplace' ⊢
  rcases value with (_ | _) | _ | _ | ⟨_ | _, m, e, hpos⟩ <;>
    first
      | exact .inl ⟨_, rfl⟩
      | exact .inr (.inl ⟨m, e, hpos, rfl⟩)
      | exact .inr (.inr rfl)
      | exact absurd hplace'.symm (Option.some_ne_none _)
      | obtain rfl := Option.some.inj hplace'
        simp [Prod.Lex.toLex_le_toLex] at hle

/-- What is rounded from at most a positive double is not above it. -/
theorem le_of_within {m : ℕ} {e : ℤ} {hpos : 0 < m} {x : UnpackedFloat}
    (h : Within m e .positive x) (hread : b.toModel.unpack = .finite .positive m e hpos)
    (hstored : a.toModel.unpack = .unpack .binary64 (UnpackedFloat.pack .binary64 x)) :
    0.0 ≤ a ∧ a ≤ b := by
  have hlimit : e ≤ 971 := exponent_le_of_unpack hread
  have hplace : place? b.toModel.unpack = some (toLex (1, toLex (e, (m : ℤ)))) := by
    rw [hread]
    rfl
  cases h with
  | zero =>
      have hsame : place? a.toModel.unpack = some (toLex (0, toLex (0, 0))) := by
        rw [hstored, place?_stored_zero]
      exact ⟨le_iff.mpr ⟨_, _, place?_zero, hsame, le_rfl⟩,
        le_iff.mpr ⟨_, _, hsame, hplace, by simp [Prod.Lex.toLex_le_toLex]⟩⟩
  | @finite k d hk canonical lower =>
      have hsame : place? a.toModel.unpack = some (toLex (1, toLex (d, (k : ℤ)))) := by
        rw [hstored, unpack_pack canonical (by omega)]
        rfl
      refine ⟨le_iff.mpr ⟨_, _, place?_zero, hsame, by simp [Prod.Lex.toLex_le_toLex]⟩,
        le_iff.mpr ⟨_, _, hsame, hplace, ?_⟩⟩
      simp only [Prod.Lex.toLex_le_toLex, lt_irrefl, false_or, true_and]
      omega

/-- Dividing by what is one or more does not raise a double that is not negative. -/
theorem div_le (hfinite : a.isFinite = true) (h : 0.0 ≤ a) (hone : AtLeastOne b.toModel.unpack) :
    0.0 ≤ a / b ∧ a / b ≤ a := by
  have hquotient : (a / b).toModel.unpack = UnpackedFloat.unpack .binary64
      (UnpackedFloat.pack .binary64 (.div .binary64 a.toModel.unpack b.toModel.unpack)) := rfl
  have hcanonical : IsCanonical a.toModel.unpack := isCanonical_unpack _
  generalize b.toModel.unpack = divisor at hone hquotient
  obtain ⟨sign, ha⟩ | ⟨m, e, hpos, ha⟩ | ha := unpack_of_nonneg h
  · have hplace : place? a.toModel.unpack = some (toLex (0, toLex (0, 0))) := by
      rw [ha]
      rfl
    have hresult : place? (a / b).toModel.unpack = some (toLex (0, toLex (0, 0))) := by
      obtain ⟨sign', hzero⟩ : ∃ sign', UnpackedFloat.div .binary64 (.zero sign) divisor =
          .zero sign' := by
        cases hone <;> exact ⟨_, rfl⟩
      rw [hquotient, ha, hzero, place?_stored_zero]
    exact ⟨le_iff.mpr ⟨_, _, place?_zero, hresult, le_rfl⟩,
      le_iff.mpr ⟨_, _, hresult, hplace, le_rfl⟩⟩
  · rw [ha] at hquotient hcanonical
    cases hone with
    | infinity => exact le_of_within .zero ha hquotient
    | finite hpos' canonical full above =>
        exact le_of_within (within_div hcanonical canonical ⟨full, above⟩) ha hquotient
  · change a.toModel.unpack.isFinite = true at hfinite
    rw [ha] at hfinite
    exact absurd hfinite Bool.false_ne_true

/-- A negative number of the least positive doubles is rounded to what is not positive. -/
theorem not_pos_of_nearest {z : ℤ} {zero : Sign} (hz : z ≤ 0)
    (hstored : a.toModel.unpack =
      .unpack .binary64 (UnpackedFloat.pack .binary64 (nearest z zero))) : ¬ 0.0 < a := by
  rw [lt_iff, place?_zero]
  rintro ⟨_, place, hzero, hplace, hlt⟩
  obtain rfl := Option.some.inj hzero
  obtain rfl | ⟨sign, n, hpos, rfl⟩ := eq_zero_or_exists_apply z
  · have hsame : place? a.toModel.unpack = some (toLex (0, toLex (0, 0))) := by
      rw [hstored, nearest_zero]
      cases zero <;> rfl
    obtain rfl := Option.some.inj (hsame.symm.trans hplace)
    exact absurd hlt (lt_irrefl _)
  · obtain rfl : sign = .negative := by
      cases sign with
      | negative => rfl
      | positive =>
          simp only [Sign.apply] at hz
          omega
    rw [nearest_apply hpos] at hstored
    obtain hread | hread := unpack_pack_or .negative (kept_pos hpos) (canonical_kept n) <;>
      rw [hstored, hread] at hplace <;> obtain rfl := Option.some.inj hplace <;>
      simp [Prod.Lex.toLex_lt_toLex] at hlt

/-- Nothing is above infinity. -/
theorem le_infinity (h : a ≤ a) (hb : b.toModel.unpack = .infinity .positive) : a ≤ b := by
  obtain ⟨place, _, hplace, _, _⟩ := le_iff.mp h
  refine le_iff.mpr ⟨place, toLex (2, toLex (0, 0)), hplace, by rw [hb]; rfl, ?_⟩
  generalize a.toModel.unpack = value at hplace
  rcases value with (_ | _) | _ | _ | ⟨_ | _, m, e, hpos⟩ <;>
    first
      | exact absurd hplace.symm (Option.some_ne_none _)
      | obtain rfl := Option.some.inj hplace
        simp [Prod.Lex.toLex_le_toLex]

/-- The difference of two finite doubles that are not negative is not above the first one, as far as
anything is left. -/
theorem sub_le_of_isFinite (h : 0.0 ≤ a) (hfinite : a.toModel.unpack.isFinite = true)
    (hfinite' : b.toModel.unpack.isFinite = true) (hunits : 0 ≤ Rounding.units b.toModel.unpack)
    (hleft : 0.0 < a - b) : a - b ≤ a := by
  have hcanonical : IsCanonical a.toModel.unpack := isCanonical_unpack _
  have hcanonical' : IsCanonical b.toModel.unpack := isCanonical_unpack _
  have hdifference : (a - b).toModel.unpack = UnpackedFloat.unpack .binary64
      (UnpackedFloat.pack .binary64 (.sub .binary64 a.toModel.unpack b.toModel.unpack)) := rfl
  obtain ⟨zero, hsub⟩ := exists_sub_eq_nearest hcanonical hcanonical' hfinite hfinite'
  obtain ⟨z, hz⟩ : ∃ z, z = Rounding.units a.toModel.unpack - Rounding.units b.toModel.unpack :=
    ⟨_, rfl⟩
  rw [hsub, ← hz] at hdifference
  by_cases hnone : z ≤ 0
  · exact absurd hleft (not_pos_of_nearest hnone hdifference)
  obtain ⟨n, rfl⟩ : ∃ n : ℕ, z = n := ⟨z.toNat, by omega⟩
  obtain ⟨sign, ha⟩ | ⟨m, e, hpos, ha⟩ | ha := unpack_of_nonneg h <;>
    rw [ha] at hz hcanonical hfinite
  · have hzero : Rounding.units (.zero sign) = 0 := rfl
    omega
  · have hmost : Rounding.units (.finite .positive m e hpos) = (m <<< (e + 1074).toNat : ℕ) := rfl
    have hround : nearest (n : ℤ) zero = UnpackedFloat.round .binary64 .positive n (-1074) :=
      normalize_apply .positive (by omega)
    rw [hround] at hdifference
    exact (le_of_within (within_round hcanonical (by omega)) ha hdifference).2
  · exact absurd hfinite Bool.false_ne_true

/-- Taking off what is not negative does not raise a double that is not negative, as far as anything
is left. -/
theorem sub_le (h : 0.0 ≤ a) (h' : 0.0 ≤ b) (hleft : 0.0 < a - b) : a - b ≤ a := by
  have hdifference : (a - b).toModel.unpack = UnpackedFloat.unpack .binary64
      (UnpackedFloat.pack .binary64 (.sub .binary64 a.toModel.unpack b.toModel.unpack)) := rfl
  have hfinite : a.toModel.unpack.isFinite = true ∨ a.toModel.unpack = .infinity .positive := by
    obtain ⟨_, ha⟩ | ⟨_, _, _, ha⟩ | ha := unpack_of_nonneg h <;> rw [ha] <;>
      first
        | exact .inl rfl
        | exact .inr rfl
  obtain hfinite | hinfinite := hfinite
  · obtain ⟨sign, hb⟩ | ⟨m, e, hpos, hb⟩ | hb := unpack_of_nonneg h'
    · exact sub_le_of_isFinite h hfinite (by rw [hb]; rfl) (by rw [hb]; rfl) hleft
    · exact sub_le_of_isFinite h hfinite (by rw [hb]; rfl)
        (by rw [hb]; exact Int.natCast_nonneg _) hleft
    · -- nothing is left of a finite double below infinity
      have hsub : UnpackedFloat.sub .binary64 a.toModel.unpack (.infinity .positive) =
          .infinity .negative := by
        obtain ⟨sign, ha⟩ | ⟨_, _, _, ha⟩ | ha := unpack_of_nonneg h <;> rw [ha] at hfinite ⊢
        · cases sign <;> rfl
        · rfl
        · exact absurd hfinite Bool.false_ne_true
      have hbelow : (a - b).toModel.unpack = .infinity .negative := by
        rw [hdifference, hb, hsub]
        rfl
      rw [lt_iff, place?_zero, hbelow] at hleft
      obtain ⟨_, _, hzero, hplace, hlt⟩ := hleft
      obtain rfl := Option.some.inj hzero
      obtain rfl := Option.some.inj hplace
      simp [Prod.Lex.toLex_lt_toLex] at hlt
  · exact le_infinity (le_self_of_ge (le_of_lt hleft)) hinfinite

end Estimate

/-- Rows that are shared among hosts are not more. -/
theorem Statistics.rowsPerHost_le {statistics : Statistics} (segments : Nat)
    (hfinite : statistics.rows.isFinite = true) (h : 0.0 ≤ statistics.rows) :
    0.0 ≤ statistics.rowsPerHost segments ∧
      statistics.rowsPerHost segments ≤ statistics.rows :=
  Estimate.div_le hfinite h (Estimate.atLeastOne_ofNat (by omega))

/-- Taking a charge off a cost does not raise the cost, when neither is negative. -/
theorem Cost.saturatingSub_le {cost charge : Cost} (h : 0.0 ≤ cost.total) (h' : 0.0 ≤ charge.total) :
    (cost.saturatingSub charge).total ≤ cost.total := by
  have hnumber : cost.total ≤ cost.total := Estimate.le_self_of_ge h
  unfold saturatingSub
  split
  · exact hnumber
  · dsimp only
    unfold Estimate.larger
    split
    · exact h
    · split
      · rename_i hnone
        exact absurd hnone (by decide +kernel)
      · split
        · rename_i hleft
          exact Estimate.sub_le h h' hleft
        · exact h

end QueryPlanner
