import Mathlib
import QueryEquiv.Value.Arithmetic

/-!
# Halves of numbers in floating point

Half of an integer of at most 53 bits is a floating-point number, and sums and differences of such halves are
exact as long as they are not larger (`half_add`, `half_sub`): the sum of two aligned mantissas is a number of
at most 53 bits with zeros behind it, and so nothing is lost when it is rounded.
-/

namespace QueryEquiv

open Float.Model Float.Model.UnpackedFloat Nat UnpackedFloat Format

/-! ## Rounding -/

/-- A mantissa below `2 ^ 53` is shifted until it has 53 bits. -/
def canonical (s : Sign) (m : Nat) (e : Int) (h : 0 < m) : UnpackedFloat :=
  .finite s (m * 2 ^ (52 - m.log2)) (e - (52 - m.log2 : Nat)) (by positivity)

theorem shiftRight_exact (m i : Nat) :
    (ExtendedMantissa.mk (m * 2 ^ i) false false) >>> i = ExtendedMantissa.mk m false false := by
  induction i generalizing m with
  | zero => simp [HShiftRight.hShiftRight, Nat.repeat]
  | succ i ih =>
    have hstep : (ExtendedMantissa.mk (m * 2 ^ (i + 1)) false false) >>> (i + 1) =
        ((ExtendedMantissa.mk (m * 2 ^ (i + 1)) false false) >>> i).shiftRightOne := rfl
    rw [hstep, show m * 2 ^ (i + 1) = m * 2 * 2 ^ i by ring, ih]
    simp [ExtendedMantissa.shiftRightOne]

variable {m n : Nat} {k : Int} {x : Float}

theorem log2_mul_two_pow (h : 0 < m) (i : Nat) : (m * 2 ^ i).log2 = m.log2 + i := by
  induction i with
  | zero => simp
  | succ i ih =>
    rw [show m * 2 ^ (i + 1) = 2 * (m * 2 ^ i) by ring, log2_two_mul (by positivity), ih, add_assoc]

theorem log2_canonical (hpos : 0 < n) (h : n < 2 ^ 53) : (n * 2 ^ (52 - n.log2)).log2 = 52 := by
  have hlog : n.log2 < 53 := (log2_lt hpos.ne').2 h
  rw [log2_mul_two_pow hpos]
  omega

theorem shiftToTargetExponent_exact (hm : 0 < m) (i : Nat) (e : Int) (hlog : m.log2 = 52) (he : -1074 ≤ e) :
    shiftToTargetExponent binary64 (m * 2 ^ i) (e - i) .exact = (⟨m, false, false⟩, e) := by
  have htarget : binary64.targetExponent (totalExponent (m * 2 ^ i) (e - i)) = e := by
    simp only [targetExponent, totalExponent, mantissaBits, minExponent,
      log2_mul_two_pow hm, hlog]
    norm_num
    omega
  unfold shiftToTargetExponent
  rw [htarget]
  unfold shiftToExponent
  have hshift : (e - (e - i)).toNat = i := by omega
  simp only [hshift, ExtendedMantissa.ofMantissaAndAccuracy, shiftRight_exact]
  norm_num

theorem roundWithAccuracy_exact (s : Sign) (hm : 0 < m) (i : Nat) (e : Int) (hlog : m.log2 = 52) (he : -1074 ≤ e) :
    roundWithAccuracy binary64 s (m * 2 ^ i) (e - i) .exact = .finite s m e hm := by
  unfold roundWithAccuracy
  have hagain := shiftToTargetExponent_exact hm 0 e hlog he
  rw [pow_zero, mul_one, cast_zero, sub_zero] at hagain
  rw [shiftToTargetExponent_exact hm i e hlog he]
  simp [ExtendedMantissa.roundedMantissa, ExtendedMantissa.accuracy, Accuracy.roundToNearestEven, hagain, hm.ne']

/-- A number of at most 53 bits with zeros behind it is not changed by rounding. -/
theorem round_eq_canonical (s : Sign) (hm : 0 < m) (hlt : m < 2 ^ 53) (i : Nat) {e : Int}
    (he : -1000 ≤ e) : round binary64 s (m * 2 ^ i) (e - i) = canonical s m e hm := by
  have hlog : m.log2 < 53 := (log2_lt hm.ne').2 hlt
  obtain ⟨k, hk⟩ : ∃ k, 52 - m.log2 = k := ⟨_, rfl⟩
  have htarget : binary64.targetExponent (totalExponent (m * 2 ^ i) (e - i)) = e - k := by
    simp only [targetExponent, totalExponent, mantissaBits, minExponent, log2_mul_two_pow hm]
    norm_num
    omega
  have hpos : 0 < m * 2 ^ k := by positivity
  have hexact (j : Nat) := roundWithAccuracy_exact s hpos j (e - k) (by rw [log2_mul_two_pow hm]; omega) (by omega)
  unfold UnpackedFloat.round
  rw [htarget]
  unfold decreaseExponent canonical
  dsimp only
  simp only [hk]
  -- The zeros are either too few for 53 bits, and more are put behind them, or too many, and some are cut off.
  by_cases hik : i ≤ k
  · have hshift : (e - i - (e - k)).toNat = k - i := by omega
    have hmantissa : (m * 2 ^ i) <<< (k - i) = m * 2 ^ k * 2 ^ 0 := by
      rw [Nat.shiftLeft_eq, mul_assoc, ← pow_add, Nat.add_sub_cancel' hik, pow_zero, mul_one]
    rw [hshift, hmantissa, show e - i - ((k - i : Nat) : Int) = e - k - (0 : Nat) by omega, hexact]
  · have hshift : (e - i - (e - k)).toNat = 0 := by omega
    have hmantissa : (m * 2 ^ i) <<< 0 = m * 2 ^ k * 2 ^ (i - k) := by
      rw [Nat.shiftLeft_zero, mul_assoc, ← pow_add, Nat.add_sub_cancel' (by omega)]
    rw [hshift, hmantissa, show e - i - ((0 : Nat) : Int) = e - k - (i - k : Nat) by omega, hexact]

/-! ## Packing -/

theorem unpackSign_packComponents (f : Format) (s : Sign) (e : BitVec f.exponentBits)
    (m : BitVec f.mantissaBitsWithoutImplicit) : unpackSign (packComponents f s e m) = s.toBitVec := by
  refine BitVec.eq_of_getLsbD_eq fun i hi ↦ ?_
  obtain rfl : i = 0 := by omega
  simp [unpackSign, packComponents, BitVec.getLsbD_append, BitVec.getElem_append]

/-- A number of 53 bits is found again in its packed form. -/
theorem unpack_pack_normal (s : Sign) (hm : 0 < m) {e : Int} (hlog : m.log2 = 52) (he : -1000 ≤ e)
    (he' : e ≤ 900) : (pack (.finite s m e hm)).unpack = .finite s m e hm := by
  -- The leading bit is not stored, and the exponent is stored as a number `b` that is neither zero nor all ones.
  have hbits : (1#1 ++ BitVec.ofNat 52 m).toNat = m := by
    obtain ⟨hle, hlt⟩ := (log2_eq_iff hm.ne').1 hlog
    rw [BitVec.toNat_append, ← shiftLeft_add_eq_or_of_lt (BitVec.isLt _), BitVec.toNat_ofNat, shiftLeft_eq]
    norm_num at hle hlt ⊢
    omega
  obtain ⟨b, hb⟩ : ∃ b, (e + 1023 + 52).toNat = b := ⟨_, rfl⟩
  have hexp : (BitVec.ofNat 11 b).toNat = b := by
    rw [BitVec.toNat_ofNat, mod_eq_of_lt (by omega)]
  have hnonzero : BitVec.ofNat 11 b ≠ 0#11 := fun h ↦ by
    rw [h, BitVec.toNat_zero] at hexp
    omega
  have hfinite : BitVec.ofNat 11 b ≠ -1#11 := fun h ↦ by
    rw [h] at hexp
    norm_num at hexp
    omega
  have hbias : binary64.exponentBias = 1023 := rfl
  have hpack : pack binary64 (.finite s m e hm) =
      packComponents binary64 s (BitVec.ofNat 11 b) (BitVec.ofNat 52 m) := by
    simp only [UnpackedFloat.pack, hbias, hlog, mantissaBits]
    norm_num
    rw [hb, if_neg (by omega)]
  unfold Float.Model.unpack Float.Model.pack
  simp only [hpack]
  unfold UnpackedFloat.unpack
  simp only [unpackMantissa_packComponents, unpackExponent_packComponents, unpackSign_packComponents, hbias]
  rw [if_neg hfinite, if_neg hnonzero]
  have hsign : Sign.ofBitVec s.toBitVec = s := by cases s <;> rfl
  have hexponent : ((BitVec.ofNat 11 b).toNat : Int) - ((1023 : Nat) + (52 : Nat)) = e := by omega
  simp only [hsign, hbits, hexponent]

/-! ## Halves -/

def half (k : Int) : UnpackedFloat := UnpackedFloat.normalize Format.binary64 k (-1) .positive

theorem half_zero : half 0 = .zero .positive := rfl

/-- Half of an integer, with a sign and a mantissa. -/
theorem normalize_apply (s : Sign) (hm : 0 < m) (hlt : m < 2 ^ 53) (i : Nat) :
    normalize binary64 (s.apply m * 2 ^ i) (-1 - i) .positive = canonical s m (-1) hm := by
  have hround := round_eq_canonical s hm hlt i (e := -1) (by omega)
  have hpos : (0 : Int) < m * 2 ^ i := by positivity
  cases s with
  | positive =>
    have hcmp : compare ((m : Int) * 2 ^ i) 0 = .gt := compare_gt_iff_gt.2 hpos
    have hnat : ((m : Int) * 2 ^ i).toNat = m * 2 ^ i := by
      rw [← cast_ofNat, ← cast_pow, ← cast_mul, Int.toNat_natCast]
    simp only [UnpackedFloat.normalize, Sign.apply, hcmp, hnat, hround]
  | negative =>
    have hcmp : compare (-(m : Int) * 2 ^ i) 0 = .lt := compare_lt_iff_lt.2 (by rw [neg_mul]; exact neg_neg_of_pos hpos)
    have hnat : (-(-(m : Int) * 2 ^ i)).toNat = m * 2 ^ i := by
      rw [neg_mul, neg_neg, ← cast_ofNat, ← cast_pow, ← cast_mul, Int.toNat_natCast]
    simp only [UnpackedFloat.normalize, Sign.apply, hcmp, hnat, hround]

theorem exists_apply (h : k ≠ 0) (hlt : k.natAbs < 2 ^ 53) :
    ∃ (s : Sign) (m : Nat), 0 < m ∧ m < 2 ^ 53 ∧ s.apply m = k := by
  rcases lt_or_gt_of_ne h with hneg | hpos
  · refine ⟨.negative, k.natAbs, by omega, by omega, ?_⟩
    simp only [Sign.apply]
    omega
  · refine ⟨.positive, k.natAbs, by omega, by omega, ?_⟩
    simp only [Sign.apply]
    omega

theorem half_apply (s : Sign) (hm : 0 < m) (hlt : m < 2 ^ 53) : half (s.apply m) = canonical s m (-1) hm := by
  have h := normalize_apply s hm hlt 0
  rwa [pow_zero, mul_one, cast_zero, sub_zero] at h

theorem apply_neg (s : Sign) (k : Int) : (-s).apply k = -s.apply k := by
  cases s with
  | negative => exact (neg_neg k).symm
  | positive => rfl

theorem neg_half (h : k ≠ 0) (hlt : k.natAbs < 2 ^ 53) : (half k).neg = half (-k) := by
  obtain ⟨s, m, hm, hmlt, rfl⟩ := exists_apply h hlt
  rw [← apply_neg, half_apply s hm hmlt, half_apply (-s) hm hmlt]
  rfl

/-- Zeros behind the mantissa of a half do not matter. -/
theorem normalize_mul_two_pow (hlt : k.natAbs < 2 ^ 53) (i : Nat) :
    normalize binary64 (k * 2 ^ i) (-1 - i) .positive = half k := by
  by_cases h : k = 0
  · rw [h, zero_mul]
    rfl
  · obtain ⟨s, m, hm, hmlt, rfl⟩ := exists_apply h hlt
    rw [normalize_apply s hm hmlt, half_apply s hm hmlt]

theorem unpack_pack_half (hlt : k.natAbs < 2 ^ 53) : (pack (half k)).unpack = half k := by
  by_cases h : k = 0
  · subst h
    rfl
  · obtain ⟨s, m, hm, hmlt, rfl⟩ := exists_apply h hlt
    have hlog : m.log2 < 53 := (log2_lt hm.ne').2 hmlt
    rw [half_apply s hm hmlt]
    exact unpack_pack_normal s _ (log2_canonical hm hmlt) (by omega) (by omega)

theorem decreaseExponent_mul (m k j : Nat) (e : Int) (h : k ≤ j) :
    (decreaseExponent (m * 2 ^ k) (e - k) (e - j)).1 = m * 2 ^ j := by
  have hshift : (e - k - (e - j)).toNat = j - k := by omega
  rw [decreaseExponent, hshift, Nat.shiftLeft_eq, mul_assoc, ← pow_add, Nat.add_sub_cancel' h]

section Sums

variable {a b : Int} (ha : a.natAbs < 2 ^ 53) (hb : b.natAbs < 2 ^ 53)
include ha hb

/-- The aligned mantissas of two halves that are not zero. -/
private theorem aligned (h0 : a ≠ 0) (h1 : b ≠ 0) : ∃ (s t : Sign) (m n : Nat) (hm : 0 < m) (hn : 0 < n) (j : Nat),
    half a = canonical s m (-1) hm ∧ half b = canonical t n (-1) hn ∧
    min ((-1 : Int) - (52 - m.log2 : Nat)) (-1 - (52 - n.log2 : Nat)) = -1 - j ∧
    s.apply (decreaseExponent (m * 2 ^ (52 - m.log2)) (-1 - (52 - m.log2 : Nat)) (-1 - j)).1 = a * 2 ^ j ∧
    t.apply (decreaseExponent (n * 2 ^ (52 - n.log2)) (-1 - (52 - n.log2 : Nat)) (-1 - j)).1 = b * 2 ^ j := by
  obtain ⟨s, m, hm, hmlt, rfl⟩ := exists_apply h0 ha
  obtain ⟨t, n, hn, hnlt, rfl⟩ := exists_apply h1 hb
  have hmul (s : Sign) (m j : Nat) : s.apply ((m * 2 ^ j : Nat) : Int) = s.apply m * 2 ^ j := by
    cases s <;> simp [Sign.apply]
  refine ⟨s, t, m, n, hm, hn, max (52 - m.log2) (52 - n.log2), half_apply s hm hmlt, half_apply t hn hnlt,
    by omega, ?_, ?_⟩
  · rw [decreaseExponent_mul m _ _ _ (le_max_left ..), hmul]
  · rw [decreaseExponent_mul n _ _ _ (le_max_right ..), hmul]

theorem half_add (hab : (a + b).natAbs < 2 ^ 53) :
    add binary64 (half a) (half b) = half (a + b) := by
  by_cases h0 : a = 0
  · rw [h0, zero_add]
    by_cases h1 : b = 0
    · rw [h1]
      rfl
    · obtain ⟨t, n, hn, hnlt, rfl⟩ := exists_apply h1 hb
      rw [half_apply t hn hnlt]
      rfl
  by_cases h1 : b = 0
  · obtain ⟨s, m, hm, hmlt, rfl⟩ := exists_apply h0 ha
    rw [h1, add_zero, half_apply s hm hmlt]
    rfl
  obtain ⟨s, t, m, n, hm, hn, j, hs, ht, hmin, hsa, htb⟩ := aligned ha hb h0 h1
  rw [hs, ht]
  simp only [UnpackedFloat.add, canonical, hmin]
  rw [hsa, htb, ← add_mul, normalize_mul_two_pow hab]

theorem half_sub (hab : (a - b).natAbs < 2 ^ 53) :
    sub binary64 (half a) (half b) = half (a - b) := by
  by_cases h1 : b = 0
  · rw [h1, sub_zero, half_zero]
    cases half a with
    | zero s => cases s <;> rfl
    | _ => rfl
  have hsub : sub binary64 (half a) (half b) =
      add binary64 (half a) (half b).neg := by
    cases half a <;> cases half b <;> try rfl
    simp only [UnpackedFloat.sub, UnpackedFloat.add, UnpackedFloat.neg, apply_neg, sub_eq_add_neg]
  rw [hsub, neg_half h1 hb, half_add ha (by omega) (by rwa [← sub_eq_add_neg]), sub_eq_add_neg]

end Sums

/-! ## Floats -/

/-- A float is half of an integer of at most 53 bits. -/
structure IsHalf (x : Float) (k : Int) : Prop where
  unpack : x.toModel.unpack = half k
  small : k.natAbs < 2 ^ 53

theorem canonical_double (s : Sign) (hm : 0 < m) (hlt : 2 * m < 2 ^ 53) (e : Int) :
    canonical s (2 * m) (e - 1) (by omega) = canonical s m e hm := by
  have hlog : m.log2 < 52 := (log2_lt hm.ne').2 (by omega)
  obtain ⟨k, hk⟩ : ∃ k, 52 - (m.log2 + 1) = k := ⟨_, rfl⟩
  have hmantissa : 2 * m * 2 ^ k = m * 2 ^ (k + 1) := by ring
  have hexponent : e - 1 - (k : Int) = e - ((k + 1 : Nat) : Int) := by omega
  unfold canonical
  simp only [log2_two_mul hm.ne', hk, show 52 - m.log2 = k + 1 by omega, hmantissa, hexponent]

/-- Half of twice a number of at most 52 bits is that number. -/
theorem half_double (hpos : 0 < n) (h : 2 * n < 2 ^ 53) : half (2 * n) = canonical .positive n 0 hpos := by
  exact (half_apply .positive (m := 2 * n) (by omega) h).trans (canonical_double .positive hpos h 0)

/-- The product with one. -/
theorem canonical_mul_one (hpos : 0 < n) (h : n < 2 ^ 53) :
    mul binary64 (canonical .positive n 0 hpos) (canonical .positive 1 0 one_pos) =
      canonical .positive n 0 hpos := by
  have hlog : n.log2 < 53 := (log2_lt hpos.ne').2 h
  have hone : canonical .positive 1 0 one_pos = .finite .positive (2 ^ 52) (-52) (by decide) := rfl
  rw [hone]
  simp only [UnpackedFloat.mul, canonical]
  rw [show (0 : Int) - (52 - n.log2 : Nat) + -52 = 0 - (52 - n.log2 : Nat) - (52 : Nat) by omega,
    roundWithAccuracy_exact _ (by positivity) 52 _ (log2_canonical hpos h) (by omega)]
  rfl

theorem isHalf_ofNat (h : 2 * n < 2 ^ 53) : IsHalf (Float.ofNat n) (2 * n) := by
  refine ⟨?_, by omega⟩
  by_cases hn : n = 0
  · subst hn
    rfl
  have hpos : 0 < n := by omega
  -- A number of one word is taken from the word and multiplied by a power of ten, which is one.
  have hfast : Float.ofNat n = n.toUInt64.toFloat * Float.ofBits 0x3FF0000000000000 :=
    dif_pos ⟨by omega, by omega⟩
  have hone : (Float.ofBits 0x3FF0000000000000).toModel.unpack = canonical .positive 1 0 one_pos := rfl
  have hword : (n.toUInt64.toFloat).toModel.unpack = half (2 * n) := by
    have hnormal := round_eq_canonical .positive hpos (by omega) 0 (e := 0) (by omega)
    rw [pow_zero, mul_one, cast_zero, sub_zero] at hnormal
    have hcmp : compare (n : Int) 0 = .gt := compare_gt_iff_gt.2 (by omega)
    have hmodel : (n.toUInt64.toFloat).toModel =
        Float.Model.pack (normalize binary64 n.toUInt64.toNat 0 .positive) := rfl
    have hsame : n.toUInt64.toNat = n := UInt64.toNat_ofNat_of_lt' (lt_of_lt_of_le (by omega : n < 2 ^ 53) (by decide))
    rw [hmodel, hsame, ← unpack_pack_half (by omega), half_double hpos h]
    simp only [UnpackedFloat.normalize, hcmp, Int.toNat_natCast, hnormal]
  rw [hfast]
  change (Float.Model.pack (mul binary64 _ _)).unpack = _
  rw [hone, hword, half_double hpos h, canonical_mul_one hpos (by omega), ← half_double hpos h,
    unpack_pack_half (by omega)]

theorem isHalf_ofInt {n : Int} (h : (2 * n).natAbs < 2 ^ 53) : IsHalf (Float.ofInt n) (2 * n) := by
  cases n with
  | ofNat n =>
    rw [Int.ofNat_eq_natCast] at h
    exact isHalf_ofNat (by omega)
  | negSucc n =>
    refine ⟨?_, h⟩
    change (Float.Model.pack (Float.ofNat (n + 1)).toModel.unpack.neg).unpack = _
    have hneg : -(2 * (n + 1 : Nat) : Int) = 2 * Int.negSucc n := by omega
    rw [(isHalf_ofNat (by omega)).unpack, neg_half (by omega) (by omega), hneg, unpack_pack_half h]

/-- A quotient by two keeps the mantissa, with one digit more. -/
theorem divCore_two {k : Nat} (hbits : (n * 2 ^ k).log2 = 52) (hk : k ≤ 52) :
    divCore binary64 (n * 2 ^ k) (0 - k) (2 ^ 52) (-51) =
      (n * 2 ^ k * 2 ^ 1, -1 - (k : Int) - (1 : Nat), .exact) := by
  have htarget : binary64.targetExponent (totalExponent (n * 2 ^ k) (0 - k) - totalExponent (2 ^ 52) (-51)) =
      -2 - k := by
    simp only [targetExponent, totalExponent, mantissaBits, minExponent, hbits, log2_two_pow]
    norm_num
    omega
  have hmin : min ((0 : Int) - k - -51) (-2 - k) = -2 - k := by omega
  have hlast : (-2 : Int) - k = -1 - (k : Int) - (1 : Nat) := by omega
  have hshift : ((0 : Int) - k - -51 - (-2 - k)).toNat = 53 := by omega
  have hmantissa : (n * 2 ^ k) <<< 53 = n * 2 ^ k * 2 ^ 1 * 2 ^ 52 := by
    rw [shiftLeft_eq]
    ring
  simp only [divCore, htarget, hmin, hshift, hmantissa, accuracyOfFraction]
  rw [Nat.mul_div_cancel _ (by positivity), Nat.mul_mod_left, if_pos rfl, hlast]

theorem isHalf_div_two (h : 2 * n < 2 ^ 53) : IsHalf (n.toFloat / 2) n := by
  refine ⟨?_, by omega⟩
  change (Float.Model.pack (div binary64 _ _)).unpack = _
  have htwo : (2 : Float).toModel.unpack = .finite .positive (2 ^ 52) (-51) (by decide) := rfl
  rw [htwo, (isHalf_ofNat h).unpack]
  by_cases hn : n = 0
  · subst hn
    rfl
  have hpos : 0 < n := by omega
  have hlog : n.log2 < 52 := (log2_lt hn).2 (by omega)
  obtain ⟨k, hk⟩ : ∃ k, 52 - n.log2 = k := ⟨_, rfl⟩
  have hbits : (n * 2 ^ k).log2 = 52 := hk ▸ log2_canonical hpos (by omega)
  have hcore := divCore_two hbits (by omega)
  have hexact := roundWithAccuracy_exact .positive (m := n * 2 ^ k) (by positivity) 1 (-1 - k) hbits (by omega)
  have hhalf : half n = canonical .positive n (-1) hpos := half_apply .positive hpos (by omega)
  have hdiv : div binary64 (canonical .positive n 0 hpos)
      (.finite .positive (2 ^ 52) (-51) (by decide)) = canonical .positive n (-1) hpos := by
    simp only [UnpackedFloat.div, canonical, hk, hcore]
    exact hexact
  rw [half_double hpos h, hdiv, ← hhalf, unpack_pack_half (by omega)]

theorem IsHalf.add {y : Float} {a b : Int} (hx : IsHalf x a) (hy : IsHalf y b) (h : (a + b).natAbs < 2 ^ 53) :
    IsHalf (x + y) (a + b) := by
  refine ⟨?_, h⟩
  change (Float.Model.pack (UnpackedFloat.add binary64 x.toModel.unpack y.toModel.unpack)).unpack = _
  rw [hx.unpack, hy.unpack, half_add hx.small hy.small h, unpack_pack_half h]

theorem IsHalf.sub {y : Float} {a b : Int} (hx : IsHalf x a) (hy : IsHalf y b) (h : (a - b).natAbs < 2 ^ 53) :
    IsHalf (x - y) (a - b) := by
  refine ⟨?_, h⟩
  change (Float.Model.pack (UnpackedFloat.sub binary64 x.toModel.unpack y.toModel.unpack)).unpack = _
  rw [hx.unpack, hy.unpack, half_sub hx.small hy.small h, unpack_pack_half h]

theorem IsHalf.isInf (h : IsHalf x k) : x.isInf = false := by
  change x.toModel.unpack.isInf = false
  rw [h.unpack]
  by_cases h0 : k = 0
  · rw [h0]
    rfl
  · obtain ⟨s, m, hm, hlt, rfl⟩ := exists_apply h0 h.small
    rw [half_apply s hm hlt]
    rfl

end QueryEquiv
