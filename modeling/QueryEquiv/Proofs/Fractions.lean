import QueryEquiv.Proofs.Halves
import QueryEquiv.Proofs.Meaning

/-!
# Fractions as constants

A constant in a term may be a fraction, as the bounds on the sizes of groups are. A solver compares it with
an integer as a number, so a term with fractions is read in the rational numbers: `Interpretation.exact`. A
term without fractions stands for the same number as before (`exact_eq_eval`).
-/

namespace QueryEquiv

open List Float.Model Float.Model.UnpackedFloat Int

/-! ## Numbers as fractions -/

/-- The fraction that a float is, if it is finite. -/
def fractionOf : UnpackedFloat → Option ℚ
  | .zero _ => some 0
  | .finite s m e _ => some (s.apply m * 2 ^ e)
  | .infinity _ | .notANumber => none

def Value.fraction? : Value → Option ℚ
  | .float x => fractionOf x.toModel.unpack
  | v => v.integer?.map (↑)

theorem Value.fraction?_of_integer? {v : Value} {n : Int} (h : v.integer? = some n) : v.fraction? = some (n : ℚ) := by
  cases v with
  | int m =>
    obtain rfl := Option.some.inj h
    rfl
  | bool b =>
    obtain rfl := Option.some.inj h
    rfl
  | _ => cases h

theorem fractionOf_canonical (s : Sign) {m : Nat} (hm : 0 < m) (e : Int) :
    fractionOf (canonical s m e hm) = some ((s.apply m : ℚ) * 2 ^ e) := by
  have hpow : (2 : ℚ) ^ e = 2 ^ (52 - m.log2 : Nat) * 2 ^ (e - (52 - m.log2 : Nat)) := by
    rw [← zpow_natCast, ← zpow_add₀ two_ne_zero, add_sub_cancel]
  rw [canonical, fractionOf, hpow]
  congr 1
  cases s <;> simp [Sign.apply] <;> ring

theorem IsHalf.fraction? {x : Float} {k : Int} (h : IsHalf x k) : (Value.float x).fraction? = some (k / 2 : ℚ) := by
  rw [Value.fraction?, h.unpack]
  by_cases h0 : k = 0
  · rw [h0, half_zero, fractionOf]
    norm_num
  · obtain ⟨s, m, hm, hlt, rfl⟩ := exists_apply h0 h.small
    rw [half_apply s hm hlt, fractionOf_canonical, zpow_neg_one, div_eq_mul_inv]

/-- A number in a float has 53 bits, unless it is very small. -/
theorem unpack_finite {v : Float.Model} {s : Sign} {m : Nat} {e : Int} {h : 0 < m} (hv : v.unpack = .finite s m e h) :
    (2 ^ 52 ≤ m ∧ m < 2 ^ 53) ∨ (m < 2 ^ 52 ∧ e = -1074) := by
  have hbias : Format.binary64.exponentBias = 1023 := rfl
  simp only [Float.Model.unpack, UnpackedFloat.unpack, hbias] at hv
  split at hv
  · split at hv <;> cases hv
  · split at hv
    · rename_i hexp
      split at hv
      · cases hv
      · simp only [UnpackedFloat.finite.injEq] at hv
        obtain ⟨-, rfl, rfl⟩ := hv
        refine .inr ⟨BitVec.isLt _, ?_⟩
        rw [hexp, BitVec.toNat_zero]
        norm_num
    · simp only [UnpackedFloat.finite.injEq] at hv
      obtain ⟨-, rfl, -⟩ := hv
      have hlt := (@unpackMantissa Format.binary64 v.toBits.toBitVec).isLt
      rw [BitVec.toNat_append, ← Nat.shiftLeft_add_eq_or_of_lt (BitVec.isLt _), Nat.shiftLeft_eq, BitVec.toNat_ofNat]
      norm_num at hlt ⊢
      omega

private theorem mul_two_pow_lt_one {m : Nat} (hlow : 2 ^ 52 ≤ m) (hhigh : m < 2 ^ 53) (e : Int) :
    (m : ℚ) * 2 ^ e < 1 ↔ e < -52 := by
  constructor
  · intro h
    by_contra hle
    have hpow : (2 : ℚ) ^ (-52 : Int) ≤ 2 ^ e := zpow_le_zpow_right₀ one_le_two (by omega)
    have hm : ((2 ^ 52 : Nat) : ℚ) ≤ m := Nat.cast_le.2 hlow
    have hone : (1 : ℚ) ≤ m * 2 ^ e :=
      calc (1 : ℚ) = ((2 ^ 52 : Nat) : ℚ) * 2 ^ (-52 : Int) := by norm_num
        _ ≤ m * 2 ^ e := by gcongr
    exact absurd h hone.not_gt
  · intro he
    have hpow : (2 : ℚ) ^ e ≤ 2 ^ (-53 : Int) := zpow_le_zpow_right₀ one_le_two (by omega)
    have hm : (m : ℚ) < ((2 ^ 53 : Nat) : ℚ) := Nat.cast_lt.2 hhigh
    calc (m : ℚ) * 2 ^ e < ((2 ^ 53 : Nat) : ℚ) * 2 ^ e := mul_lt_mul_of_pos_right hm (zpow_pos two_pos e)
      _ ≤ ((2 ^ 53 : Nat) : ℚ) * 2 ^ (-53 : Int) := by gcongr
      _ = 1 := by norm_num

theorem lt_one_iff {x : Float} {q : ℚ} (h : (Value.float x).fraction? = some q) : x < Float.ofInt 1 ↔ q < 1 := by
  have hone : (Float.ofInt 1).toModel.unpack = .finite .positive (2 ^ 52) (-52) (by decide) := rfl
  have hlt : x < Float.ofInt 1 ↔ x.toModel.unpack.lt (Float.ofInt 1).toModel.unpack = true := decide_eq_true_iff
  rw [hlt, hone]
  rw [Value.fraction?] at h
  cases hx : x.toModel.unpack with
  | notANumber => simp [hx, fractionOf] at h
  | infinity s => simp [hx, fractionOf] at h
  | zero s =>
    rw [hx, fractionOf] at h
    obtain rfl := Option.some.inj h
    exact iff_of_true rfl one_pos
  | finite s m e hm =>
    rw [hx, fractionOf] at h
    obtain rfl := Option.some.inj h
    have hpos : (0 : ℚ) < m * 2 ^ e := mul_pos (Nat.cast_pos.2 hm) (zpow_pos two_pos e)
    cases s with
    | negative =>
      refine iff_of_true rfl (lt_of_lt_of_le ?_ zero_le_one)
      simp only [Sign.apply, cast_neg, cast_natCast]
      linarith
    | positive =>
      have hcompare : UnpackedFloat.lt (.finite .positive m e hm) (.finite .positive (2 ^ 52) (-52) (by decide)) = true ↔
          e < -52 ∨ e = -52 ∧ m < 2 ^ 52 := by
        simp only [UnpackedFloat.lt, UnpackedFloat.compare, beq_iff_eq, Option.some.injEq, Ordering.then_eq_lt,
          compare_lt_iff_lt, compare_eq_iff_eq]
      rw [hcompare]
      simp only [Sign.apply, cast_natCast]
      rcases unpack_finite hx with ⟨hlow, hhigh⟩ | ⟨hlow, rfl⟩
      · rw [mul_two_pow_lt_one hlow hhigh]
        omega
      · -- A number that small is below the least one of 53 bits with the exponent.
        refine iff_of_true (by omega) (lt_of_le_of_lt ?_ ((mul_two_pow_lt_one le_rfl (by decide) (-1074)).2 (by decide)))
        exact mul_le_mul_of_nonneg_right (Nat.cast_le.2 hlow.le) (zpow_pos two_pos _).le

theorem Value.before_one {v : Value} {q : ℚ} (h : v.fraction? = some q) : v.before (.int 1) = .ok (decide (q < 1)) := by
  cases v with
  | float x =>
    change (do return decide (x < Float.ofInt 1) : Outcome Bool) = _
    simp only [lt_one_iff h]
    rfl
  | int n =>
    obtain rfl := Option.some.inj h
    change Except.ok (decide (n < 1)) = _
    norm_cast
  | bool b =>
    obtain rfl := Option.some.inj h
    cases b <;> rfl
  | _ => cases h

/-! ## Terms with fractions -/

/-- Whether two fractions compare as asked. -/
def Comparison.relates : Comparison → ℚ → ℚ → Bool
  | .gt, a, b => b < a
  | .ge, a, b => b ≤ a
  | .lt, a, b => a < b
  | .le, a, b => a ≤ b
  | .eq, a, b => a == b
  | .ne, a, b => a != b

private theorem cast_beq (a b : Int) : ((a : ℚ) == b) = (a == b) := by
  rw [Bool.eq_iff_iff, beq_iff_eq, beq_iff_eq, Int.cast_inj]

private theorem cast_beq_zero (a : Int) : ((a : ℚ) == 0) = (a == 0) := by
  rw [← cast_zero, cast_beq]

theorem Comparison.relates_cast (op : Comparison) (a b : Int) : op.relates a b = op.holds a b := by
  cases op <;> simp [relates, holds, bne, cast_beq]

namespace Interpretation

variable (I : Interpretation)

/-- The result of a computation; a division is one of whole numbers. -/
def calculateExactly : Arith → ℚ → ℚ → ℚ
  | .add, a, b => a + b
  | .sub, a, b => a - b
  | .mul, a, b => a * b
  | .div, a, b => I.calculate .div ⌊a⌋ ⌊b⌋

theorem calculateExactly_cast (op : Arith) (a b : Int) : I.calculateExactly op a b = I.calculate op a b := by
  cases op <;> simp [calculateExactly, calculate]

mutual

/-- The number that a term stands for, where a constant may be a fraction. -/
def exact : Term → ℚ
  | .and ts => ((exacts ts).all (· != 0)).toInt
  | .or ts => ((exacts ts).any (· != 0) || (ts.isEmpty && I.emptyOr)).toInt
  | .xor a b => ((exact a != 0) != (exact b != 0)).toInt
  | .not a => (exact a == 0).toInt
  | .implies a b => (exact a == 0 || exact b != 0).toInt
  | .ite c a b => if exact c = 0 then exact b else exact a
  | .cmp op a b => (op.relates (exact a) (exact b)).toInt
  | .arith op a b => I.calculateExactly op (exact a) (exact b)
  | .neg a => -exact a
  | .int v => v.fraction?.getD (I.constant v)
  | t => I.eval t

def exacts : List Term → List ℚ
  | [] => []
  | t :: ts => exact t :: exacts ts

end

/-- A term is true, where a constant may be a fraction. -/
def Satisfies (t : Term) : Prop := I.exact t ≠ 0

theorem exacts_eq_map (ts : List Term) : I.exacts ts = ts.map I.exact := by
  induction ts with
  | nil => rfl
  | cons t ts ih => exact congrArg (I.exact t :: ·) ih

@[simp] theorem satisfies_and (ts : List Term) : I.Satisfies (.and ts) ↔ ∀ t ∈ ts, I.Satisfies t := by
  change (((I.exacts ts).all (· != 0)).toInt : ℚ) ≠ 0 ↔ _
  rw [Ne, cast_eq_zero, ← Ne, toInt_ne_zero]
  simp [Satisfies, exacts_eq_map]

theorem satisfies_cmp (op : Comparison) (a b : Term) :
    I.Satisfies (.cmp op a b) ↔ op.relates (I.exact a) (I.exact b) = true := by
  change ((op.relates (I.exact a) (I.exact b)).toInt : ℚ) ≠ 0 ↔ _
  rw [Ne, cast_eq_zero, ← Ne, toInt_ne_zero]

theorem exact_int {v : Value} {q : ℚ} (h : v.fraction? = some q) : I.exact (.int v) = q := by
  rw [exact, h, Option.getD_some]

end Interpretation

namespace Term

mutual

/-- No constant of a term is a fraction. -/
def Whole : Term → Prop
  | .and ts => WholeAll ts
  | .or ts => WholeAll ts
  | .xor a b => Whole a ∧ Whole b
  | .not a => Whole a
  | .implies a b => Whole a ∧ Whole b
  | .ite c a b => Whole c ∧ Whole a ∧ Whole b
  | .cmp _ a b => Whole a ∧ Whole b
  | .arith _ a b => Whole a ∧ Whole b
  | .neg a => Whole a
  | .int v => v.integer?.isSome
  | _ => True

def WholeAll : List Term → Prop
  | [] => True
  | t :: ts => Whole t ∧ WholeAll ts

end

theorem wholeAll_iff (ts : List Term) : WholeAll ts ↔ ∀ t ∈ ts, Whole t := by
  induction ts with
  | nil => exact iff_of_true trivial (by simp)
  | cons t ts ih =>
    rw [forall_mem_cons, ← ih]
    rfl

@[simp] theorem whole_and (ts : List Term) : Whole (.and ts) ↔ ∀ t ∈ ts, Whole t := wholeAll_iff ts

@[simp] theorem whole_or (ts : List Term) : Whole (.or ts) ↔ ∀ t ∈ ts, Whole t := wholeAll_iff ts

@[simp] theorem whole_not (a : Term) : Whole (.not a) ↔ Whole a := Iff.rfl

@[simp] theorem whole_implies (a b : Term) : Whole (.implies a b) ↔ Whole a ∧ Whole b := Iff.rfl

@[simp] theorem whole_eq (a b : Term) : Whole (.eq a b) ↔ Whole a ∧ Whole b := Iff.rfl

@[simp] theorem whole_indicator (c : Term) : Whole (.indicator c) ↔ Whole c := by
  simp [indicator, one, zero, Whole, Value.integer?]

@[simp] theorem whole_cell (t r c : Int) : Whole (.cell t r c) := trivial

@[simp] theorem whole_null (t r c : Int) : Whole (.null t r c) := trivial

@[simp] theorem whole_deleted (t r : Int) : Whole (.deleted t r) := trivial

@[simp] theorem whole_belongs (q g : Int) : Whole (.belongs q g) := trivial

theorem whole_sum {ts : List Term} (h : ∀ t ∈ ts, Whole t) : Whole (.sum ts) := by
  have hfold (us : List Term) (hus : ∀ u ∈ us, Whole u) (t : Term) (ht : Whole t) :
      Whole (us.foldl (.arith .add) t) := by
    induction us generalizing t with
    | nil => exact ht
    | cons u us ih =>
      rw [forall_mem_cons] at hus
      exact ih hus.2 _ ⟨ht, hus.1⟩
  cases ts with
  | nil => rfl
  | cons t ts =>
    rw [forall_mem_cons] at h
    exact hfold ts h.2 t h.1

end Term

namespace Interpretation

variable (I : Interpretation)

mutual

/-- A term without fractions stands for the same number. -/
theorem exact_eq_eval : (t : Term) → t.Whole → I.exact t = I.eval t
  | .and ts, h => by
    rw [exact, eval, exacts_eq_evals ts h, all_map]
    simp only [Function.comp_def, bne, cast_beq_zero]
  | .or ts, h => by
    rw [exact, eval, exacts_eq_evals ts h, any_map]
    simp only [Function.comp_def, bne, cast_beq_zero]
  | .xor a b, h => by
    rw [exact, eval, exact_eq_eval a h.1, exact_eq_eval b h.2]
    simp only [bne, cast_beq_zero]
  | .not a, h => by
    rw [exact, eval, exact_eq_eval a h, cast_beq_zero]
  | .implies a b, h => by
    rw [exact, eval, exact_eq_eval a h.1, exact_eq_eval b h.2]
    simp only [bne, cast_beq_zero]
  | .ite c a b, h => by
    rw [exact, eval, exact_eq_eval c h.1, exact_eq_eval a h.2.1, exact_eq_eval b h.2.2, apply_ite Int.cast]
    simp only [cast_eq_zero]
  | .cmp op a b, h => by
    rw [exact, eval, exact_eq_eval a h.1, exact_eq_eval b h.2, Comparison.relates_cast]
  | .arith op a b, h => by
    rw [exact, eval, exact_eq_eval a h.1, exact_eq_eval b h.2, calculateExactly_cast]
  | .neg a, h => by
    rw [exact, eval, exact_eq_eval a h, cast_neg]
  | .int v, h => by
    obtain ⟨n, hn⟩ := Option.isSome_iff_exists.1 h
    rw [exact, eval, hn, Value.fraction?_of_integer? hn]
    rfl
  | .bool _, _ | .plain _, _ => rfl
  | .cell .., _ | .null .., _ | .grouping .., _ | .deleted .., _ | .belongs .., _ | .size _, _ | .choice .., _ => rfl

theorem exacts_eq_evals : (ts : List Term) → Term.WholeAll ts → I.exacts ts = (I.evals ts).map (↑)
  | [], _ => rfl
  | t :: ts, h => by
    rw [exacts, exact_eq_eval t h.1, exacts_eq_evals ts h.2]
    rfl

end

theorem satisfies_iff_holds {t : Term} (h : t.Whole) : I.Satisfies t ↔ I.Holds t := by
  rw [Satisfies, I.exact_eq_eval t h, Ne, cast_eq_zero]
  rfl

end Interpretation

end QueryEquiv
