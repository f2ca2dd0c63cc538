import QueryEquiv.Proofs.Leaves

/-!
# Three-valued logic

The operators of the query language on values, where `none` is the null and a truth value is one or zero,
and the readings that stand for them. A reading is a value with the condition that it is null; what its
value is under a null is never to be seen. So a reading is looked at through `read`, which hides it, and
each operation on readings is shown to do to what is read what the operator does to values.

The value of a reading has to be a term, not a plain number (`Reads`): plain numbers are computed with
beforehand, and mean nothing to a solver.
-/

namespace QueryEquiv

open Term Reading Outcome List Comparison

/-! ## The operators on values -/

namespace Sql

def compare (op : Comparison) (a b : Option Int) : Option Int := do
  return (op.holds (← a) (← b)).toInt

/-- A quotient by zero is null; others are rounded such that the rest is not negative. -/
def compute (op : Arith) (a b : Option Int) : Option Int := do
  let a ← a
  let b ← b
  match op with
  | .add => return a + b
  | .sub => return a - b
  | .mul => return a * b
  | .div => if b = 0 then none else return a / b

def negative (a : Option Int) : Option Int := a.map (-·)

def negation (a : Option Int) : Option Int := a.map fun n ↦ (n == 0).toInt

/-- A truth value that is true; the null is not. -/
def IsTrue : Option Int → Prop
  | none => False
  | some n => n ≠ 0

instance : (a : Option Int) → Decidable (IsTrue a)
  | none => inferInstanceAs (Decidable False)
  | some n => inferInstanceAs (Decidable (n ≠ 0))

/-- False if an operand is, else null if an operand is, else true. -/
def conjunction (xs : List (Option Int)) : Option Int :=
  if some 0 ∈ xs then some 0 else if none ∈ xs then none else some 1

/-- True if an operand is, else null if an operand is, else false. -/
def disjunction (xs : List (Option Int)) : Option Int :=
  if ∃ x ∈ xs, IsTrue x then some 1 else if none ∈ xs then none else some 0

def between (v lo hi : Option Int) : Option Int := conjunction [compare .ge v lo, compare .le v hi]

/-- A value is equal to one of others. -/
def among (v : Option Int) (xs : List (Option Int)) : Option Int := disjunction (xs.map (compare .eq v))

def isNull (v : Option Int) : Option Int := some v.isNone.toInt

/-- The first value that is not null. -/
def coalesce (xs : List (Option Int)) : Option Int := xs.findSome? id

/-- The result of the first case whose condition is true. -/
def cases (default : Option Int) : List (Option Int × Option Int) → Option Int
  | [] => default
  | (c, x) :: rest => if IsTrue c then x else cases default rest

/-- An operator of two operands. -/
def binary (f : Option Int → Option Int → Option Int) : List (Option Int) → Option Int
  | [a, b] => f a b
  | _ => none

/-- An operator of one operand. -/
def unary (f : Option Int → Option Int) : List (Option Int) → Option Int
  | [a] => f a
  | _ => none

def operate (name : String) (xs : List (Option Int)) : Option Int :=
  match name with
  | "gt" => binary (compare .gt) xs
  | "gte" => binary (compare .ge) xs
  | "lt" => binary (compare .lt) xs
  | "lte" => binary (compare .le) xs
  | "eq" => binary (compare .eq) xs
  | "neq" => binary (compare .ne) xs
  | "add" => binary (compute .add) xs
  | "sub" => binary (compute .sub) xs
  | "mul" => binary (compute .mul) xs
  | "div" => binary (compute .div) xs
  | "neg" => unary negative xs
  | "not" => unary negation xs
  | "and" => conjunction xs
  | "or" => disjunction xs
  | _ => none

end Sql

theorem Term.isPlain_of_kind {t : Term} {k : Option Kind} (h : t.kind = .ok k) : t.isPlain = false := by
  cases t with
  | plain v => cases h
  | _ => rfl

/-! ## What is read -/

namespace Interpretation

variable (I : Interpretation)

/-- What a reading stands for: nothing if it is null, else its value. -/
def read (r : Reading) : Option Int := if I.Holds r.2 then none else some (I.eval r.1)

/-- A reading is a term with a truth value for its null, and stands for a value. -/
structure Reads (r : Reading) (x : Option Int) : Prop where
  term : r.1.isPlain = false
  null : r.2.kind = .ok (some .truth)
  read : I.read r = x

variable {I}

theorem read_eq_none_iff {r : Reading} : I.read r = none ↔ I.Holds r.2 := by
  rw [Interpretation.read]
  split <;> simp [*]

theorem read_eq_some_iff {r : Reading} {n : Int} : I.read r = some n ↔ ¬ I.Holds r.2 ∧ I.eval r.1 = n := by
  rw [Interpretation.read]
  split <;> simp [*]

theorem isTrue_read {r : Reading} : Sql.IsTrue (I.read r) ↔ ¬ I.Holds r.2 ∧ I.Holds r.1 := by
  by_cases h : I.Holds r.2
  · rw [read_eq_none_iff.2 h]
    exact iff_of_false id fun hr ↦ hr.1 h
  · rw [read_eq_some_iff.2 ⟨h, rfl⟩]
    exact (and_iff_right h).symm

theorem read_certain (t : Term) : I.read (certain t) = some (I.eval t) :=
  read_eq_some_iff.2 ⟨I.not_holds_bot, rfl⟩

theorem read_ite (c : Term) (a b : Reading) :
    I.read (.ite c a.1 b.1, .ite c a.2 b.2) = if I.Holds c then I.read a else I.read b := by
  by_cases h : I.Holds c <;> simp [Interpretation.read, h]

theorem read_missing : I.read missing = none := read_eq_none_iff.2 I.holds_top

theorem Reads.certain {t : Term} {x : Option Int} (ht : t.isPlain = false) (h : some (I.eval t) = x) :
    I.Reads (certain t) x :=
  ⟨ht, rfl, (read_certain t).trans h⟩

theorem Reads.missing : I.Reads missing none := ⟨rfl, rfl, read_missing⟩

/-! ## Sorts -/

private theorem toInt_eq_zero_or_one (b : Bool) : b.toInt = 0 ∨ b.toInt = 1 := by cases b <;> decide

theorem eval_of_truth : (t : Term) → t.kind = .ok (some .truth) → I.eval t = 0 ∨ I.eval t = 1
  | .null .., _ | .grouping .., _ | .deleted .., _ | .and _, _ | .or _, _ | .xor .., _ | .not _, _
  | .implies .., _ | .cmp .., _ | .bool _, _ => toInt_eq_zero_or_one _
  | .ite c a b, h => by
    obtain ⟨k, ha, h⟩ := bind_ok_iff.1 h
    obtain ⟨k', hb, h⟩ := bind_ok_iff.1 h
    split at h
    · obtain rfl := pure_ok_iff.1 h
      subst k'
      rw [eval_ite]
      split
      · exact eval_of_truth a ha
      · exact eval_of_truth b hb
    · cases h

theorem eval_eq_ite_of_truth {t : Term} (h : t.kind = .ok (some .truth)) : I.eval t = if I.Holds t then 1 else 0 := by
  rcases eval_of_truth (I := I) t h with h | h <;> simp [Holds, h]

theorem eval_eq_toInt {t : Term} {b : Bool} (hk : t.kind = .ok (some .truth)) (h : I.Holds t ↔ b = true) :
    I.eval t = b.toInt := by
  rw [eval_eq_ite_of_truth hk]
  cases b <;> simp [h]

theorem eval_ensureNumber {t u : Term} (h : t.ensureNumber = .ok u) : I.eval u = I.eval t ∧ u.isPlain = false := by
  obtain ⟨k, hk, h⟩ := bind_ok_iff.1 h
  have ht := isPlain_of_kind hk
  split at h
  · obtain rfl := pure_ok_iff.1 h
    subst k
    exact ⟨by rw [eval_indicator, eval_eq_ite_of_truth hk], rfl⟩
  · obtain rfl := pure_ok_iff.1 h
    exact ⟨rfl, ht⟩

theorem holds_ensureTruth {t u : Term} (h : t.ensureTruth = .ok u) : (I.Holds u ↔ I.Holds t) ∧ u.isPlain = false := by
  obtain ⟨k, hk, h⟩ := bind_ok_iff.1 h
  have ht := isPlain_of_kind hk
  split at h
  · obtain rfl := pure_ok_iff.1 h
    exact ⟨by rw [holds_ne, eval_zero, Holds], rfl⟩
  · obtain rfl := pure_ok_iff.1 h
    exact ⟨Iff.rfl, ht⟩

end Interpretation

namespace Term

variable {a b c : Term}

theorem compare_term {op : Comparison} (ha : a.isPlain = false) (h : compare op a b = .ok c) : c = .cmp op a b := by
  unfold compare at h
  split at h
  · cases ha
  · unfold comparison at h
    split at h <;> cases h
    rfl

theorem compute_term {op : Arith} (ha : a.isPlain = false) (h : compute op a b = .ok c) : c = .arith op a b := by
  unfold compute at h
  split at h
  · cases ha
  · cases ha
  · cases h
    rfl

theorem negate_term (ha : a.isPlain = false) (h : a.negate = .ok c) : c = .neg a := by
  unfold negate at h
  split at h
  · cases ha
  · cases h
    rfl

end Term

/-! ## The operators on readings -/

namespace Interpretation

variable {I : Interpretation} {a b c r : Reading} {x y z : Option Int} {args : List Reading}
  {xs : List (Option Int)}

theorem holds_anyNull (hne : args ≠ [] ∨ I.emptyOr = false) : I.Holds (anyNull args) ↔ none ∈ args.map I.read := by
  rw [anyNull, holds_or, mem_map]
  simp only [mem_map, exists_exists_and_eq_and, read_eq_none_iff, map_eq_nil_iff]
  rw [or_iff_left]
  rintro ⟨rfl, hor⟩
  simp [hor] at hne

theorem Reads.compare {op : Comparison} (h : Forall₂ I.Reads args xs)
    (hr : compare op args = .ok r) : I.Reads r (Sql.binary (Sql.compare op) xs) := by
  obtain ⟨vals, hvals, hr⟩ := bind_ok_iff.1 hr
  split at hr
  · obtain _ | @⟨a, _, _, _, hu, _ | @⟨b, _, _, _, hv, _ | _⟩⟩ := mapM_ok hvals
    obtain _ | ⟨⟨-, -, rfl⟩, _ | ⟨⟨-, -, rfl⟩, _ | _⟩⟩ := h
    have hu := eval_ensureNumber (I := I) hu
    have hv := eval_ensureNumber (I := I) hv
    obtain ⟨t, ht, hr⟩ := bind_ok_iff.1 hr
    obtain rfl := pure_ok_iff.1 hr
    obtain rfl := compare_term hu.2 ht
    refine ⟨rfl, rfl, ?_⟩
    by_cases hna : I.Holds a.2 <;> by_cases hnb : I.Holds b.2 <;>
      simp [Interpretation.read, Sql.binary, Sql.compare, anyNull, eval_cmp, *]
  · cases hr

theorem Reads.compute {op : Arith} (h : Forall₂ I.Reads args xs)
    (hr : compute op args = .ok r) : I.Reads r (Sql.binary (Sql.compute op) xs) := by
  unfold Reading.compute at hr
  split at hr
  · rename_i a b
    obtain _ | ⟨⟨ha, -, rfl⟩, _ | ⟨⟨hb, -, rfl⟩, _ | _⟩⟩ := h
    obtain ⟨t, ht, hr⟩ := bind_ok_iff.1 hr
    obtain rfl := compute_term ha ht
    cases op with
    | div =>
      obtain ⟨z, hz, hr⟩ := bind_ok_iff.1 hr
      obtain rfl := pure_ok_iff.1 hr
      obtain rfl := compare_term hb hz
      refine ⟨rfl, rfl, ?_⟩
      by_cases hna : I.Holds a.2 <;> by_cases hnb : I.Holds b.2 <;> by_cases hzero : I.eval b.1 = 0 <;>
        simp [Interpretation.read, Sql.binary, Sql.compute, anyNull, holds_cmp, holds, calculate, *]
    | add | sub | mul =>
      obtain rfl := pure_ok_iff.1 hr
      refine ⟨rfl, rfl, ?_⟩
      by_cases hna : I.Holds a.2 <;> by_cases hnb : I.Holds b.2 <;>
        simp [Interpretation.read, Sql.binary, Sql.compute, anyNull, calculate, *]
  · cases hr

theorem Reads.negative (h : Forall₂ I.Reads args xs) (hr : negative args = .ok r) :
    I.Reads r (Sql.unary Sql.negative xs) := by
  unfold Reading.negative at hr
  split at hr
  · rename_i a
    obtain _ | ⟨⟨ha, -, rfl⟩, _ | _⟩ := h
    obtain ⟨t, ht, hr⟩ := bind_ok_iff.1 hr
    obtain rfl := pure_ok_iff.1 hr
    obtain rfl := negate_term ha ht
    refine ⟨rfl, rfl, ?_⟩
    by_cases hna : I.Holds a.2 <;>
      simp [Interpretation.read, Sql.unary, Sql.negative, anyNull, hna]
  · cases hr

theorem eval_not (t : Term) : I.eval (.not t) = (I.eval t == 0).toInt := rfl

theorem Reads.negation (h : Forall₂ I.Reads args xs) (hr : negation args = .ok r) :
    I.Reads r (Sql.unary Sql.negation xs) := by
  unfold Reading.negation at hr
  split at hr
  · rename_i a
    obtain _ | ⟨⟨-, -, rfl⟩, _ | _⟩ := h
    cases hr
    refine ⟨rfl, rfl, ?_⟩
    by_cases hna : I.Holds a.2 <;>
      simp [Interpretation.read, Sql.unary, Sql.negation, anyNull, eval_not, hna]
  · cases hr

theorem map_read_of_reads (h : Forall₂ I.Reads args xs) : args.map I.read = xs := by
  induction h with
  | nil => rfl
  | cons ha _ ih => rw [map_cons, ha.read, ih]

/-! A connective is null if an operand is and none of the others decides it. The operands are made truth
values first, which changes none of them. -/

section Connectives

variable {vals : List Term} (h : List.Forall₂ (fun a v ↦ a.1.ensureTruth = .ok v) args vals)
include h

private theorem forall_vals_iff {p : Prop → Prop} : (∀ v ∈ vals, p (I.Holds v)) ↔ ∀ a ∈ args, p (I.Holds a.1) := by
  induction h with
  | nil => simp
  | cons hv _ ih => rw [forall_mem_cons, forall_mem_cons, ih, (holds_ensureTruth hv).1]

private theorem forall_open_iff {f : Reading → Term → Term} {p : Reading → Prop}
    (hf : ∀ a v, a.1.ensureTruth = .ok v → (I.Holds (f a v) ↔ p a)) :
    I.Holds (.and ((vals.zip args).map fun (v, a) ↦ f a v)) ↔ ∀ a ∈ args, p a := by
  rw [holds_and, forall_mem_map]
  induction h with
  | nil => simp
  | cons hv _ ih => rw [zip_cons_cons, forall_mem_cons, forall_mem_cons, ih, hf _ _ hv]

end Connectives

theorem Reads.conjunction (h : Forall₂ I.Reads args xs) (hne : args ≠ [] ∨ I.emptyOr = false)
    (hr : conjunction args = .ok r) : I.Reads r (Sql.conjunction xs) := by
  obtain ⟨vals, hvals, hr⟩ := bind_ok_iff.1 hr
  obtain rfl := map_read_of_reads h
  have hvals := mapM_ok hvals
  have hfalse : some 0 ∉ args.map I.read ↔ ∀ a ∈ args, ¬ I.Holds a.2 → I.Holds a.1 := by
    simp [read_eq_some_iff, Holds]
  have hnull : I.Holds r.2 ↔ none ∈ args.map I.read ∧ some 0 ∉ args.map I.read := by
    obtain rfl := pure_ok_iff.1 hr
    rw [holds_and₂, holds_anyNull hne, hfalse]
    refine and_congr_right' (forall_open_iff hvals (f := fun a v ↦ .implies (.not a.2) v) fun a v hv ↦ ?_)
    rw [holds_implies, holds_not, (holds_ensureTruth hv).1]
  have hval : I.eval r.1 = if ∀ a ∈ args, I.Holds a.1 then 1 else 0 := by
    obtain rfl := pure_ok_iff.1 hr
    rw [eval_eq_ite_of_truth rfl]
    exact if_congr ((I.holds_and vals).trans (forall_vals_iff hvals (p := id))) rfl rfl
  refine ⟨?_, ?_, ?_⟩
  · obtain rfl := pure_ok_iff.1 hr
    rfl
  · obtain rfl := pure_ok_iff.1 hr
    rfl
  rw [Sql.conjunction]
  by_cases hzero : some 0 ∈ args.map I.read
  · rw [if_pos hzero, read_eq_some_iff, hnull, hval, if_neg]
    · exact ⟨fun hn ↦ hn.2 hzero, rfl⟩
    · exact fun hall ↦ hfalse.2 (fun a ha _ ↦ hall a ha) hzero
  by_cases hnone : none ∈ args.map I.read
  · rw [if_neg hzero, if_pos hnone, read_eq_none_iff, hnull]
    exact ⟨hnone, hzero⟩
  · rw [if_neg hzero, if_neg hnone, read_eq_some_iff, hnull, hval, if_pos]
    · exact ⟨fun hn ↦ hnone hn.1, rfl⟩
    · intro a ha
      refine hfalse.1 hzero a ha fun hn ↦ hnone ?_
      exact mem_map.2 ⟨a, ha, read_eq_none_iff.2 hn⟩

/-- A reading that is true if an operand is, and null if none is and an operand is null. -/
theorem read_eq_disjunction (hk : r.1.kind = .ok (some .truth))
    (hnull : I.Holds r.2 ↔ none ∈ xs ∧ ¬ ∃ x ∈ xs, Sql.IsTrue x) (htrue : (∃ x ∈ xs, Sql.IsTrue x) → I.Holds r.1)
    (hfalse : none ∉ xs → (¬ ∃ x ∈ xs, Sql.IsTrue x) → ¬ I.Holds r.1) : I.read r = Sql.disjunction xs := by
  rw [Sql.disjunction]
  by_cases hone : ∃ x ∈ xs, Sql.IsTrue x
  · rw [if_pos hone, read_eq_some_iff, hnull, eval_eq_ite_of_truth hk, if_pos (htrue hone)]
    exact ⟨fun hn ↦ hn.2 hone, rfl⟩
  rw [if_neg hone]
  by_cases hnone : none ∈ xs
  · rw [if_pos hnone, read_eq_none_iff, hnull]
    exact ⟨hnone, hone⟩
  · rw [if_neg hnone, read_eq_some_iff, hnull, eval_eq_ite_of_truth hk, if_neg (hfalse hnone hone)]
    exact ⟨fun hn ↦ hnone hn.1, rfl⟩

theorem Reads.disjunction (h : Forall₂ I.Reads args xs) (hne : args ≠ [] ∨ I.emptyOr = false)
    (hr : disjunction args = .ok r) : I.Reads r (Sql.disjunction xs) := by
  obtain ⟨vals, hvals, hr⟩ := bind_ok_iff.1 hr
  obtain rfl := pure_ok_iff.1 hr
  obtain rfl := map_read_of_reads h
  have hvals := mapM_ok hvals
  have htrue : (∃ x ∈ args.map I.read, Sql.IsTrue x) ↔ ¬ ∀ a ∈ args, ¬ I.Holds a.2 → ¬ I.Holds a.1 := by
    simp only [mem_map, exists_exists_and_eq_and, isTrue_read]
    push Not
    rfl
  have hval : ¬ I.Holds (.or vals) ↔ ∀ a ∈ args, ¬ I.Holds a.1 := by
    rw [holds_or, ← forall_vals_iff hvals (p := Not)]
    push Not
    refine and_iff_left ?_
    rintro rfl
    cases hvals
    simpa using hne
  refine ⟨rfl, rfl, read_eq_disjunction rfl ?_ (fun hone ↦ ?_) fun hnone hone ↦ hval.2 fun a ha ↦ ?_⟩
  · rw [holds_and₂, holds_anyNull hne, htrue, not_not]
    refine and_congr_right' (forall_open_iff hvals (f := fun a v ↦ .implies (.not a.2) (.not v)) fun a v hv ↦ ?_)
    rw [holds_implies, holds_not, holds_not, (holds_ensureTruth hv).1]
  · by_contra hor
    exact htrue.1 hone fun a ha _ ↦ hval.1 hor a ha
  · refine not_not.1 (hone ∘ htrue.2) a ha fun hn ↦ hnone ?_
    exact mem_map.2 ⟨a, ha, read_eq_none_iff.2 hn⟩

theorem Reads.operate {name : String} (h : Forall₂ I.Reads args xs)
    (hne : args ≠ [] ∨ I.emptyOr = false) (hr : operate name args = .ok r) : I.Reads r (Sql.operate name xs) := by
  unfold Reading.operate at hr
  split at hr
  case h_1 | h_2 | h_3 | h_4 | h_5 | h_6 => exact Reads.compare h hr
  case h_7 | h_8 | h_9 | h_10 => exact Reads.compute h hr
  case h_11 => exact Reads.negative h hr
  case h_12 => exact Reads.negation h hr
  case h_13 => exact Reads.conjunction h hne hr
  case h_14 => exact Reads.disjunction h hne hr
  case h_15 => cases hr

/-! ## Ranges, membership and choices -/

private theorem holds_lt (m n : Int) : Comparison.holds .lt m n = !Comparison.holds .ge m n := by
  simp [holds, ← decide_not]

private theorem holds_gt (m n : Int) : Comparison.holds .gt m n = !Comparison.holds .le m n := by
  simp [holds, ← decide_not]

/-- A range test is null if neither bound decides it; else it is decided by the values, whichever of the bounds is
null. -/
private theorem reads_range {u null : Term} (ha : I.Reads a x) (hb : I.Reads b y) (hc : I.Reads c z)
    (h : rangeNull a b c = .ok null) (hu : u.kind = .ok (some .truth)) {f : Int → Int}
    (hval : I.eval u = f (Comparison.holds .ge (I.eval a.1) (I.eval b.1) &&
      Comparison.holds .le (I.eval a.1) (I.eval c.1)).toInt) : I.Reads (u, null) ((Sql.between x y z).map f) := by
  obtain ⟨above, habove, h⟩ := bind_ok_iff.1 h
  obtain ⟨below, hbelow, h⟩ := bind_ok_iff.1 h
  obtain rfl := pure_ok_iff.1 h
  obtain rfl := compare_term ha.term habove
  obtain rfl := compare_term ha.term hbelow
  obtain ⟨-, -, rfl⟩ := ha
  obtain ⟨-, -, rfl⟩ := hb
  obtain ⟨-, -, rfl⟩ := hc
  refine ⟨isPlain_of_kind hu, rfl, ?_⟩
  by_cases hna : I.Holds a.2 <;> by_cases hnb : I.Holds b.2 <;> by_cases hnc : I.Holds c.2 <;>
    cases hlo : holds .ge (I.eval a.1) (I.eval b.1) <;>
    cases hhi : holds .le (I.eval a.1) (I.eval c.1) <;>
    simp [Interpretation.read, Sql.between, Sql.compare, Sql.conjunction, holds_cmp, holds_lt, holds_gt,
      hna, hnb, hnc, hlo, hhi, hval]

theorem Reads.between (ha : I.Reads a x) (hb : I.Reads b y) (hc : I.Reads c z)
    (h : between a b c = .ok r) : I.Reads r (Sql.between x y z) := by
  simp only [Reading.between, bind_ok_iff, pure_ok_iff] at h
  obtain ⟨_, hlo, _, hhi, null, hnull, rfl⟩ := h
  obtain rfl := compare_term ha.term hlo
  obtain rfl := compare_term ha.term hhi
  simpa using reads_range ha hb hc hnull rfl (f := id) (eval_eq_toInt rfl (by simp [holds_cmp]))

theorem Reads.notBetween (ha : I.Reads a x) (hb : I.Reads b y) (hc : I.Reads c z)
    (h : notBetween a b c = .ok r) : I.Reads r (Sql.negation (Sql.between x y z)) := by
  simp only [Reading.notBetween, bind_ok_iff, pure_ok_iff] at h
  obtain ⟨_, hlo, _, hhi, null, hnull, rfl⟩ := h
  obtain rfl := compare_term ha.term hlo
  obtain rfl := compare_term ha.term hhi
  refine reads_range ha hb hc hnull rfl (eval_eq_toInt rfl ?_)
  cases hlo : holds .ge (I.eval a.1) (I.eval b.1) <;>
    cases hhi : holds .le (I.eval a.1) (I.eval c.1) <;>
    simp [holds_cmp, holds_lt, holds_gt, hlo, hhi]

private theorem holds_matchesOne {t : Term} (ha : a.1.isPlain = false) (h : matchesOne a b = .ok t) :
    I.Holds t ↔ Sql.IsTrue (Sql.compare .eq (I.read a) (I.read b)) := by
  obtain ⟨same, hsame, h⟩ := bind_ok_iff.1 h
  obtain rfl := pure_ok_iff.1 h
  obtain rfl := compare_term ha hsame
  by_cases hna : I.Holds a.2 <;> by_cases hnb : I.Holds b.2 <;>
    simp [Interpretation.read, Sql.compare, Sql.IsTrue, holds_cmp, hna, hnb, -ne_eq, toInt_ne_zero]

/-- A membership test is true if a member is equal, and null if none is but a member or the value is. -/
private theorem read_membership {ts : List Term} (ha : a.1.isPlain = false) (hne : args ≠ [])
    (hts : args.mapM (matchesOne a) = .ok ts) :
    I.read (.or ts, memberNull a (.or ts) args) = Sql.among (I.read a) (args.map I.read) := by
  have htrue : I.Holds (.or ts) ↔
      ∃ x ∈ (args.map I.read).map (Sql.compare .eq (I.read a)), Sql.IsTrue x := by
    have hne : ts ≠ [] := fun h ↦ hne (by simpa [h] using (mapM_ok hts).length_eq)
    simp only [holds_or, hne, false_and, or_false, mem_map, exists_exists_and_eq_and]
    constructor
    · rintro ⟨t, ht, hholds⟩
      obtain ⟨b, hb, hbt⟩ := (mem_mapM hts).2 _ ht
      exact ⟨b, hb, (holds_matchesOne ha hbt).1 hholds⟩
    · rintro ⟨b, hb, htrue⟩
      obtain ⟨t, ht, hbt⟩ := (mem_mapM hts).1 _ hb
      exact ⟨t, ht, (holds_matchesOne ha hbt).2 htrue⟩
  have hnone : none ∈ (args.map I.read).map (Sql.compare .eq (I.read a)) ↔
      I.Holds a.2 ∨ I.Holds (anyNull args) := by
    rw [holds_anyNull (.inl hne), ← read_eq_none_iff (r := a), mem_map]
    cases I.read a with
    | none =>
      obtain ⟨b, hb⟩ := exists_mem_of_ne_nil args hne
      exact iff_of_true ⟨I.read b, mem_map_of_mem hb, rfl⟩ (.inl rfl)
    | some n =>
      have h (x : Option Int) : Sql.compare .eq (some n) x = none ↔ x = none := by
        cases x <;> simp [Sql.compare]
      simp only [h, exists_eq_right, reduceCtorEq, false_or]
  have hnull : I.Holds a.2 → ¬ I.Holds (.or ts) := by
    intro hna
    rw [htrue, read_eq_none_iff.2 hna]
    rintro ⟨x, hx, hone⟩
    obtain ⟨y, -, rfl⟩ := mem_map.1 hx
    exact hone
  refine read_eq_disjunction rfl ?_ htrue.2 fun _ hone ↦ hone ∘ htrue.1
  rw [hnone, ← htrue]
  by_cases hna : I.Holds a.2
  · simp [memberNull, hna, hnull hna]
  · rw [and_comm]
    simp [memberNull, hna]

theorem Reads.among (ha : I.Reads a x) (h : Forall₂ I.Reads args xs) (hne : args ≠ [])
    (hr : among a args = .ok r) : I.Reads r (Sql.among x xs) := by
  obtain ⟨ts, hts, hr⟩ := bind_ok_iff.1 hr
  obtain rfl := pure_ok_iff.1 hr
  obtain rfl := map_read_of_reads h
  obtain ⟨ha, -, rfl⟩ := ha
  exact ⟨rfl, rfl, read_membership ha hne hts⟩

/-- The first of two readings that is not null. -/
theorem Reads.orNext (ha : I.Reads a x) (hb : I.Reads b y) : I.Reads (orNext a b) (x.or y) := by
  obtain ⟨-, -, rfl⟩ := ha
  obtain ⟨-, -, rfl⟩ := hb
  refine ⟨rfl, rfl, ?_⟩
  by_cases hna : I.Holds a.2 <;> by_cases hnb : I.Holds b.2 <;>
    simp [Interpretation.read, orNext, hna, hnb]

theorem Reads.orElse (ha : I.Reads a x) (hb : I.Reads b y) (hc : I.Reads c z) :
    I.Reads (orElse a b c) (if Sql.IsTrue x then y else z) := by
  obtain ⟨-, -, rfl⟩ := ha
  obtain ⟨-, hb, rfl⟩ := hb
  obtain ⟨-, hc, rfl⟩ := hc
  refine ⟨rfl, ?_, (read_ite _ b c).trans (if_congr ?_ rfl rfl)⟩
  · simp [orElse, kind, hb, hc, bind, Except.bind, pure, Except.pure]
  · simp [isTrue_read]

end Interpretation

end QueryEquiv
