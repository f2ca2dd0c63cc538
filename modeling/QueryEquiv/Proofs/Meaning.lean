import Mathlib
import QueryEquiv.Formulas

/-!
# The meaning of terms

A term is read in an interpretation of the unknowns. Everything is a number here: a truth value is one
or zero, and a number stands for a truth if it is not zero. So one evaluator does for both sorts, and a
term that mixes them still has a meaning.

Two things are left open by the terms themselves, and are kept apart from the unknowns as conventions:
which number a constant counts as that is no integer, and whether a disjunction of nothing holds. Logic
says that it does not, while the script of a solver writes it as truth.
-/

namespace QueryEquiv

open Term

/-- What the unknowns do not settle. -/
structure Conventions where
  /-- The number that a constant counts as which is no integer. -/
  constant : Value → Int
  /-- Whether a disjunction of nothing holds. -/
  emptyOr : Bool

/-- An interpretation of the unknowns. -/
structure Interpretation extends Conventions where
  cell : Int → Int → Int → Int
  null : Int → Int → Int → Bool
  grouping : Int → Int → Int → Bool
  deleted : Int → Int → Bool
  belongs : Int → Int → Bool
  size : Int → Int
  choice : Int → Int → Int
  /-- What a number divided by zero is. -/
  overZero : Int → Int

/-- The interpretation in which everything is zero. -/
def Interpretation.zero (conv : Conventions) : Interpretation where
  toConventions := conv
  cell _ _ _ := 0
  null _ _ _ := false
  grouping _ _ _ := false
  deleted _ _ := false
  belongs _ _ := false
  size _ := 0
  choice _ _ := 0
  overZero _ := 0

/-- Whether two numbers compare as asked. -/
def Comparison.holds : Comparison → Int → Int → Bool
  | .gt, a, b => b < a
  | .ge, a, b => b ≤ a
  | .lt, a, b => a < b
  | .le, a, b => a ≤ b
  | .eq, a, b => a == b
  | .ne, a, b => a != b

namespace Interpretation

variable (I : Interpretation)

/-- The result of a computation; a quotient is rounded as the solver does, and division by zero is
whatever the interpretation says. -/
def calculate : Arith → Int → Int → Int
  | .add, a, b => a + b
  | .sub, a, b => a - b
  | .mul, a, b => a * b
  | .div, a, b => if b = 0 then I.overZero a else a / b

mutual

/-- The number that a term stands for. -/
def eval : Term → Int
  | .cell t r c => I.cell t r c
  | .null t r c => (I.null t r c).toInt
  | .grouping t r g => (I.grouping t r g).toInt
  | .deleted t r => (I.deleted t r).toInt
  | .belongs q g => (I.belongs q g).toInt
  | .size t => I.size t
  | .choice t b => I.choice t b
  | .and ts => ((evals ts).all (· != 0)).toInt
  | .or ts => ((evals ts).any (· != 0) || (ts.isEmpty && I.emptyOr)).toInt
  | .xor a b => ((eval a != 0) != (eval b != 0)).toInt
  | .not a => (eval a == 0).toInt
  | .implies a b => (eval a == 0 || eval b != 0).toInt
  | .ite c a b => if eval c = 0 then eval b else eval a
  | .cmp op a b => (op.holds (eval a) (eval b)).toInt
  | .arith op a b => I.calculate op (eval a) (eval b)
  | .neg a => -eval a
  | .int v => v.integer?.getD (I.constant v)
  | .bool v => v.truthy.toInt
  | .plain v => I.constant v

def evals : List Term → List Int
  | [] => []
  | t :: ts => eval t :: evals ts

end

/-- A term is true. -/
def Holds (t : Term) : Prop := I.eval t ≠ 0

instance (t : Term) : Decidable (I.Holds t) := inferInstanceAs (Decidable (_ ≠ _))

theorem evals_eq_map (ts : List Term) : I.evals ts = ts.map I.eval := by
  induction ts with
  | nil => rfl
  | cons t ts ih => exact congrArg (I.eval t :: ·) ih

theorem toInt_ne_zero (b : Bool) : b.toInt ≠ 0 ↔ b = true := by cases b <;> decide

/-! ## The parts of a term -/

@[simp] theorem eval_cell (t r c : Int) : I.eval (.cell t r c) = I.cell t r c := rfl

@[simp] theorem eval_null (t r c : Int) : I.eval (.null t r c) = (I.null t r c).toInt := rfl

@[simp] theorem eval_choice (t b : Int) : I.eval (.choice t b) = I.choice t b := rfl

@[simp] theorem eval_arith (op : Arith) (a b : Term) :
    I.eval (.arith op a b) = I.calculate op (I.eval a) (I.eval b) := rfl

@[simp] theorem eval_neg (a : Term) : I.eval (.neg a) = -I.eval a := rfl

@[simp] theorem eval_int (n : Int) : I.eval (.int (.int n)) = n := rfl

@[simp] theorem eval_nat (n : Nat) : I.eval (.nat n) = n := rfl

@[simp] theorem eval_ofInt (n : Int) : I.eval (.ofInt n) = n := rfl

@[simp] theorem eval_zero : I.eval .zero = 0 := rfl

@[simp] theorem eval_one : I.eval .one = 1 := rfl

theorem eval_cmp (op : Comparison) (a b : Term) : I.eval (.cmp op a b) = (op.holds (I.eval a) (I.eval b)).toInt := rfl

/-! ## Connectives -/

@[simp] theorem holds_and (ts : List Term) : I.Holds (.and ts) ↔ ∀ t ∈ ts, I.Holds t := by
  change ((I.evals ts).all (· != 0)).toInt ≠ 0 ↔ _
  simp [Holds, evals_eq_map, toInt_ne_zero]

theorem holds_or (ts : List Term) : I.Holds (.or ts) ↔ (∃ t ∈ ts, I.Holds t) ∨ (ts = [] ∧ I.emptyOr = true) := by
  change ((I.evals ts).any (· != 0) || (ts.isEmpty && I.emptyOr)).toInt ≠ 0 ↔ _
  simp [Holds, evals_eq_map, toInt_ne_zero]

@[simp] theorem holds_or_cons (t : Term) (ts : List Term) : I.Holds (.or (t :: ts)) ↔ ∃ u ∈ t :: ts, I.Holds u := by
  simp [holds_or]

theorem holds_and₂ (a b : Term) : I.Holds (.and [a, b]) ↔ I.Holds a ∧ I.Holds b := by simp

theorem holds_or₂ (a b : Term) : I.Holds (.or [a, b]) ↔ I.Holds a ∨ I.Holds b := by simp

@[simp] theorem holds_not (t : Term) : I.Holds (.not t) ↔ ¬ I.Holds t := by
  change (I.eval t == 0).toInt ≠ 0 ↔ _
  simp [Holds, toInt_ne_zero]

@[simp] theorem holds_implies (a b : Term) : I.Holds (.implies a b) ↔ (I.Holds a → I.Holds b) := by
  change (I.eval a == 0 || I.eval b != 0).toInt ≠ 0 ↔ _
  simp only [Holds, toInt_ne_zero, Bool.or_eq_true, beq_iff_eq, bne_iff_ne]
  tauto

@[simp] theorem eval_ite (c a b : Term) : I.eval (.ite c a b) = if I.Holds c then I.eval a else I.eval b := by
  change (if I.eval c = 0 then I.eval b else I.eval a) = _
  by_cases h : I.eval c = 0 <;> simp [Holds, h]

@[simp] theorem holds_ite (c a b : Term) : I.Holds (.ite c a b) ↔ if I.Holds c then I.Holds a else I.Holds b := by
  rw [Holds, eval_ite]
  split <;> rfl

@[simp] theorem holds_deleted (t r : Int) : I.Holds (.deleted t r) ↔ I.deleted t r = true :=
  toInt_ne_zero _

@[simp] theorem holds_null (t r c : Int) : I.Holds (.null t r c) ↔ I.null t r c = true :=
  toInt_ne_zero _

@[simp] theorem holds_grouping (t r g : Int) : I.Holds (.grouping t r g) ↔ I.grouping t r g = true :=
  toInt_ne_zero _

@[simp] theorem holds_belongs (q g : Int) : I.Holds (.belongs q g) ↔ I.belongs q g = true :=
  toInt_ne_zero _

@[simp] theorem holds_top : I.Holds .top := (toInt_ne_zero _).2 rfl

@[simp] theorem not_holds_bot : ¬ I.Holds .bot := fun h ↦ h rfl

/-! ## Numbers and comparisons -/

theorem holds_cmp (op : Comparison) (a b : Term) : I.Holds (.cmp op a b) ↔ op.holds (I.eval a) (I.eval b) = true := by
  rw [Holds, eval_cmp, toInt_ne_zero]

@[simp] theorem holds_eq (a b : Term) : I.Holds (.eq a b) ↔ I.eval a = I.eval b := by
  simp [eq, holds_cmp, Comparison.holds]

@[simp] theorem holds_ne (a b : Term) : I.Holds (.ne a b) ↔ I.eval a ≠ I.eval b := by
  simp [ne, holds_cmp, Comparison.holds]

@[simp] theorem holds_le (a b : Term) : I.Holds (.le a b) ↔ I.eval a ≤ I.eval b := by
  simp [le, holds_cmp, Comparison.holds]

@[simp] theorem holds_ge (a b : Term) : I.Holds (.ge a b) ↔ I.eval b ≤ I.eval a := by
  simp [ge, holds_cmp, Comparison.holds]

/-- A truth value as a number. -/
theorem eval_indicator (c : Term) : I.eval (.indicator c) = if I.Holds c then 1 else 0 := by
  simp [indicator]

private theorem eval_foldl_add (ts : List Term) (t : Term) :
    I.eval (ts.foldl (.arith .add) t) = I.eval t + (ts.map I.eval).sum := by
  induction ts generalizing t with
  | nil => simp
  | cons u us ih => simp [ih, calculate, add_assoc]

@[simp] theorem eval_sum (ts : List Term) : I.eval (.sum ts) = (ts.map I.eval).sum := by
  cases ts with
  | nil => simp [sum]
  | cons t ts => simp [sum, eval_foldl_add]

end Interpretation

/-! ## Leaves

What a term says depends on its leaves only, so an interpretation may be changed wherever no leaf of a
term looks. -/

namespace Term

mutual

/-- Every leaf of a term that is an unknown has a property. -/
def Leaves (p : Term → Prop) : Term → Prop
  | .and ts => LeavesAll p ts
  | .or ts => LeavesAll p ts
  | .xor a b => Leaves p a ∧ Leaves p b
  | .not a => Leaves p a
  | .implies a b => Leaves p a ∧ Leaves p b
  | .ite c a b => Leaves p c ∧ Leaves p a ∧ Leaves p b
  | .cmp _ a b => Leaves p a ∧ Leaves p b
  | .arith _ a b => Leaves p a ∧ Leaves p b
  | .neg a => Leaves p a
  | .int _ | .bool _ | .plain _ => True
  | t => p t

def LeavesAll (p : Term → Prop) : List Term → Prop
  | [] => True
  | t :: ts => Leaves p t ∧ LeavesAll p ts

end

variable {p q : Term → Prop}

theorem leavesAll_iff (ts : List Term) : LeavesAll p ts ↔ ∀ t ∈ ts, Leaves p t := by
  induction ts with
  | nil => exact iff_of_true trivial (by simp)
  | cons t ts ih =>
    rw [List.forall_mem_cons, ← ih]
    rfl

@[simp] theorem leaves_and (ts : List Term) : Leaves p (.and ts) ↔ ∀ t ∈ ts, Leaves p t :=
  leavesAll_iff ts

@[simp] theorem leaves_or (ts : List Term) : Leaves p (.or ts) ↔ ∀ t ∈ ts, Leaves p t :=
  leavesAll_iff ts

@[simp] theorem leaves_not (a : Term) : Leaves p (.not a) ↔ Leaves p a := Iff.rfl

@[simp] theorem leaves_ite (c a b : Term) : Leaves p (.ite c a b) ↔ Leaves p c ∧ Leaves p a ∧ Leaves p b := Iff.rfl

@[simp] theorem leaves_int (v : Value) : Leaves p (.int v) := trivial

private theorem leaves_foldl_add (ts : List Term) (t : Term) (h : Leaves p t)
    (hs : ∀ u ∈ ts, Leaves p u) : Leaves p (ts.foldl (.arith .add) t) := by
  induction ts generalizing t with
  | nil => exact h
  | cons u us ih =>
    rw [List.forall_mem_cons] at hs
    exact ih _ ⟨h, hs.1⟩ hs.2

theorem leaves_sum (ts : List Term) (h : ∀ t ∈ ts, Leaves p t) : Leaves p (.sum ts) := by
  cases ts with
  | nil => trivial
  | cons t ts =>
    rw [List.forall_mem_cons] at h
    exact leaves_foldl_add ts t h.1 h.2

mutual

theorem Leaves.imp (h : ∀ t, p t → q t) : (t : Term) → Leaves p t → Leaves q t
  | .and ts => LeavesAll.imp h ts
  | .or ts => LeavesAll.imp h ts
  | .xor a b => And.imp (Leaves.imp h a) (Leaves.imp h b)
  | .not a => Leaves.imp h a
  | .implies a b => And.imp (Leaves.imp h a) (Leaves.imp h b)
  | .ite c a b => And.imp (Leaves.imp h c) (And.imp (Leaves.imp h a) (Leaves.imp h b))
  | .cmp _ a b => And.imp (Leaves.imp h a) (Leaves.imp h b)
  | .arith _ a b => And.imp (Leaves.imp h a) (Leaves.imp h b)
  | .neg a => Leaves.imp h a
  | .int _ | .bool _ | .plain _ => id
  | .cell .. | .null .. | .grouping .. | .deleted .. | .belongs .. | .size _ | .choice .. => h _

theorem LeavesAll.imp (h : ∀ t, p t → q t) : (ts : List Term) → LeavesAll p ts → LeavesAll q ts
  | [] => id
  | t :: ts => And.imp (Leaves.imp h t) (LeavesAll.imp h ts)

end

def IsUnknown : Term → Prop
  | .cell .. | .null .. | .grouping .. | .deleted .. | .belongs .. | .size _ | .choice .. => True
  | _ => False

/-- Choices of other tables than those allowed do not occur. -/
def ChoosesIn (allowed : Int → Int → Prop) : Term → Prop :=
  Leaves fun
    | .choice t b => allowed t b
    | _ => True

end Term

namespace Interpretation

open Term (Leaves LeavesAll)

/-- Two interpretations agree wherever a property of leaves holds. -/
structure AgreeOn (p : Term → Prop) (I J : Interpretation) : Prop where
  conventions : I.toConventions = J.toConventions
  overZero : I.overZero = J.overZero
  leaf : ∀ t, t.IsUnknown → p t → I.eval t = J.eval t

variable {p : Term → Prop} {I J : Interpretation}

mutual

theorem AgreeOn.eval_eq (h : AgreeOn p I J) : (t : Term) → Leaves p t → I.eval t = J.eval t
  | .and ts, ht => congrArg (fun xs : List Int ↦ (xs.all (· != 0)).toInt) (h.evals_eq ts ht)
  | .or ts, ht => by
    change ((I.evals ts).any (· != 0) || (ts.isEmpty && I.emptyOr)).toInt =
      ((J.evals ts).any (· != 0) || (ts.isEmpty && J.emptyOr)).toInt
    rw [h.evals_eq ts ht, show I.emptyOr = J.emptyOr from congrArg (·.emptyOr) h.conventions]
  | .xor a b, ht => by
    change ((I.eval a != 0) != (I.eval b != 0)).toInt = ((J.eval a != 0) != (J.eval b != 0)).toInt
    rw [h.eval_eq a ht.1, h.eval_eq b ht.2]
  | .not a, ht => congrArg (fun x : Int ↦ (x == 0).toInt) (h.eval_eq a ht)
  | .implies a b, ht => by
    change (I.eval a == 0 || I.eval b != 0).toInt = (J.eval a == 0 || J.eval b != 0).toInt
    rw [h.eval_eq a ht.1, h.eval_eq b ht.2]
  | .ite c a b, ht => by
    change (if I.eval c = 0 then I.eval b else I.eval a) = if J.eval c = 0 then J.eval b else J.eval a
    rw [h.eval_eq c ht.1, h.eval_eq a ht.2.1, h.eval_eq b ht.2.2]
  | .cmp op a b, ht => by
    rw [eval_cmp, eval_cmp, h.eval_eq a ht.1, h.eval_eq b ht.2]
  | .arith op a b, ht => by
    rw [eval_arith, eval_arith, h.eval_eq a ht.1, h.eval_eq b ht.2]
    cases op with
    | div =>
      change (if _ then I.overZero _ else _) = if _ then J.overZero _ else _
      rw [h.overZero]
    | add | sub | mul => rfl
  | .neg a, ht => congrArg Neg.neg (h.eval_eq a ht)
  | .int v, _ => by
    change v.integer?.getD (I.constant v) = v.integer?.getD (J.constant v)
    rw [show I.constant = J.constant from congrArg (·.constant) h.conventions]
  | .bool _, _ => rfl
  | .plain v, _ => by
    change I.constant v = J.constant v
    rw [show I.constant = J.constant from congrArg (·.constant) h.conventions]
  | .cell .., ht | .null .., ht | .grouping .., ht | .deleted .., ht | .belongs .., ht
  | .size _, ht | .choice .., ht => h.leaf _ trivial ht

theorem AgreeOn.evals_eq (h : AgreeOn p I J) : (ts : List Term) → LeavesAll p ts →
    I.evals ts = J.evals ts
  | [], _ => rfl
  | t :: ts, ht => congrArg₂ List.cons (h.eval_eq t ht.1) (h.evals_eq ts ht.2)

end

theorem AgreeOn.holds_iff (h : AgreeOn p I J) {t : Term} (ht : Leaves p t) : I.Holds t ↔ J.Holds t := by
  rw [Holds, Holds, h.eval_eq t ht]

end Interpretation

end QueryEquiv
