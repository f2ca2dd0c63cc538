import QueryEquiv.Proofs.Meaning
import QueryEquiv.Proofs.Symbols
import QueryEquiv.Term.Sort

/-!
# Reading scripts back

A solver knows nothing of terms: it reads their texts. Here is what a text means to it, said without terms:
words are constants or numbers, a list applies the function that its first word names, and arguments of the
wrong number or sort have no meaning. Every term of a sort has a text, and the text means to a solver what
the term means (`readback_script`).
-/

namespace QueryEquiv

open Interpretation List Nat Sexp

variable {a b t : Term} {k : Kind} {ts : List Term}

/-- What an expression of either sort denotes. -/
inductive Datum where
  | number (n : Int)
  | truth (b : Bool)
  deriving DecidableEq

namespace Datum

def number? : Datum → Option Int
  | number n => some n
  | truth _ => none

def truth? : Datum → Option Bool
  | number _ => none
  | truth b => some b

def ofKind : Kind → Int → Datum
  | .number, n => number n
  | .truth, n => truth (n != 0)

end Datum

namespace Sexp

/-! ## What texts mean -/

/-- Digits, read in base ten. -/
def digits? (cs : List Char) : Option Nat :=
  if cs ≠ [] ∧ cs.all Char.isDigit then some (Nat.ofDigitChars 10 cs 0) else none

/-- A number; a sign before the digits belongs to it. -/
def numeral? : List Char → Option Int
  | '-' :: cs => (digits? cs).map fun (n : Nat) ↦ -(n : Int)
  | cs => (digits? cs).map fun (n : Nat) ↦ (n : Int)

def constant? (s : String) : Option Datum :=
  match s with
  | "true" => some (.truth true)
  | "false" => some (.truth false)
  | s => (numeral? s.toList).map .number

section Folds

variable {α : Type}

/-- An operation of two arguments for more of them, from the left. -/
def leftward (op : α → α → α) : List α → Option α
  | a :: b :: rest => some (rest.foldl op (op a b))
  | _ => none

/-- An operation of two arguments for more of them, from the right. -/
def rightward (op : α → α → α) (as : List α) : Option α := leftward (fun a b ↦ op b a) as.reverse

/-- A relation between each argument and the next. -/
def chained (r : α → α → Bool) : List α → Option Bool
  | a :: b :: rest => some ((List.zipWith r (a :: b :: rest) (b :: rest)).all id)
  | _ => none

end Folds

def connect (f : String) (bs : List Bool) : Option Bool :=
  match f, bs with
  | "not", [b] => some !b
  | "and", _ :: _ => some (bs.all id)
  | "or", _ :: _ => some (bs.any id)
  | "xor", _ => leftward (· != ·) bs
  | "=>", _ => rightward (fun a b ↦ !a || b) bs
  | _, _ => none

def order (f : String) (ns : List Int) : Option Bool :=
  match f with
  | ">" => chained (fun a b ↦ decide (b < a)) ns
  | ">=" => chained (fun a b ↦ decide (b ≤ a)) ns
  | "<" => chained (fun a b ↦ decide (a < b)) ns
  | "<=" => chained (fun a b ↦ decide (a ≤ b)) ns
  | _ => none

/-- Equality of arguments that all have one sort. -/
def equal (args : List Datum) : Option Bool :=
  if (args.all (·.number?.isSome)) || (args.all (·.truth?.isSome)) then chained (fun a b ↦ decide (a = b)) args
  else none

/-- One of two arguments of the same sort. -/
def choose : List Datum → Option Datum
  | [.truth c, .number a, .number b] => some (.number (if c then a else b))
  | [.truth c, .truth a, .truth b] => some (.truth (if c then a else b))
  | _ => none

section Interpreted

variable (I : Interpretation)

/-- The quotient and the remainder of `a` by `b` are those with a remainder from zero to below `|b|`; what
a number divided by zero is, the interpretation says. -/
def compute (f : String) (ns : List Int) : Option Int :=
  match f, ns with
  | "+", _ => leftward (· + ·) ns
  | "-", [n] => some (-n)
  | "-", _ => leftward (· - ·) ns
  | "*", _ => leftward (· * ·) ns
  | "div", _ => leftward (fun a b ↦ if b = 0 then I.overZero a else Int.ediv a b) ns
  | _, _ => none

/-- The functions that a script declares. -/
def declared (f : String) (ns : List Int) : Option Datum :=
  match f, ns with
  | "cell", [t, r, c] => some (.number (I.cell t r c))
  | "null", [t, r, c] => some (.truth (I.null t r c))
  | "grouping", [t, r, g] => some (.truth (I.grouping t r g))
  | "deleted", [t, r] => some (.truth (I.deleted t r))
  | "belongstogroup", [q, g] => some (.truth (I.belongs q g))
  | "size", [t] => some (.number (I.size t))
  | "choice", [t, b] => some (.number (I.choice t b))
  | _, _ => none

def apply (f : String) (args : List Datum) : Option Datum :=
  match f with
  | "ite" => choose args
  | "=" => (equal args).map .truth
  | "not" | "and" | "or" | "xor" | "=>" => do return .truth (← connect f (← args.mapM Datum.truth?))
  | ">" | ">=" | "<" | "<=" => do return .truth (← order f (← args.mapM Datum.number?))
  | "+" | "-" | "*" | "div" => do return .number (← compute I f (← args.mapM Datum.number?))
  | _ => do declared I f (← args.mapM Datum.number?)

mutual

/-- What an expression denotes, if anything. -/
def denote : Sexp → Option Datum
  | word s => constant? s
  | list [] => none
  | list (f :: args) => do
    let ds ← denoteAll args
    match f with
    | word f => apply I f ds
    | list _ => none

def denoteAll : List Sexp → Option (List Datum)
  | [] => some []
  | e :: es => do return (← denote e) :: (← denoteAll es)

end

end Interpreted

end Sexp

/-! ## Sorts of terms -/

namespace Term

def IsInteger (t : Term) : Prop := ∃ n : Int, t = int (.int n)

/-- The terms of a sort. A conjunction may have integers among its parts, which are true if they are not
zero; a disjunction has a part. -/
inductive OfKind : Term → Kind → Prop
  | cell (t r c : Int) : OfKind (cell t r c) .number
  | null (t r c : Int) : OfKind (null t r c) .truth
  | grouping (t r g : Int) : OfKind (grouping t r g) .truth
  | deleted (t r : Int) : OfKind (deleted t r) .truth
  | belongs (q g : Int) : OfKind (belongs q g) .truth
  | size (t : Int) : OfKind (size t) .number
  | choice (t b : Int) : OfKind (choice t b) .number
  | and {ts : List Term} (h : ∀ t ∈ ts, ¬ t.IsInteger → OfKind t .truth) : OfKind (and ts) .truth
  | or {ts : List Term} (hne : ts ≠ []) (h : ∀ t ∈ ts, OfKind t .truth) : OfKind (or ts) .truth
  | xor {a b : Term} (ha : OfKind a .truth) (hb : OfKind b .truth) : OfKind (xor a b) .truth
  | not {a : Term} (ha : OfKind a .truth) : OfKind (not a) .truth
  | implies {a b : Term} (ha : OfKind a .truth) (hb : OfKind b .truth) : OfKind (implies a b) .truth
  | ite {c a b : Term} {k : Kind} (hc : OfKind c .truth) (ha : OfKind a k) (hb : OfKind b k) :
    OfKind (ite c a b) k
  | equation {op : Comparison} {a b : Term} {k : Kind} (hop : op = .eq ∨ op = .ne) (ha : OfKind a k)
    (hb : OfKind b k) : OfKind (cmp op a b) .truth
  | comparison {op : Comparison} {a b : Term} (ha : OfKind a .number) (hb : OfKind b .number) :
    OfKind (cmp op a b) .truth
  | arith {op : Arith} {a b : Term} (ha : OfKind a .number) (hb : OfKind b .number) :
    OfKind (arith op a b) .number
  | neg {a : Term} (ha : OfKind a .number) : OfKind (neg a) .number
  | int (n : Int) : OfKind (int (.int n)) .number
  | bool (v : Value) : OfKind (bool v) .truth

/-! ## The expression of a term -/

def numeral (n : Int) : Sexp := .word (toString n)

def call (f : String) (args : List Sexp) : Sexp := .list (.word f :: args)

mutual

/-- The expression that the text of a term is of. -/
def sexp : Term → Sexp
  | cell t r c => call "cell" [numeral t, numeral r, numeral c]
  | null t r c => call "null" [numeral t, numeral r, numeral c]
  | grouping t r g => call "grouping" [numeral t, numeral r, numeral g]
  | deleted t r => call "deleted" [numeral t, numeral r]
  | belongs q g => call "belongstogroup" [numeral q, numeral g]
  | size t => call "size" [numeral t]
  | choice t b => call "choice" [numeral t, numeral b]
  | and [] => .word "true"
  | and ts => call "and" (conjuncts ts)
  | or ts => call "or" (disjuncts ts)
  | xor a b => call "xor" [sexp a, sexp b]
  | not a => call "not" [sexp a]
  | implies a b => call "=>" [sexp a, sexp b]
  | ite c a b => call "ite" [sexp c, sexp a, sexp b]
  | cmp .ne a b => call "not" [call "=" [sexp a, sexp b]]
  | cmp op a b => call op.script [sexp a, sexp b]
  | arith op a b => call op.script [sexp a, sexp b]
  | neg a => call "-" [sexp a]
  | int v => .word v.text
  | bool v => .word (if v.truthy then "true" else "false")
  | plain v => .word v.text

def conjuncts : List Term → List Sexp
  | [] => []
  | int v :: ts => .word (if v.isZero then "false" else "true") :: conjuncts ts
  | t :: ts => sexp t :: conjuncts ts

def disjuncts : List Term → List Sexp
  | [] => []
  | t :: ts => sexp t :: disjuncts ts

end

/-! ## Texts of terms -/

section Writing

variable {t : Term} {ts : List Term}

theorem isZero_int (n : Int) : (Value.int n).isZero = (n == 0) := rfl

theorem writeConjuncts_int (acc : String) (printable : Bool) (n : Int) (ts : List Term) :
    writeConjuncts acc printable (int (.int n) :: ts) =
      writeConjuncts (acc ++ " " ++ if (Value.int n).isZero then "false" else "true") printable ts := by
  change (if (Value.int n).isZero then _ else _) = _
  split <;> simp [String.append_assoc]

theorem writeConjuncts_truth (h : t.OfKind .truth) (acc : String) (printable : Bool) (ts : List Term) :
    writeConjuncts acc printable (t :: ts) =
      (write (acc ++ " ") t >>= fun acc ↦ writeConjuncts acc printable ts) := by
  cases h <;> rfl

theorem writeDisjuncts_truth (h : t.OfKind .truth) (acc : String) (printable : Bool) (ts : List Term) :
    writeDisjuncts acc printable (t :: ts) =
      (write (acc ++ " ") t >>= fun acc ↦ writeDisjuncts acc printable ts) := by
  cases h <;> rfl

theorem conjuncts_truth (h : t.OfKind .truth) (ts : List Term) : conjuncts (t :: ts) = sexp t :: conjuncts ts := by
  cases h <;> rfl

/-- The text of a term is that of its expression. -/
def Writes (t : Term) : Prop := ∀ acc, write acc t = .ok (acc ++ t.sexp.render)

theorem Writes.conjuncts (hkind : ∀ t ∈ ts, ¬ t.IsInteger → t.OfKind .truth)
    (h : ∀ t ∈ ts, ¬ t.IsInteger → t.Writes) (acc : String) (printable : Bool) :
    writeConjuncts acc printable ts = .ok (acc ++ renderAll (conjuncts ts), printable) := by
  induction ts generalizing acc with
  | nil => simp [writeConjuncts, Term.conjuncts, renderAll]
  | cons t ts ih =>
    have ihs := ih (fun u hu ↦ hkind u (by simp [hu])) fun u hu ↦ h u (by simp [hu])
    by_cases hint : t.IsInteger
    · obtain ⟨n, rfl⟩ := hint
      rw [writeConjuncts_int, ihs]
      simp [Term.conjuncts, renderAll, render, String.append_assoc]
    · rw [writeConjuncts_truth (hkind t (by simp) hint), conjuncts_truth (hkind t (by simp) hint),
        h t (by simp) hint]
      change writeConjuncts _ printable ts = _
      rw [ihs]
      simp [renderAll, String.append_assoc]

theorem Writes.disjuncts (hkind : ∀ t ∈ ts, t.OfKind .truth) (h : ∀ t ∈ ts, t.Writes) (acc : String)
    (printable : Bool) : writeDisjuncts acc printable ts = .ok (acc ++ renderAll (disjuncts ts), printable) := by
  induction ts generalizing acc with
  | nil => simp [writeDisjuncts, Term.disjuncts, renderAll]
  | cons t ts ih =>
    rw [writeDisjuncts_truth (hkind t (by simp)), h t (by simp)]
    change writeDisjuncts _ printable ts = _
    rw [ih (fun u hu ↦ hkind u (by simp [hu])) fun u hu ↦ h u (by simp [hu])]
    simp [Term.disjuncts, renderAll, String.append_assoc]

/-- The text of a function of numbers, as it is put together from the left. -/
theorem render_leaf (acc f : String) (ids : List Int) :
    ids.foldl (fun s i ↦ s ++ " " ++ toString i) (acc ++ "(" ++ f) ++ ")" =
      acc ++ (call f (ids.map numeral)).render := by
  have hargs (s : String) :
      ids.foldl (fun s i ↦ s ++ " " ++ toString i) s = s ++ renderAll (ids.map numeral) := by
    induction ids generalizing s with
    | nil => rw [map_nil, renderAll, String.append_empty, foldl_nil]
    | cons i ids ih =>
      rw [foldl_cons, ih, map_cons, renderAll, numeral, render, String.append_assoc,
        String.append_assoc, String.append_assoc]
  rw [hargs, call, render, render]
  simp only [String.append_assoc]

section Calls

variable {acc opened f : String} {a b c : Term} (hopened : opened = acc ++ ("(" ++ f ++ " "))

include hopened

theorem Writes.call₁ (ha : a.Writes) : (do let acc ← write opened a; return acc ++ ")" : Outcome String) =
      .ok (acc ++ (call f [a.sexp]).render) := by
  rw [ha, hopened]
  simp [call, Sexp.render, Sexp.renderAll, String.append_assoc, bind, Except.bind, pure, Except.pure]

theorem Writes.call₂ (ha : a.Writes) (hb : b.Writes) :
    (do let acc ← write opened a; let acc ← write (acc ++ " ") b; return acc ++ ")" : Outcome String) =
      .ok (acc ++ (call f [a.sexp, b.sexp]).render) := by
  rw [ha, hopened]
  simp [hb _, call, Sexp.render, Sexp.renderAll, String.append_assoc, bind, Except.bind, pure, Except.pure]

theorem Writes.call₃ (ha : a.Writes) (hb : b.Writes) (hc : c.Writes) :
    (do let acc ← write opened a
        let acc ← write (acc ++ " ") b
        let acc ← write (acc ++ " ") c
        return acc ++ ")" : Outcome String) =
      .ok (acc ++ (call f [a.sexp, b.sexp, c.sexp]).render) := by
  rw [ha, hopened]
  simp [hb _, hc _, call, Sexp.render, Sexp.renderAll, String.append_assoc, bind, Except.bind, pure, Except.pure]

end Calls

theorem Writes.cmp (op : Comparison) (ha : a.Writes) (hb : b.Writes) : (cmp op a b).Writes := by
  intro acc
  cases op with
  | ne =>
    have hopened : acc ++ "(not (" ++ "=" ++ " " = acc ++ ("(" ++ "not" ++ " " ++ "(" ++ "=" ++ " ") := by
      rw [String.append_assoc, String.append_assoc]
      rfl
    change (do let acc ← write (acc ++ "(not (" ++ "=" ++ " ") a; let acc ← write (acc ++ " ") b
               return acc ++ (")" ++ ")") : Outcome String) = _
    rw [ha, hopened]
    simp only [hb _, sexp, call, render, renderAll, String.append_assoc, bind, Except.bind, pure,
      Except.pure, String.append_empty]
  | _ => exact Writes.call₂ (by simp [String.append_assoc]) ha hb

theorem OfKind.writes (h : t.OfKind k) : t.Writes := by
  induction h with
  | cell t r c => exact fun acc ↦ congrArg Except.ok (render_leaf acc "cell" [t, r, c])
  | null t r c => exact fun acc ↦ congrArg Except.ok (render_leaf acc "null" [t, r, c])
  | grouping t r g => exact fun acc ↦ congrArg Except.ok (render_leaf acc "grouping" [t, r, g])
  | deleted t r => exact fun acc ↦ congrArg Except.ok (render_leaf acc "deleted" [t, r])
  | belongs q g => exact fun acc ↦ congrArg Except.ok (render_leaf acc "belongstogroup" [q, g])
  | size t => exact fun acc ↦ congrArg Except.ok (render_leaf acc "size" [t])
  | choice t b => exact fun acc ↦ congrArg Except.ok (render_leaf acc "choice" [t, b])
  | @and ts hparts ih =>
    intro acc
    cases ts with
    | nil => rfl
    | cons t ts =>
      change (writeConjuncts (acc ++ "(and") true (t :: ts) >>= _) = _
      rw [Writes.conjuncts hparts ih]
      simp [sexp, call, render, String.append_assoc, bind, Except.bind, pure, Except.pure]
  | @or ts hne hparts ih =>
    intro acc
    cases ts with
    | nil => exact absurd rfl hne
    | cons t ts =>
      change (writeDisjuncts (acc ++ "(or") true (t :: ts) >>= _) = _
      rw [Writes.disjuncts hparts ih]
      simp [sexp, call, render, String.append_assoc, bind, Except.bind, pure, Except.pure]
  | xor _ _ ha hb | implies _ _ ha hb => exact fun acc ↦ Writes.call₂ rfl ha hb
  | not _ ha | neg _ ha => exact fun acc ↦ Writes.call₁ rfl ha
  | ite _ _ _ hc ha hb => exact fun acc ↦ Writes.call₃ rfl hc ha hb
  | equation _ _ _ ha hb | comparison _ _ ha hb => exact Writes.cmp _ ha hb
  | arith _ _ ha hb => exact fun acc ↦ Writes.call₂ (by simp only [String.append_assoc]) ha hb
  | int n => exact fun acc ↦ rfl
  | bool v => exact fun acc ↦ rfl

end Writing

/-! ## Words of terms -/

/-- The text of a number is its digits, with a sign before them if it is negative. -/
theorem toList_toString (n : Int) :
    (toString n).toList = (if n < 0 then ['-'] else []) ++ toDigits 10 n.natAbs := by
  cases n with
  | ofNat n => exact toList_repr
  | negSucc n =>
    change ("-" ++ n.succ.repr).toList = _
    rw [String.toList_append, toList_repr, if_pos (Int.negSucc_lt_zero n)]
    rfl

theorem isDigit_of_mem_digits {n : Nat} {c : Char} (h : c ∈ toDigits 10 n) : c.isDigit = true :=
  isDigit_of_mem_toDigits (by decide) (by decide) h

theorem isPlain_of_isDigit {c : Char} (h : c.isDigit = true) : Sexp.isPlain c = true := by
  have hne (d : Char) (hd : d.isDigit = false) : (c == d) = false := by
    rw [beq_eq_false_iff_ne]
    rintro rfl
    exact absurd (h.symm.trans hd) (by decide)
  have hmem (d : Char) (ds : List Char) (hd : d.isDigit = false) : (d :: ds).contains c = ds.contains c := by
    rw [contains_cons, hne d hd, Bool.false_or]
  rw [Sexp.isPlain, Sexp.isBlank, hmem, hmem, hmem, hmem, hmem, hne, hne, hne, hne] <;> rfl

theorem legible_numeral (n : Int) : (numeral n).Legible := by
  have hdigits : (toDigits 10 n.natAbs).all Sexp.isPlain = true :=
    all_eq_true.2 fun c hc ↦ isPlain_of_isDigit (isDigit_of_mem_digits hc)
  refine .word ?_
  rw [isWord, toList_toString, all_append, hdigits]
  have hminus : Sexp.isPlain '-' = true := by decide
  split <;> simp [toDigits_ne_nil, hminus]

theorem legible_call {f : String} {args : List Sexp} (hf : isWord f = true) (h : ∀ e ∈ args, e.Legible) :
    (call f args).Legible := by
  refine .list ?_
  rw [forall_mem_cons]
  exact ⟨.word hf, h⟩

theorem legible_conjuncts (hkind : ∀ t ∈ ts, ¬ t.IsInteger → t.OfKind .truth)
    (h : ∀ t ∈ ts, ¬ t.IsInteger → t.sexp.Legible) : ∀ e ∈ conjuncts ts, e.Legible := by
  induction ts with
  | nil => exact forall_mem_nil _
  | cons t ts ih =>
    have ihs := ih (fun u hu ↦ hkind u (by simp [hu])) fun u hu ↦ h u (by simp [hu])
    by_cases hint : t.IsInteger
    · obtain ⟨n, rfl⟩ := hint
      rw [conjuncts, forall_mem_cons]
      refine ⟨?_, ihs⟩
      split <;> exact .word rfl
    · rw [conjuncts_truth (hkind t (by simp) hint), forall_mem_cons]
      exact ⟨h t (by simp) hint, ihs⟩

theorem legible_disjuncts (h : ∀ t ∈ ts, t.sexp.Legible) : ∀ e ∈ disjuncts ts, e.Legible := by
  induction ts with
  | nil => exact forall_mem_nil _
  | cons t ts ih =>
    rw [disjuncts, forall_mem_cons]
    exact ⟨h t (by simp), ih fun u hu ↦ h u (by simp [hu])⟩

theorem OfKind.legible (h : t.OfKind k) : t.sexp.Legible := by
  induction h with
  | cell | null | grouping | deleted | belongs | size | choice =>
    exact legible_call rfl (by simp [legible_numeral])
  | @and ts hparts ih =>
    cases ts with
    | nil => exact .word rfl
    | cons t ts => exact legible_call rfl (legible_conjuncts hparts ih)
  | or _ _ ih => exact legible_call rfl (legible_disjuncts ih)
  | xor _ _ ha hb | implies _ _ ha hb => exact legible_call rfl (by simp [ha, hb])
  | not _ ha | neg _ ha => exact legible_call rfl (by simp [ha])
  | ite _ _ _ hc ha hb => exact legible_call rfl (by simp [hc, ha, hb])
  | @equation op _ _ _ _ _ _ ha hb | @comparison op _ _ _ _ ha hb =>
    cases op with
    | ne =>
      refine legible_call rfl ?_
      rw [forall_mem_singleton]
      exact legible_call rfl (by simp [ha, hb])
    | _ => exact legible_call rfl (by simp [ha, hb])
  | @arith op _ _ _ _ ha hb => cases op <;> exact legible_call rfl (by simp [ha, hb])
  | int n => exact legible_numeral n
  | bool v =>
    rw [sexp]
    split <;> exact .word rfl

/-! ## Meanings of terms -/

section Denoting

variable (I : Interpretation)

theorem digits?_toDigits (n : Nat) : digits? (toDigits 10 n) = some n := by
  have hall : (toDigits 10 n).all Char.isDigit = true :=
    all_eq_true.2 fun c hc ↦ isDigit_of_mem_digits hc
  rw [digits?, if_pos ⟨toDigits_ne_nil, hall⟩, ofDigitChars_ten_toDigits]

/-- A number is read from its text. -/
theorem numeral?_toString (n : Int) : numeral? (toString n).toList = some n := by
  rw [toList_toString]
  split
  case isTrue hneg =>
    change (digits? (toDigits 10 n.natAbs)).map _ = _
    rw [digits?_toDigits, Option.map_some, Int.ofNat_natAbs_of_nonpos hneg.le, neg_neg]
  case isFalse hneg =>
    -- the digits do not begin with a sign, so they are read as they stand
    have hsign : ∀ cs, toDigits 10 n.natAbs ≠ '-' :: cs := by
      intro cs hcs
      have hminus := @isDigit_of_mem_digits n.natAbs '-' (by simp [hcs])
      exact absurd hminus (by decide)
    rw [nil_append, numeral?.eq_2 _ hsign, digits?_toDigits, Option.map_some,
      Int.natAbs_of_nonneg (not_lt.1 hneg)]

theorem denote_numeral (n : Int) : (numeral n).denote I = some (.number n) := by
  have hne (s : String) (c : Char) (hc : c ∈ s.toList) (hdigit : c.isDigit = false ∧ c ≠ '-') : toString n ≠ s := by
    rintro rfl
    rw [toList_toString, mem_append] at hc
    obtain hc | hc := hc
    · split at hc <;> simp_all
    · rw [isDigit_of_mem_digits hc] at hdigit
      exact absurd hdigit.1 (by decide)
  rw [numeral, denote, constant?.eq_3 _ (hne "true" 't' (by decide) (by decide))
    (hne "false" 'f' (by decide) (by decide)), numeral?_toString]
  rfl

theorem OfKind.eval_truth (h : t.OfKind .truth) : ∃ b : Bool, I.eval t = b.toInt := by
  generalize hk : Kind.truth = k at h
  induction h with
  | ite _ _ _ _ iha ihb =>
    rw [eval_ite]
    split
    · exact iha hk
    · exact ihb hk
  | cell | size | choice | arith | neg | int => cases hk
  | _ => exact ⟨_, rfl⟩

theorem ofKind_toInt (b : Bool) : Datum.ofKind .truth b.toInt = .truth b := by
  cases b <;> rfl

/-- The expression of a term denotes what the term means. -/
def Denotes (t : Term) (k : Kind) : Prop := t.sexp.denote I = some (.ofKind k (I.eval t))

variable {I} in
theorem Denotes.cons {e : Sexp} {d : Datum} (h : e.denote I = some d) (es : List Sexp) :
    denoteAll I (e :: es) = (denoteAll I es).map (d :: ·) := by
  rw [denoteAll, h]
  cases denoteAll I es <;> rfl

theorem denote_call (f : String) (args : List Sexp) :
    (call f args).denote I = denoteAll I args >>= apply I f := rfl

/-- A function of numbers is applied to them. -/
theorem denote_leaf (f : String) (ids : List Int) :
    (call f (ids.map numeral)).denote I = apply I f (ids.map Datum.number) := by
  have hargs : denoteAll I (ids.map numeral) = some (ids.map Datum.number) := by
    induction ids with
    | nil => rfl
    | cons i ids ih => rw [map_cons, Denotes.cons (denote_numeral I i), ih, Option.map_some, map_cons]
  rw [denote_call, hargs, Option.bind_eq_bind, Option.bind_some]

theorem mapM_truth? (ts : List Term) :
    (ts.map fun t ↦ Datum.truth (I.eval t != 0)).mapM Datum.truth? = some (ts.map (I.eval · != 0)) := by
  induction ts with
  | nil => rfl
  | cons t ts ih =>
    rw [map_cons, mapM_cons, ih]
    rfl

theorem eval_and (ts : List Term) : I.eval (and ts) = ((ts.map (I.eval · != 0)).all id).toInt := by
  change ((I.evals ts).all (· != 0)).toInt = _
  rw [evals_eq_map, all_map, all_map]
  rfl

theorem eval_or (hne : ts ≠ []) : I.eval (or ts) = ((ts.map (I.eval · != 0)).any id).toInt := by
  change ((I.evals ts).any (· != 0) || (ts.isEmpty && I.emptyOr)).toInt = _
  rw [evals_eq_map, any_map, any_map, isEmpty_eq_false_iff.2 hne, Bool.false_and, Bool.or_false]
  rfl

/-- A truth, or a number among conjuncts. -/
theorem denoteAll_conjuncts (hkind : ∀ t ∈ ts, ¬ t.IsInteger → t.OfKind .truth)
    (h : ∀ t ∈ ts, ¬ t.IsInteger → t.Denotes I .truth) :
    denoteAll I (conjuncts ts) = some (ts.map fun t ↦ .truth (I.eval t != 0)) := by
  induction ts with
  | nil => rfl
  | cons t ts ih =>
    have ihs := ih (fun u hu ↦ hkind u (by simp [hu])) fun u hu ↦ h u (by simp [hu])
    by_cases hint : t.IsInteger
    · obtain ⟨n, rfl⟩ := hint
      have hword : (word (if (Value.int n).isZero then "false" else "true")).denote I =
          some (.truth (n != 0)) := by
        rw [isZero_int]
        by_cases hn : n = 0 <;> simp [hn, denote, constant?]
      rw [conjuncts, Denotes.cons hword, ihs]
      rfl
    · rw [conjuncts_truth (hkind t (by simp) hint), Denotes.cons (h t (by simp) hint), ihs]
      rfl

theorem denoteAll_disjuncts (h : ∀ t ∈ ts, t.Denotes I .truth) :
    denoteAll I (disjuncts ts) = some (ts.map fun t ↦ .truth (I.eval t != 0)) := by
  induction ts with
  | nil => rfl
  | cons t ts ih =>
    rw [disjuncts, Denotes.cons (h t (by simp)), ih fun u hu ↦ h u (by simp [hu])]
    rfl

/-- Terms of a sort denote the same datum only if they mean the same number. -/
theorem OfKind.ofKind_eq_iff (ha : a.OfKind k) (hb : b.OfKind k) :
    Datum.ofKind k (I.eval a) = Datum.ofKind k (I.eval b) ↔ I.eval a = I.eval b := by
  cases k with
  | number => exact ⟨fun h ↦ Datum.number.inj h, fun h ↦ congrArg Datum.number h⟩
  | truth =>
    obtain ⟨x, hx⟩ := ha.eval_truth I
    obtain ⟨y, hy⟩ := hb.eval_truth I
    rw [hx, hy, ofKind_toInt, ofKind_toInt]
    cases x <;> cases y <;> decide

theorem denote_equation (ha : a.OfKind k) (hb : b.OfKind k) (hda : a.Denotes I k) (hdb : b.Denotes I k) :
    (call "=" [a.sexp, b.sexp]).denote I = some (.truth (I.eval a == I.eval b)) := by
  have heq : decide (Datum.ofKind k (I.eval a) = Datum.ofKind k (I.eval b)) = (I.eval a == I.eval b) := by
    rw [decide_eq_decide.2 (ha.ofKind_eq_iff I hb)]
    rfl
  rw [denote_call, Denotes.cons hda, Denotes.cons hdb, ← heq]
  cases k with
  | number => exact congrArg (some <| Datum.truth ·) (Bool.and_true _)
  | truth => exact congrArg (some <| Datum.truth ·) (Bool.and_true _)

theorem OfKind.denotes (h : t.OfKind k) : t.Denotes I k := by
  induction h with
  | cell t r c => exact denote_leaf I "cell" [t, r, c]
  | null t r c => exact (denote_leaf I "null" [t, r, c]).trans (congrArg some (ofKind_toInt _).symm)
  | grouping t r g => exact (denote_leaf I "grouping" [t, r, g]).trans (congrArg some (ofKind_toInt _).symm)
  | deleted t r => exact (denote_leaf I "deleted" [t, r]).trans (congrArg some (ofKind_toInt _).symm)
  | belongs q g => exact (denote_leaf I "belongstogroup" [q, g]).trans (congrArg some (ofKind_toInt _).symm)
  | size t => exact denote_leaf I "size" [t]
  | choice t b => exact denote_leaf I "choice" [t, b]
  | @and ts hparts ih =>
    cases ts with
    | nil => rfl
    | cons t ts =>
      rw [Denotes, eval_and, ofKind_toInt]
      change (call "and" (conjuncts (t :: ts))).denote I = _
      rw [denote_call, denoteAll_conjuncts I hparts ih]
      change ((List.map _ _).mapM _ >>= _ : Option Datum) = _
      rw [mapM_truth?]
      rfl
  | @or ts hne hparts ih =>
    rw [Denotes, eval_or I hne, ofKind_toInt, sexp, denote_call, denoteAll_disjuncts I ih]
    change ((List.map _ _).mapM _ >>= _ : Option Datum) = _
    rw [mapM_truth?]
    cases ts with
    | nil => exact absurd rfl hne
    | cons t ts => rfl
  | xor _ _ ha hb =>
    rw [Denotes, sexp, denote_call, Denotes.cons ha, Denotes.cons hb]
    exact congrArg some (ofKind_toInt _).symm
  | @implies a b _ _ ha hb =>
    rw [Denotes, sexp, denote_call, Denotes.cons ha, Denotes.cons hb]
    refine congrArg some ((congrArg Datum.truth ?_).trans (ofKind_toInt _).symm)
    change (!(!(I.eval a == 0)) || _) = _
    rw [Bool.not_not]
  | @not a _ ha =>
    rw [Denotes, sexp, denote_call, Denotes.cons ha]
    refine congrArg some ((congrArg Datum.truth ?_).trans (ofKind_toInt _).symm)
    rw [bne, Bool.not_not]
  | neg _ ha =>
    rw [Denotes, sexp, denote_call, Denotes.cons ha]
    rfl
  | @ite c a b k hkc _ _ hc ha hb =>
    obtain ⟨x, hx⟩ := hkc.eval_truth I
    have hholds : I.Holds c ↔ x = true := by rw [Holds, hx, toInt_ne_zero]
    rw [Denotes, sexp, denote_call, Denotes.cons hc, Denotes.cons ha, Denotes.cons hb, hx, ofKind_toInt, eval_ite]
    cases x with
    | false =>
      rw [if_neg (by simp [hholds])]
      cases k <;> rfl
    | true =>
      rw [if_pos (by simp [hholds])]
      cases k <;> rfl
  | @equation op a b k hop hka hkb ha hb =>
    have heq := denote_equation I hka hkb ha hb
    obtain rfl | rfl := hop
    · exact heq.trans (congrArg some (ofKind_toInt _).symm)
    · rw [Denotes, sexp, denote_call, Denotes.cons heq]
      exact congrArg some (ofKind_toInt _).symm
  | @comparison op a b hka hkb ha hb =>
    cases op with
    | eq => exact (denote_equation I hka hkb ha hb).trans (congrArg some (ofKind_toInt _).symm)
    | ne =>
      rw [Denotes, sexp, denote_call, Denotes.cons (denote_equation I hka hkb ha hb)]
      exact congrArg some (ofKind_toInt _).symm
    | _ =>
      change (call (Comparison.script _) _).denote I = _
      rw [denote_call, Denotes.cons ha, Denotes.cons hb]
      exact congrArg some ((congrArg Datum.truth (Bool.and_true _)).trans (ofKind_toInt _).symm)
  | @arith op a b _ _ ha hb =>
    cases op <;> rw [Denotes, sexp, denote_call, Denotes.cons ha, Denotes.cons hb] <;> rfl
  | int n => exact denote_numeral I n
  | bool v =>
    rw [Denotes, sexp]
    change constant? _ = some (.ofKind .truth v.truthy.toInt)
    cases v.truthy <;> rfl

end Denoting

/-! ## Faithful scripts -/

/-- A term other than a bare number is a text in a script. -/
theorem OfKind.script_eq (h : t.OfKind k) (hint : ¬ t.IsInteger) : t.script = .ok (.str t.sexp.render) := by
  have hscript : t.script = (do return .str (← write "" t)) := by
    cases h with
    | int n => exact absurd ⟨n, rfl⟩ hint
    | _ => rfl
  rw [hscript, h.writes]
  change Except.ok (Value.str ("" ++ t.sexp.render)) = _
  rw [String.empty_append]

/-- Every term of a sort that is no bare number has a text, the text is read as an expression, and in every
interpretation the expression denotes what the term means. -/
theorem readback_script {t : Term} {k : Kind} (h : t.OfKind k) (hint : ¬ t.IsInteger) :
    ∃ text e, t.script = .ok (.str text) ∧ Sexp.read text = some e ∧
      ∀ I : Interpretation, e.denote I = some (.ofKind k (I.eval t)) :=
  ⟨t.sexp.render, t.sexp, h.script_eq hint, read_render h.legible, fun I ↦ h.denotes I⟩

/-- A term with a number among conjuncts, an empty conjunction, negative numbers and a quotient. -/
def guardedQuotient : Term :=
  implies (and [int (.int 2), deleted (-3) 0, and []])
    (ne (ite (null (-3) 0 1) (neg (int (.int (-4)))) (arith .div (cell 1 0 0) (int (.int 0)))) (int (.int (-1))))

theorem guardedQuotient_readback :
    guardedQuotient.OfKind .truth ∧ ¬ guardedQuotient.IsInteger ∧
      ∃ text e, guardedQuotient.script = .ok (.str text) ∧ Sexp.read text = some e ∧
        ∀ I : Interpretation, e.denote I = some (.ofKind .truth (I.eval guardedQuotient)) := by
  have hpremise : (and [int (.int 2), deleted (-3) 0, and []]).OfKind .truth := by
    refine .and ?_
    simp only [forall_mem_cons, not_mem_nil, false_imp_iff, implies_true, and_true]
    exact ⟨fun h ↦ absurd ⟨2, rfl⟩ h, fun _ ↦ .deleted _ _, fun _ ↦ .and (by simp)⟩
  have hkind : guardedQuotient.OfKind .truth :=
    .implies hpremise <| .equation (.inr rfl)
      (.ite (.null _ _ _) (.neg (.int _)) (.arith (.cell _ _ _) (.int _))) (.int _)
  have hint : ¬ guardedQuotient.IsInteger := by
    rintro ⟨n, hn⟩
    cases hn
  exact ⟨hkind, hint, readback_script hkind hint⟩

example : guardedQuotient.script = .ok (.str
    "(=> (and true (deleted -3 0) true) (not (= (ite (null -3 0 1) (- -4) (div (cell 1 0 0) 0)) -1)))") := by
  rfl

end Term

end QueryEquiv
