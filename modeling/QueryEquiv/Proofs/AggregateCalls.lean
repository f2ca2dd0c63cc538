import QueryEquiv.Ast.OfTree
import QueryEquiv.Proofs.Running

/-!
# How calls of aggregates are read

A call of an aggregate is an object with the operand under the name of the aggregate and maybe a flag under
`distinct`. It is meant as the aggregate with the flag and the operand, in which a text stands for a column as it
does for every other operator (`aggregateOf`). Three cases of the reader compete for such an object, and which of them
applies depends on the entries and their order (`aggregate_read_iff`).
-/

namespace QueryEquiv.Node

open Value

/-- An operand as it is meant: a text is a column. -/
def operandOf (fuel : Nat) (v : Value) : Outcome Node :=
  if v.isString then .ok (column v .null) else readExpression fuel v

/-- A call of an aggregate as it is meant. -/
def aggregateOf (fuel : Nat) (name : String) (flag v : Value) : Outcome Node := do
  return expression (.str name) [raw flag, ← operandOf fuel v] .null

variable {name : String} (hname : Text.lower name ∈ aggregateNames)
include hname

theorem ne_of_aggregate {s : String} (hs : Text.lower s ∉ aggregateNames) : name ≠ s :=
  fun h ↦ hs (h ▸ hname)

theorem apply_aggregate (args : List Node) : apply (.str name) args .null = .ok (expression (.str name) args .null) := by
  have hmissing := ne_of_aggregate hname (s := "missing") (by decide +kernel)
  have hexists := ne_of_aggregate hname (s := "exists") (by decide +kernel)
  have hin := ne_of_aggregate hname (s := "in") (by decide +kernel)
  have hnin := ne_of_aggregate hname (s := "nin") (by decide +kernel)
  simp [apply, operatorName, hmissing, hexists, hin, hnin, pure, Except.pure, bind, Except.bind]

/-- A call without a flag is read with its operand, or with the first of several operands. -/
theorem readExpression_alone (fuel : Nat) {v x : Value} (hv : v = x ∧ x.isList = false ∨ ∃ rest, v = .list (x :: rest)) :
    readExpression (fuel + 2) (.object [(name, v)]) = (do
      return expression (.str name) [raw (.bool false), ← readExpression fuel x] .null) := by
  have hdistinct := ne_of_aggregate hname (s := "distinct") (by decide +kernel)
  have hfilter := ne_of_aggregate hname (s := "filter") (by decide +kernel)
  have hif : Text.lower name ≠ "if" := fun h ↦ absurd hname (by rw [h]; decide)
  have hgoes : readExpression (fuel + 2) (.object [(name, v)]) =
      readApplication (fuel + 1) (.object [(name, v)]) name v := by
    simp [readExpression, count, get?, lookup, bind, Except.bind, pure, Except.pure]
  rw [hgoes, readApplication.eq_def]
  dsimp only
  rw [if_neg hif, if_pos (List.contains_iff_mem.2 hname)]
  obtain ⟨rfl, hlist⟩ | ⟨rest, rfl⟩ := hv
  · cases v with
    | list => cases hlist
    | _ => simp [has, hdistinct, hfilter, apply_aggregate hname, bind, Except.bind, pure, Except.pure]
  · simp [has, member, hdistinct, hfilter, apply_aggregate hname, bind, Except.bind, pure, Except.pure]

omit hname in
/-- Of two entries of which one is a flag, the second is read as the call, whatever the first is. -/
theorem readExpression_pair (fuel : Nat) {first second : String} {a b : Value} (flag : Value)
    (hflag : Value.lookup "distinct" [(first, a), (second, b)] = some flag) :
    readExpression (fuel + 1) (.object [(first, a), (second, b)]) = (do
      let arg ← (if b.isObject then readExpression fuel b else pure (column b .null) : Outcome Node)
      apply (.str second) [raw flag, arg] .null) := by
  have hhas : first = "distinct" ∨ second = "distinct" := by
    simp only [lookup] at hflag
    by_contra! h
    simp [h.1, h.2] at hflag
  cases b <;> simp [readExpression, count, has, entry, hflag, hhas, isObject, bind, Except.bind, pure, Except.pure]

omit hname in
theorem readExpression_ne_column (fuel : Nat) {v u : Value} (hv : v.isObject = false) :
    readExpression fuel v ≠ .ok (column u .null) := by
  cases fuel with
  | zero => simp [readExpression]
  | succ fuel =>
    intro h
    cases v with
    | object => cases hv
    | list xs =>
      simp only [readExpression, count, has, bind, Except.bind, pure, Except.pure] at h
      rcases xs with _ | ⟨x, xs⟩
      · cases h
      · split at h <;> split at h <;> first | cases h | cases x <;> cases h
    | _ => simp [readExpression, count, lit, bind, Except.bind, pure, Except.pure] at h

/-- A call without a flag is read as it is meant unless its operand is a text, which is read as a literal; several
operands count as the first of them. A call with a flag before it is read as it is meant just if its operand is a text
or an object, and one with a flag behind it is never read so. -/
theorem aggregate_read_iff (fuel : Nat) (flag v : Value) :
    (∀ x, v = x ∧ x.isList = false ∨ (∃ rest, v = .list (x :: rest)) →
      (readExpression (fuel + 2) (.object [(name, v)]) = aggregateOf fuel name (.bool false) x ↔ x.isString = false)) ∧
    (readExpression (fuel + 2) (.object [("distinct", flag), (name, v)]) = aggregateOf (fuel + 1) name flag v ↔
      v.isString = true ∨ v.isObject = true) ∧
    ∀ n f, readExpression (fuel + 2) (.object [(name, v), ("distinct", flag)]) = .ok n →
      aggregateOf f name flag v ≠ .ok n := by
  have hdistinct := ne_of_aggregate hname (s := "distinct") (by decide +kernel)
  refine ⟨fun x hx ↦ ?_, ?_, fun n f hn hmeant ↦ ?_⟩
  · rw [readExpression_alone hname fuel hx, aggregateOf, operandOf]
    cases hstring : x.isString with
    | false => simp
    | true =>
      have hobject : x.isObject = false := by cases x <;> first | rfl | cases hstring
      have hne := readExpression_ne_column fuel (u := x) hobject
      cases hread : readExpression fuel x with
      | error e => simp [bind, Except.bind, pure, Except.pure]
      | ok m =>
        rw [hread] at hne
        simpa [bind, Except.bind, pure, Except.pure] using hne
  · rw [readExpression_pair (fuel + 1) flag (by simp [lookup, hdistinct]), aggregateOf, operandOf]
    simp only [apply_aggregate hname]
    cases hstring : v.isString with
    | true =>
      have hobject : v.isObject = false := by cases v <;> first | rfl | cases hstring
      simp [hobject, bind, Except.bind, pure, Except.pure]
    | false =>
      cases hobject : v.isObject with
      | true => simp; rfl
      | false =>
        have hne := readExpression_ne_column (fuel + 1) (u := v) hobject
        cases hread : readExpression (fuel + 1) v with
        | error e => simp [bind, Except.bind, pure, Except.pure]
        | ok m =>
          rw [hread] at hne
          simpa [bind, Except.bind, pure, Except.pure, eq_comm] using hne
  · rw [readExpression_pair (fuel + 1) flag (by simp [lookup])] at hn
    obtain ⟨a, -, ha⟩ := Outcome.bind_ok_iff.1 hn
    obtain ⟨b, -, hb⟩ := Outcome.bind_ok_iff.1 hmeant
    cases ha
    simp [operatorName] at hb
    exact hdistinct hb.1.symm

omit hname in
/-- The sum of a text is not read as the sum of the column it names. -/
theorem sum_of_text : ofExpressionTree (.object [("sum", .str "a")]) ≠ aggregateOf 10 "sum" (.bool false) (.str "a") := by
  intro h
  have hsum : Text.lower "sum" ∈ aggregateNames := by decide +kernel
  exact absurd (((aggregate_read_iff hsum 10 (.bool false) (.str "a")).1 _ (.inl ⟨rfl, rfl⟩)).1 h) (by decide)

end QueryEquiv.Node
