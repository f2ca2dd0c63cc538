import QueryEquiv.Proofs.Evaluation

/-!
# Readings that agree

Two readings agree in an interpretation if they are null alike and have the same number for a value, whether
it is hidden by a null or not: a date that is moved by a null is moved by the number under it. The
operators and the functions that are the same at a row and in a group keep agreement, as they respect equality of
numbers.

So if two readers agree about columns, constants and functions, they agree about expressions
(`Expression.encode_pairs`).
-/

namespace QueryEquiv

open Gives List Workspace Expression

/-! ## Agreement -/

namespace Interpretation

variable {I : Interpretation}

/-- Two terms, none of them a plain value, stand for the same number. -/
structure Same (I : Interpretation) (t u : Term) : Prop where
  left : t.isPlain = false
  right : u.isPlain = false
  eval : I.eval t = I.eval u

/-- Two truth values hold alike. -/
structure Equivalent (I : Interpretation) (t u : Term) : Prop where
  left : t.kind = .ok (some .truth)
  right : u.kind = .ok (some .truth)
  holds : I.Holds t ↔ I.Holds u

/-- Two readings are null alike and have the same number for a value. -/
abbrev Agree (I : Interpretation) : Reading → Reading → Prop := Reading.Related I.Same I.Equivalent

theorem holds_and_congr {ts us : List Term} (h : Forall₂ (fun t u ↦ I.Holds t ↔ I.Holds u) ts us) :
    I.Holds (.and ts) ↔ I.Holds (.and us) := by
  rw [holds_and, holds_and]
  induction h with
  | nil => simp
  | cons htu _ ih => rw [forall_mem_cons, forall_mem_cons, htu, ih]

/-- A disjunction of nothing may hold, so the lengths count too. -/
theorem holds_or_congr {ts us : List Term} (h : Forall₂ (fun t u ↦ I.Holds t ↔ I.Holds u) ts us) :
    I.Holds (.or ts) ↔ I.Holds (.or us) := by
  have hnil : ts = [] ↔ us = [] := by
    rw [← length_eq_zero_iff, ← length_eq_zero_iff, h.length_eq]
  rw [holds_or, holds_or, hnil]
  refine or_congr_left ?_
  clear hnil
  induction h with
  | nil => simp
  | cons htu _ ih => rw [exists_mem_cons_iff, exists_mem_cons_iff, htu, ih]

theorem Equivalent.same {t u : Term} (h : I.Equivalent t u) : I.Same t u := by
  refine ⟨Term.isPlain_of_kind h.left, Term.isPlain_of_kind h.right, ?_⟩
  rw [eval_eq_ite_of_truth h.left, eval_eq_ite_of_truth h.right]
  exact if_congr h.holds rfl rfl

theorem Equivalent.ite {c c' t t' u u' : Term} (hc : I.Holds c ↔ I.Holds c') (ht : I.Equivalent t t') (hu : I.Equivalent u u') :
    I.Equivalent (.ite c t u) (.ite c' t' u') := by
  have hkind {c t u : Term} (ht : t.kind = .ok (some .truth)) (hu : u.kind = .ok (some .truth)) :
      (Term.ite c t u).kind = .ok (some .truth) := by
    simp [Term.kind, ht, hu, bind, Except.bind, pure, Except.pure]
  exact ⟨hkind ht.left hu.left, hkind ht.right hu.right, by simp [hc, ht.holds, hu.holds]⟩

theorem same_respected : Term.Respected I.Same I.Equivalent fun t u ↦ (I.Holds t ↔ I.Holds u) where
  value h := h.same
  condition h := by rw [Holds, Holds, h.eval]
  int _ := ⟨rfl, rfl, rfl⟩
  bool _ := ⟨rfl, rfl, Iff.rfl⟩
  number h _ _ ha hb := by
    obtain ⟨ha, hl⟩ := I.eval_ensureNumber ha
    obtain ⟨hb, hr⟩ := I.eval_ensureNumber hb
    exact ⟨hl, hr, by rw [ha, hb, h.eval]⟩
  truth h _ _ ha hb := by
    change I.Holds _ ↔ I.Holds _
    rw [(I.holds_ensureTruth ha).1, (I.holds_ensureTruth hb).1, Holds, Holds, h.eval]
  compare op _ _ _ _ h h' _ _ ha hb := by
    obtain rfl := Term.compare_term h.left ha
    obtain rfl := Term.compare_term h.right hb
    exact ⟨rfl, rfl, by rw [eval_cmp, eval_cmp, h.eval, h'.eval]⟩
  compute op _ _ _ _ h h' _ _ ha hb := by
    obtain rfl := Term.compute_term h.left ha
    obtain rfl := Term.compute_term h.right hb
    exact ⟨rfl, rfl, congrArg₂ (I.calculate op) h.eval h'.eval⟩
  negate h _ _ ha hb := by
    obtain rfl := Term.negate_term h.left ha
    obtain rfl := Term.negate_term h.right hb
    exact ⟨rfl, rfl, congrArg Neg.neg h.eval⟩
  arith op _ _ _ _ h h' := ⟨rfl, rfl, congrArg₂ (I.calculate op) h.eval h'.eval⟩
  not h := ⟨rfl, rfl, by rw [holds_not, holds_not, h]⟩
  and h := ⟨rfl, rfl, holds_and_congr h⟩
  or h := ⟨rfl, rfl, holds_or_congr h⟩
  implies h h' := ⟨rfl, rfl, by rw [holds_implies, holds_implies, h, h']⟩
  ite h h' h'' := ⟨rfl, rfl, by simp [h, h'.eval, h''.eval]⟩
  choice h h' h'' := h'.ite h h''

end Interpretation

open Interpretation (same_respected)

namespace Expression

variable {I : Interpretation} {P : Workspace → Prop}

/-! ## Functions of arguments -/

/-- Two arguments are one expression, which is no query, and their readings agree. -/
structure Argument.Pairs (I : Interpretation) (P : Workspace → Prop) (a b : Argument) : Prop
    extends Argument.Alike P I.Same I.Equivalent a b where
  value : a.node.isQuery = false

theorem rowFunction_shared {members : Node → Encoding Nat} {rows : Encoding Nat} {op : String} {whole : Node}
    {args args' : List Argument} {y : Encoding Reading} (hy : shared op args' = some y) :
    shared op args = some (rowFunction members rows op args whole) := by
  unfold shared at hy
  split at hy
  case h_15 => cases hy
  all_goals rfl

theorem nullness_pairs {members : Node → Encoding Nat} {args args' : List Argument}
    (h : Forall₂ (Argument.Pairs I P) args args') (negated : Bool) : Pairs P (nullness members negated args)
      (do let (_, null) ← readingAt args' 0; return Reading.certain (if negated then .not null else null))
      I.Agree := by
  obtain _ | ⟨ha, _⟩ := h
  · exact .bind (R := fun _ _ ↦ False) .throw_left fun _ _ h ↦ h.elim
  · unfold nullness
    simp only [argument, readingAt, getElem?_cons_zero, pure_bind]
    rw [if_neg (by simp [ha.value])]
    refine ha.reading.bind fun _ _ hx ↦ .pure (same_respected.certain ?_)
    cases negated with
    | false => exact hx.2.same
    | true => exact (same_respected.not hx.2.holds).same

section Defaults

/-- A default that is null only where the value is. -/
def Backed (I : Interpretation) (P : Workspace → Prop) (value default : Encoding Reading) : Prop :=
  ∀ ⦃v a v' w b w'⦄, P v → P w → Gives value v a v' → Gives default w b w' → I.Holds b.2 → I.Holds a.2

/-- A value with a default is null at a row if both are, and in a group if the default is. -/
theorem orNext_gives {value default value' default' : Encoding Reading} (hvalue : Pairs P value value' I.Agree)
    (hdefault : Pairs P default default' I.Agree) {v v' w w' : Workspace} {r q : Reading} (hv : P v) (hw : P w)
    (hr : Gives (do let a ← value; let b ← default; return Reading.orNext a b) v r v')
    (hq : Gives (do let a ← value'; let b ← default'; return (Term.ite (.not a.2) a.1 b.1, b.2)) w q w') :
    ∃ a b u, Gives value v a u ∧ Gives default u b v' ∧ P u ∧ (P v' ∧ P w') ∧ I.Same r.1 q.1 ∧
      (r.2.kind = .ok (some .truth) ∧ q.2.kind = .ok (some .truth)) ∧
      (I.Holds r.2 ↔ I.Holds a.2 ∧ I.Holds b.2) ∧ (I.Holds q.2 ↔ I.Holds b.2) := by
  simp only [bind_iff, pure_iff] at hr hq
  obtain ⟨a, u, ha, b, _, hb, rfl, rfl⟩ := hr
  obtain ⟨a', u', ha', b', _, hb', rfl, rfl⟩ := hq
  obtain ⟨⟨hu, hu'⟩, haa⟩ := hvalue hv hw ha ha'
  obtain ⟨hvw, hbb⟩ := hdefault hu hu' hb hb'
  refine ⟨a, b, u, ha, hb, hu, hvw, ?_, ⟨rfl, hbb.2.right⟩, by simp [Reading.orNext], hbb.2.holds.symm⟩
  exact same_respected.ite (same_respected.absent haa.2) haa.1 hbb.1

variable {members : Node → Encoding Nat} {rows : Encoding Nat} {sub : Subquery} {g : GroupOfRows}
  {whole whole' : Node}

/-- The functions in a group agree with those at the row, if every default is null only where the value is. -/
theorem function_pairs {op : String} {args args' : List Argument}
    (h : Forall₂ (Argument.Pairs I P) args args') (hop : op ∉ Node.aggregateNames)
    (hdefault : ∀ a b rest, op = "ifnull" → args = a :: b :: rest → Backed I P a.reading b.reading) :
    Pairs P (rowFunction members rows op args whole) (g.groupFunction sub op args' whole') I.Agree := by
  unfold GroupOfRows.groupFunction
  rw [if_neg (by simpa using hop)]
  split
  · obtain _ | ⟨ha, _ | ⟨hb, hrest⟩⟩ := h
    · exact .bind (R := fun _ _ ↦ False) .throw_left fun _ _ h ↦ h.elim
    · exact (readingAt_pairs (.cons ha.toAlike .nil) 0).bind fun _ _ _ ↦
        .bind (R := fun _ _ ↦ False) .throw_left fun _ _ h ↦ h.elim
    · intro v r v' w q w' hv hw hr hq
      obtain ⟨x, y, u, hx, hy, hu, hvw, hvalue, hkinds, hrnull, hqnull⟩ :=
        orNext_gives ha.reading hb.reading hv hw hr hq
      have hback := hdefault _ _ _ rfl rfl hv hu hx hy
      exact ⟨hvw, hvalue, hkinds.1, hkinds.2, by rw [hrnull, hqnull, and_iff_right_of_imp hback]⟩
  · exact nullness_pairs h false
  · exact nullness_pairs h true
  · split
    · rename_i hy
      exact shared_pairs (h.imp fun _ _ hab ↦ hab.toAlike) same_respected (rowFunction_shared hy) hy
    · intro v r v' w q w' _ _ _ hq
      obtain ⟨_, _, _, hq⟩ := bind_iff.1 hq
      exact absurd hq not_throw

end Defaults

end Expression

/-! ## Expressions -/

namespace Node

def FirstTwo (C : Node → Node → Prop) : List Node → Prop
  | x :: y :: _ => C x y
  | _ => True

mutual

/-- An expression without subqueries and aggregates, of columns that are named by texts; every value with a
default is related to it. -/
def Scalar (C : Node → Node → Prop) : Node → Prop
  | .column name _ => ∃ s, name = .str s
  | .query .. => False
  | .caseWhen cs d _ => ScalarCases C cs ∧ Scalar C d
  | .expression op args _ =>
    (∀ name ∈ aggregateNames, op ≠ .str name) ∧ (op = .str "ifnull" → FirstTwo C args) ∧ ScalarAll C args
  | _ => True

def ScalarAll (C : Node → Node → Prop) : List Node → Prop
  | [] => True
  | n :: ns => Scalar C n ∧ ScalarAll C ns

def ScalarCases (C : Node → Node → Prop) : List (Node × Node) → Prop
  | [] => True
  | (c, x) :: rest => Scalar C c ∧ Scalar C x ∧ ScalarCases C rest

end

theorem Scalar.isQuery {C : Node → Node → Prop} {n : Node} (h : n.Scalar C) : n.isQuery = false := by
  cases n with
  | query => exact h.elim
  | _ => rfl

end Node

namespace Expression

/-- Two readers agree about columns, constants and functions of arguments. A default has to be null only
where the value is. -/
structure Reader.Pairs (I : Interpretation) (P : Workspace → Prop) (r s : Reader) : Prop where
  column : ∀ name, QueryEquiv.Pairs P (r.column (.str name)) (s.column (.str name)) I.Agree
  constant : ∀ v, QueryEquiv.Pairs P (r.constant v) (s.constant v) I.Agree
  function : ∀ op args args' whole, op ∉ Node.aggregateNames → List.Forall₂ (Argument.Pairs I P) args args' →
    (∀ a b rest, op = "ifnull" → args = a :: b :: rest → Backed I P a.reading b.reading) →
    QueryEquiv.Pairs P (r.function op args whole) (s.function op args' whole) I.Agree

variable {r s : Reader} {C : Node → Node → Prop} (hr : Reader.Pairs I P r s)
  (hC : ∀ x y, C x y → Backed I P (encode r x) (encode r y))
include hr hC

-- In a mutual block a variable that only the calls need counts as unused.
set_option linter.unusedSectionVars false in
mutual

/-- What two readers that agree read of an expression agrees. -/
theorem encode_pairs : (n : Node) → n.Scalar C → Pairs P (encode r n) (encode s n) I.Agree
  | .column name _, h => by
    obtain ⟨name, rfl⟩ := h
    exact hr.column name
  | .literal v _, _ => hr.constant v
  | .query .., h => h.elim
  | .caseWhen cs d _, h => by
    refine encodeCases_pairs ?_ cs h.1
    split
    · exact .pure same_respected.missing
    · exact (encode_pairs d h.2).bind fun _ _ ha ↦ asNumber_pairs same_respected ha
  | .expression op args byname, h => by
    cases op with
    | str op =>
      unfold encode
      split
      · exact (inTurn_pairs (readings_pairs args h.2.2)).bind fun _ _ hab ↦ .lift (same_respected.operate hab op)
      · refine hr.function op _ _ _ (fun hop ↦ h.1 op hop rfl) (arguments_pairs args h.2.2) ?_
        rintro a b rest rfl hargs
        obtain _ | ⟨x, _ | ⟨y, args⟩⟩ := args
        · cases hargs
        · cases hargs
        · cases hargs
          exact hC x y (h.2.1 rfl)
    | _ =>
      intro v a v' w b w' _ _ ha _
      obtain ⟨_, _, _, ha⟩ := bind_iff.1 ha
      exact absurd ha not_throw
  | .ifThen .., _ | .function _, _ | .operator _, _ | .filter .., _ | .project .., _ | .scan .., _
  | .join .., _ | .groupBy .., _ | .orderBy .., _ | .union .., _ | .mutated .., _ | .list _, _
  | .raw _, _ => .throw_left

theorem encodeCases_pairs {x y : Encoding Reading} (hxy : Pairs P x y I.Agree) :
    (cs : List (Node × Node)) → Node.ScalarCases C cs → Pairs P (encodeCases r x cs) (encodeCases s y cs) I.Agree
  | [], _ => hxy
  | (c, n) :: rest, h => by
    refine (encode_pairs c h.1).bind fun _ _ ha ↦ (asTruth_pairs same_respected ha).bind fun _ _ ha ↦ ?_
    refine (encode_pairs n h.2.1).bind fun _ _ hb ↦ (asNumber_pairs same_respected hb).bind fun _ _ hb ↦ ?_
    exact (encodeCases_pairs hxy rest h.2.2).bind fun _ _ hc ↦ .pure (same_respected.orElse ha.1 ha.2 hb hc)

theorem readings_pairs : (ns : List Node) → Node.ScalarAll C ns →
    Forall₂ (Pairs P · · I.Agree) (readings r ns) (readings s ns)
  | [], _ => .nil
  | n :: ns, h => .cons (encode_pairs n h.1) (readings_pairs ns h.2)

theorem arguments_pairs : (ns : List Node) → Node.ScalarAll C ns →
    Forall₂ (Argument.Pairs I P) (arguments r ns) (arguments s ns)
  | [], _ => .nil
  | n :: ns, h => .cons ⟨⟨rfl, encode_pairs n h.1⟩, h.1.isQuery⟩ (arguments_pairs ns h.2)

end

end Expression

end QueryEquiv
