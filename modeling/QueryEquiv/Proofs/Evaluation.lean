import QueryEquiv.Proofs.Reading
import QueryEquiv.Proofs.Sheets
import QueryEquiv.Proofs.ThreeValued

/-!
# The values of expressions

An expression without subqueries has a value at a row, by the rules of three-valued logic: `Node.value`
goes down the expression and asks only what its columns and its literals stand for. The reading of an
expression that is encoded at a row stands for this value, in every interpretation.

A column is looked up by its name, and the look-up is remembered; so the same name has to be shown to be
found again, whatever was looked up in between.
-/

namespace QueryEquiv

open Sql Catalog Outcome Gives List Workspace Expression

/-! ## Values -/

namespace Sql

variable {x : Option Int} {s name : String} {place : Nat} {col : Column}

/-- What the leaves of an expression stand for. -/
structure Environment where
  column : Value → Option Int
  constant : Value → Option Int

def function (name : String) (xs : List (Option Int)) : Option Int :=
  match name with
  | "is_null" | "isnull" => unary isNull xs
  | "is_not_null" => unary (negation ∘ isNull) xs
  | "between" => ternary between xs
  | "not_between" => ternary (fun v lo hi ↦ negation (between v lo hi)) xs
  | "ifnull" => binary (fun a b ↦ a.or b) xs
  | "coalesce" => coalesce xs
  | _ => none
where
  /-- A function of three operands. -/
  ternary (f : Option Int → Option Int → Option Int → Option Int) : List (Option Int) → Option Int
    | [a, b, c] => f a b c
    | _ => none

/-- The operator or the function of a name. -/
def apply (name : String) (xs : List (Option Int)) : Option Int :=
  if Node.isOperatorName name then operate name xs else function name xs

/-- The numbers of operands that an operator or a function takes. The connectives take any number; that
they take none is allowed for or not. -/
def takes (bare : Bool) (name : String) (count : Nat) : Prop :=
  match name with
  | "and" | "or" => count ≠ 0 ∨ bare = true
  | "coalesce" => count ≠ 0
  | "neg" | "not" | "is_null" | "isnull" | "is_not_null" => count = 1
  | "between" | "not_between" => count = 3
  | "ifnull" | "gt" | "gte" | "lt" | "lte" | "eq" | "neq" | "add" | "sub" | "mul" | "div" => count = 2
  | _ => False

end Sql

namespace Node

mutual

/-- The value of an expression. -/
def value (σ : Sql.Environment) : Node → Option Int
  | .column name _ => σ.column name
  | .literal v _ => σ.constant v
  | .caseWhen cs d _ => Sql.cases (if d.isMissing then none else value σ d) (caseValues σ cs)
  | .expression (.str name) args _ =>
    if name = "in" then memberValue σ args else Sql.apply name (values σ args)
  | _ => none

def values (σ : Sql.Environment) : List Node → List (Option Int)
  | [] => []
  | n :: ns => value σ n :: values σ ns

/-- The values of the conditions and of the results. -/
def caseValues (σ : Sql.Environment) : List (Node × Node) → List (Option Int × Option Int)
  | [] => []
  | (c, x) :: rest => (value σ c, value σ x) :: caseValues σ rest

def memberValue (σ : Sql.Environment) : List Node → Option Int
  | [x, ys] => Sql.among (value σ x) (itemValues σ ys)
  | _ => none

def itemValues (σ : Sql.Environment) : Node → List (Option Int)
  | .list ys => values σ ys
  | _ => []

end

theorem length_values (σ : Environment) (ns : List Node) : (values σ ns).length = ns.length := by
  induction ns with
  | nil => rfl
  | cons n ns ih => exact congrArg (· + 1) ih

mutual

/-- An expression without subqueries, of known columns, literals, operators and functions of values. -/
def Plain (bare : Bool) (known : Value → Prop) : Node → Prop
  | .column name _ => known name
  | .literal _ _ => True
  | .caseWhen cs d _ => PlainCases bare known cs ∧ (d.isMissing = false → Plain bare known d)
  | .expression (.str name) args _ =>
    if name = "in" then PlainMember bare known args
    else Sql.takes bare name args.length ∧ PlainAll bare known args
  | _ => False

def PlainAll (bare : Bool) (known : Value → Prop) : List Node → Prop
  | [] => True
  | n :: ns => Plain bare known n ∧ PlainAll bare known ns

def PlainCases (bare : Bool) (known : Value → Prop) : List (Node × Node) → Prop
  | [] => True
  | (c, x) :: rest => Plain bare known c ∧ Plain bare known x ∧ PlainCases bare known rest

/-- A membership test has a list of values on its right, which is not empty. -/
def PlainMember (bare : Bool) (known : Value → Prop) : List Node → Prop
  | [x, ys] => Plain bare known x ∧ PlainItems bare known ys
  | _ => False

def PlainItems (bare : Bool) (known : Value → Prop) : Node → Prop
  | .list ys => ys ≠ [] ∧ PlainAll bare known ys
  | _ => False

end

end Node

/-! ## Readers of values -/

namespace Expression

/-- An argument stands for a value wherever it is read. -/
structure Argument.Reads (I : Interpretation) (P : Workspace → Prop) (a : Argument) (x : Option Int) :
    Prop where
  value : a.node.isQuery = false
  reading : Keeps P a.reading (I.Reads · x)

/-- A reader whose columns, literals and functions stand for what an environment says. -/
structure Reader.Faithful (I : Interpretation) (P : Workspace → Prop) (σ : Sql.Environment)
    (known : Value → Prop) (r : Reader) : Prop where
  column : ∀ name, known name → Keeps P (r.column name) (I.Reads · (σ.column name))
  constant : ∀ v, Keeps P (r.constant v) (I.Reads · (σ.constant v))
  function : ∀ name args whole xs, Node.isOperatorName name = false →
    Sql.takes (!I.emptyOr) name args.length → List.Forall₂ (Argument.Reads I P) args xs →
    Keeps P (r.function name args whole) (I.Reads · (Sql.function name xs))
  member : ∀ a b whole x parts ys, Argument.Reads I P a x → b.members = some parts → ys ≠ [] →
    List.Forall₂ (fun p y ↦ Keeps P p (I.Reads · y)) parts ys →
    Keeps P (r.function "in" [a, b] whole) (I.Reads · (Sql.among x ys))

variable {I : Interpretation} {P : Workspace → Prop} {σ : Sql.Environment} {known : Value → Prop}
  {r : Reader}

theorem asNumber_reads {a : Reading} (h : I.Reads a x) : Keeps P (asNumber a) (I.Reads · x) := by
  refine (Keeps.lift fun t ht ↦ I.eval_ensureNumber ht).bind fun t ht ↦ .pure ⟨ht.2, h.null, ?_⟩
  rw [← h.read, Interpretation.read, Interpretation.read, ht.1]

theorem asTruth_reads {a : Reading} (h : I.Reads a x) :
    Keeps P (asTruth a) fun b ↦ ∃ y, I.Reads b y ∧ (IsTrue y ↔ IsTrue x) := by
  refine (Keeps.lift fun t ht ↦ I.holds_ensureTruth ht).bind fun t ht ↦ .pure ⟨_, ⟨ht.2, h.null, rfl⟩, ?_⟩
  rw [← h.read, I.isTrue_read, I.isTrue_read, ht.1]

theorem inTurn_reads {xs : List (Encoding Reading)} {vs : List (Option Int)}
    (h : Forall₂ (fun x v ↦ Keeps P x (I.Reads · v)) xs vs) : Keeps P (inTurn xs) fun rs ↦ Forall₂ I.Reads rs vs := by
  induction h with
  | nil => exact .pure .nil
  | cons hx _ ih => exact hx.bind fun r hr ↦ ih.bind fun rs hrs ↦ .pure (.cons hr hrs)

/-- Whatever takes operands takes one at least, if the connectives do. -/
theorem takes_ne_zero {bare : Bool} {count : Nat} (h : takes bare name count) : count ≠ 0 ∨ bare = true := by
  unfold takes at h
  split at h <;> simp_all

private theorem isQuery_of_plain {bare : Bool} {n : Node} (h : n.Plain bare known) : n.isQuery = false := by
  cases n with
  | query => exact h.elim
  | _ => rfl

section Encode

variable (hr : r.Faithful I P σ known)
include hr

-- In a mutual block a variable that only the calls need counts as unused.
set_option linter.unusedSectionVars false in
mutual

/-- The reading of an expression stands for its value. -/
theorem encode_reads : (n : Node) → n.Plain (!I.emptyOr) known → Keeps P (encode r n) (I.Reads · (n.value σ))
  | .column name _, h => hr.column name h
  | .literal v _, _ => hr.constant v
  | .caseWhen cs d _, h => by
    refine encodeCases_reads _ ?_ cs h.1
    by_cases hd : d.isMissing
    · rw [if_pos hd, if_pos hd]
      exact .pure .missing
    · rw [if_neg hd, if_neg hd]
      exact (encode_reads d (h.2 (by simpa using hd))).bind fun _ ha ↦ asNumber_reads ha
  | .expression (.str name) args byname, h => by
    rw [Node.Plain] at h
    rw [encode, Node.value]
    by_cases hin : name = "in"
    · subst hin
      rw [if_neg (by decide), if_pos rfl]
      rw [if_pos rfl] at h
      exact member_reads _ args h
    · rw [if_neg hin] at h ⊢
      rw [apply]
      by_cases hop : Node.isOperatorName name
      · rw [if_pos hop, if_pos hop]
        refine (inTurn_reads (readings_reads args h.2)).bind fun rs hrs ↦ .lift fun a ha ↦ ?_
        have hlen : rs.length = args.length := by rw [hrs.length_eq, Node.length_values]
        refine Interpretation.Reads.operate hrs ?_ ha
        simpa [← length_eq_zero_iff, hlen] using takes_ne_zero h.1
      · rw [if_neg hop, if_neg hop]
        have hargs := arguments_reads args h.2
        refine hr.function name _ _ _ (by simpa using hop) ?_ hargs
        rw [hargs.length_eq, Node.length_values]
        exact h.1

theorem encodeCases_reads (fallback : Encoding Reading) (hf : Keeps P fallback (I.Reads · x)) :
    (cs : List (Node × Node)) → Node.PlainCases (!I.emptyOr) known cs →
      Keeps P (encodeCases r fallback cs) (I.Reads · (cases x (Node.caseValues σ cs)))
  | [], _ => hf
  | (c, y) :: rest, h => by
    refine (encode_reads c h.1).bind fun a ha ↦ (asTruth_reads ha).bind fun a ⟨v, ha, hv⟩ ↦ ?_
    refine (encode_reads y h.2.1).bind fun b hb ↦ (asNumber_reads hb).bind fun b hb ↦ ?_
    refine (encodeCases_reads fallback hf rest h.2.2).bind fun c hc ↦ .pure ?_
    have := ha.orElse hb hc
    rwa [if_congr hv rfl rfl] at this

theorem readings_reads : (ns : List Node) → Node.PlainAll (!I.emptyOr) known ns →
    Forall₂ (fun p y ↦ Keeps P p (I.Reads · y)) (readings r ns) (Node.values σ ns)
  | [], _ => .nil
  | n :: ns, h => .cons (encode_reads n h.1) (readings_reads ns h.2)

theorem arguments_reads : (ns : List Node) → Node.PlainAll (!I.emptyOr) known ns →
    Forall₂ (Argument.Reads I P) (arguments r ns) (Node.values σ ns)
  | [], _ => .nil
  | n :: ns, h => .cons ⟨isQuery_of_plain h.1, encode_reads n h.1⟩ (arguments_reads ns h.2)

theorem member_reads (whole : Node) : (args : List Node) → Node.PlainMember (!I.emptyOr) known args →
    Keeps P (r.function "in" (arguments r args) whole) (I.Reads · (Node.memberValue σ args))
  | [x, ys], h => by
    obtain ⟨parts, hparts, hne, hreads⟩ := items_reads ys h.2
    exact hr.member _ _ whole _ parts _ ⟨isQuery_of_plain h.1, encode_reads x h.1⟩ hparts hne hreads

theorem items_reads : (n : Node) → Node.PlainItems (!I.emptyOr) known n →
    ∃ parts, memberReadings r n = some parts ∧ Node.itemValues σ n ≠ [] ∧
      Forall₂ (fun p y ↦ Keeps P p (I.Reads · y)) parts (Node.itemValues σ n)
  | .list ys, h => by
    refine ⟨readings r ys, rfl, ?_, readings_reads ys h.2⟩
    obtain ⟨y, ys, rfl⟩ := exists_cons_of_ne_nil h.1
    exact cons_ne_nil _ _

end

end Encode

/-! ## Functions at rows -/

section Functions

variable {members : Node → Encoding Nat} {a b c : Argument} {x y z : Option Int}

theorem nullness_reads (negated : Bool) (ha : a.Reads I P x) : Keeps P (nullness members negated [a])
      (I.Reads · (if negated then negation (isNull x) else isNull x)) := by
  refine (Keeps.pure (P := P) (a := a) (Q := (· = a)) rfl).bind fun _ hx ↦ ?_
  subst hx
  rw [if_neg (by simp [ha.value])]
  refine ha.reading.bind fun ⟨val, null⟩ hr ↦ .pure ?_
  have hnull : I.eval null = x.isNone.toInt := by
    refine I.eval_eq_toInt hr.null ?_
    rw [Option.isNone_iff_eq_none, ← hr.read, I.read_eq_none_iff]
  cases negated with
  | false => exact .certain (Term.isPlain_of_kind hr.null) (congrArg some hnull)
  | true =>
    refine .certain rfl ?_
    rw [if_pos rfl, if_pos rfl, I.eval_not, hnull]
    rfl

theorem range_reads {f : Reading → Reading → Reading → Outcome Reading}
    {g : Option Int → Option Int → Option Int → Option Int}
    (hf : ∀ {a b c r}, I.Reads a x → I.Reads b y → I.Reads c z → f a b c = .ok r → I.Reads r (g x y z))
    (ha : a.Reads I P x) (hb : b.Reads I P y) (hc : c.Reads I P z) :
    Keeps P (range f [a, b, c]) (I.Reads · (g x y z)) :=
  ha.reading.bind fun _ ha ↦ hb.reading.bind fun _ hb ↦ hc.reading.bind fun _ hc ↦
    .lift fun _ hr ↦ hf ha hb hc hr

theorem firstPresent_reads {args : List Argument} {xs : List (Option Int)}
    (h : Forall₂ (Argument.Reads I P) args xs) : Keeps P (firstPresent args) (I.Reads · (coalesce xs)) := by
  induction h with
  | nil => exact .throw
  | @cons a x as xs ha has ih =>
    have hcons : coalesce (x :: xs) = x.or (coalesce xs) := by
      cases x <;> rfl
    rw [hcons]
    cases has with
    | nil => simpa [firstPresent, coalesce] using ha.reading
    | cons hb hbs => exact ha.reading.bind fun _ ha ↦ ih.bind fun _ hb ↦ .pure (ha.orNext hb)

theorem membership_reads {parts : List (Encoding Reading)} {ys : List (Option Int)} (ha : a.Reads I P x)
    (hb : b.members = some parts) (hne : ys ≠ []) (h : Forall₂ (fun p y ↦ Keeps P p (I.Reads · y)) parts ys) :
    Keeps P (membership members false [a, b]) (I.Reads · (among x ys)) := by
  refine (Keeps.pure (P := P) (a := b) (Q := (· = b)) rfl).bind fun _ hx ↦ ?_
  subst hx
  refine (Keeps.pure (P := P) (a := a) (Q := (· = a)) rfl).bind fun _ hx ↦ ?_
  subst hx
  rw [hb]
  refine ha.reading.bind fun l hl ↦ (inTurn_reads h).bind fun rs hrs ↦ .lift fun r hr ↦ hl.among hrs ?_ hr
  rintro rfl
  exact hne (forall₂_nil_left_iff.1 hrs)

theorem rowFunction_reads {rows : Encoding Nat} {args : List Argument} {xs : List (Option Int)} (whole : Node)
    (hname : Node.isOperatorName name = false) (ht : takes (!I.emptyOr) name args.length)
    (h : Forall₂ (Argument.Reads I P) args xs) :
    Keeps P (rowFunction members rows name args whole) (I.Reads · (function name xs)) := by
  unfold takes at ht
  split at ht
  case h_3 => exact firstPresent_reads h
  case h_6 | h_7 =>
    obtain ⟨a, rfl⟩ := length_eq_one_iff.1 ht
    obtain _ | ⟨ha, ⟨⟩⟩ := h
    exact nullness_reads false ha
  case h_8 =>
    obtain ⟨a, rfl⟩ := length_eq_one_iff.1 ht
    obtain _ | ⟨ha, ⟨⟩⟩ := h
    exact nullness_reads true ha
  case h_9 =>
    obtain ⟨a, b, c, rfl⟩ := length_eq_three.1 ht
    obtain _ | ⟨ha, _ | ⟨hb, _ | ⟨hc, ⟨⟩⟩⟩⟩ := h
    exact range_reads Interpretation.Reads.between ha hb hc
  case h_10 =>
    obtain ⟨a, b, c, rfl⟩ := length_eq_three.1 ht
    obtain _ | ⟨ha, _ | ⟨hb, _ | ⟨hc, ⟨⟩⟩⟩⟩ := h
    exact range_reads (g := fun v lo hi ↦ negation (between v lo hi)) Interpretation.Reads.notBetween
      ha hb hc
  case h_11 =>
    obtain ⟨a, b, rfl⟩ := length_eq_two.1 ht
    obtain _ | ⟨ha, _ | ⟨hb, ⟨⟩⟩⟩ := h
    exact ha.reading.bind fun _ ha ↦ hb.reading.bind fun _ hb ↦ .pure (ha.orNext hb)
  case h_22 => exact ht.elim
  all_goals cases hname

end Functions

end Expression

/-! ## Names that are looked up again -/

namespace Catalog

variable {c d : Catalog}

mutual

private theorem sameTable_congr (h : c.tables = d.tables) :
    (fuel p q : Nat) → sameTable c fuel p q = sameTable d fuel p q
  | 0, _, _ => by rw [sameTable, sameTable]
  | fuel + 1, p, q => by
    rw [sameTable, sameTable, table_congr h, table_congr h]
    simp only [sameAncestors_congr h fuel]

private theorem sameAncestors_congr (h : c.tables = d.tables) (fuel : Nat) (as bs : List Ancestor) :
    sameAncestors c fuel as bs = sameAncestors d fuel as bs := by
  rw [sameAncestors, sameAncestors, sameEach_congr h fuel]

private theorem sameEach_congr (h : c.tables = d.tables) (fuel : Nat) :
    (as bs : List Ancestor) → sameEach c fuel as bs = sameEach d fuel as bs
  | .one p :: as, .one q :: bs => by
    rw [sameEach, sameEach, sameTable_congr h fuel, sameEach_congr h fuel as bs]
  | .several ps :: as, .several qs :: bs => by
    rw [sameEach, sameEach, samePairs_congr h fuel ps qs, sameEach_congr h fuel as bs]
  | [], [] | [], _ :: _ | _ :: _, [] | .one _ :: _, .several _ :: _ | .several _ :: _, .one _ :: _ => by
    rw [sameEach, sameEach] <;> simp

private theorem samePairs_congr (h : c.tables = d.tables) (fuel : Nat) :
    (ps qs : List Nat) → samePairs c fuel ps qs = samePairs d fuel ps qs
  | p :: ps, q :: qs => by
    rw [samePairs, samePairs, sameTable_congr h fuel, samePairs_congr h fuel ps qs]
  | [], _ => by rw [samePairs, samePairs] <;> simp
  | _ :: _, [] => by rw [samePairs, samePairs] <;> simp

end

theorem recollect_congr (h : c.tables = d.tables) (place : Nat) (item : Value) (l : List Remembered) :
    recollect c place item l = recollect d place item l := by
  induction l with
  | nil => rfl
  | cons r l ih =>
    rw [recollect, recollect, table_congr h, table_congr h, ih, same, same, sameTable_congr h]

/-- Later look-ups are asked when the earlier ones do not answer. -/
theorem recollect_append (c : Catalog) (place : Nat) (item : Value) (l m : List Remembered) :
    recollect c place item (l ++ m) = recollect c place item l >>= fun o ↦
      o.elim (recollect c place item m) (pure ∘ some) := by
  induction l with
  | nil => rfl
  | cons r l ih =>
    rw [cons_append, recollect, recollect, ih]
    split
    · split
      · rfl
      · cases c.same r.place place with
        | error e => rfl
        | ok b => cases b <;> rfl
    · rfl

/-- What comes of looking a text up in a table. -/
def answer (c : Catalog) (place : Nat) (s : String) : Outcome Column := Prod.fst <$> c.lookup place (.str s)

theorem answer_eq (c : Catalog) (place : Nat) (s : String) :
    c.answer place s = recollect c place (.str s) c.remembered >>= fun o ↦
      o.elim ((c.table place).column (.str s)) pure := by
  unfold answer lookup
  rw [if_neg (by simp [Value.isKey])]
  rcases recollect c place (.str s) c.remembered with e | _ | col
  · rfl
  · cases (c.table place).column (.str s) <;> rfl
  · rfl

/-- A look-up that succeeds does not change what comes of others. -/
theorem answer_again (h : c.lookup place (.str s) = .ok (col, d))
    (s' : String) : d.answer place s' = c.answer place s' := by
  unfold lookup at h
  rw [if_neg (by simp [Value.isKey])] at h
  obtain ⟨r, hr, h⟩ := bind_ok_iff.1 h
  split at h
  · obtain ⟨-, rfl⟩ := Prod.mk.inj (pure_ok_iff.1 h)
    rfl
  obtain ⟨e, he, h⟩ := bind_ok_iff.1 h
  obtain ⟨rfl, rfl⟩ := Prod.mk.inj (pure_ok_iff.1 h)
  -- The new look-up is asked last, and answers for its own name only.
  have hcongr (l : List Remembered) := recollect_congr
    (c := { c with remembered := c.remembered ++ [⟨place, .str s, col⟩] }) (d := c) rfl place (.str s') l
  rw [answer_eq, answer_eq, recollect_append, hcongr, hcongr]
  rcases recollect c place (.str s') c.remembered with e | _ | col'
  · rfl
  · by_cases hs : s = s'
    · subst hs
      simp [recollect, Value.same, bind, Except.bind, pure, Except.pure, he]
    · simp [recollect, Value.same, hs, bind, Except.bind, table]
  · rfl

/-- A name is found in a table. -/
def Finds (c : Catalog) (place : Nat) (item : Value) (col : Column) : Prop :=
  ∃ d, c.lookup place item = .ok (col, d)

theorem finds_iff : c.Finds place (.str s) col ↔ c.answer place s = .ok col := by
  unfold Finds answer
  cases c.lookup place (.str s) with
  | error e => simp [Functor.map, Except.map]
  | ok found => simp [Functor.map, Except.map, Prod.ext_iff]

/-- What was found before is found after another look-up. -/
theorem Finds.again {s' : String} {col' : Column} (h : c.lookup place (.str s) = .ok (col, d))
    (h' : c.Finds place (.str s') col') : d.Finds place (.str s') col' := by
  rw [finds_iff, answer_again h, ← finds_iff]
  exact h'

end Catalog

/-- The code of a text is not changed by coding another. -/
theorem Codes.encode_fst_again (codes : Codes) (s t : String) :
    ((codes.encode t).2.encode s).1 = (codes.encode s).1 := by
  unfold Codes.encode
  cases ht : codes.ofText.lookup t with
  | some n => rfl
  | none =>
    dsimp only
    rw [lookup_append, lookup_cons]
    cases hs : codes.ofText.lookup s with
    | some n => rfl
    | none =>
      by_cases hst : s = t
      · simp [hst]
      · simp [beq_false_of_ne hst]

theorem Database.cell_touch (db : Database) (t : Int) : (db.touch t).cell = db.cell := by
  funext table row column
  have hplaces : (db.touch t).place? table = db.place? table := by
    unfold touch
    split <;> rfl
  rw [cell, cell, rowsOf_touch, hplaces]

/-! ## Expressions at rows -/

namespace Workspace

def cellNamed (w : Workspace) (place : Nat) (row : Int) (name : Value) : Option Reading :=
  (exec (cellReading place row name) w).1.toOption

/-- A text that names a cell of a table at a row. -/
def Names (w : Workspace) (place : Nat) (row : Int) (name : Value) : Prop :=
  ∃ s, name = .str s ∧ (w.cellNamed place row name).isSome

/-- The number that a literal stands for: a text its code, a date its days and a time its seconds. -/
def constantValue (w : Workspace) (conv : Conventions) : Value → Option Int
  | .bool b => some b.toInt
  | .int n => some n
  | .float x => some (conv.constant (.float x))
  | .str s => some (w.codes.encode s).1
  | .date d => some d.days
  | .time t => some t.seconds
  | _ => none

/-- What columns and literals stand for at a row of a table. -/
def environment (w : Workspace) (I : Interpretation) (place : Nat) (row : Int) : Sql.Environment where
  column name := (w.cellNamed place row name).bind I.read
  constant := w.constantValue I.toConventions

end Workspace

/-- A workspace in which everything that another finds in a table is found alike. -/
structure Undisturbed (w₀ : Workspace) (place : Nat) (w : Workspace) : Prop where
  tables : w.catalog.tables = w₀.catalog.tables
  finds : ∀ s col, w₀.catalog.Finds place (.str s) col → w.catalog.Finds place (.str s) col
  cell : w.database.cell = w₀.database.cell
  code : ∀ s, (w.codes.encode s).1 = (w₀.codes.encode s).1

theorem Undisturbed.refl (w : Workspace) (place : Nat) : Undisturbed w place w :=
  ⟨rfl, fun _ _ h ↦ h, rfl, fun _ ↦ rfl⟩

namespace Expression

section Again

variable {P : Workspace → Prop} {w₀ : Workspace}

theorem table_again (hP : ∀ w, P w → w.catalog.tables = w₀.catalog.tables) (p : Nat) :
    Keeps P (table p) (· = w₀.catalog.table p) := by
  intro w t w' hw hg
  obtain ⟨rfl, rfl⟩ := table_gives.1 hg
  exact ⟨hw, table_congr (hP _ hw) p⟩

theorem contains_again (hP : ∀ w, P w → w.catalog.tables = w₀.catalog.tables) (g : GroupOfRows) (row : Nat) :
    Keeps P (g.contains row) (· = .grouping (w₀.catalog.table g.groups).id row g.group) :=
  (table_again hP g.groups).bind fun _ ht ↦ .pure (by rw [ht])

/-- A text is coded alike as long as the codes of all texts stay. -/
theorem code_again (hP : ∀ w, P w → ∀ s, (w.codes.encode s).1 = (w₀.codes.encode s).1)
    (hcodes : ∀ w codes, P w → (∀ s, (codes.encode s).1 = (w₀.codes.encode s).1) → P { w with codes }) (s : String) :
    Keeps P (code (.str s)) (· = (w₀.codes.encode s).1) := by
  intro w n v hw hg
  simp only [code, bind_iff, get_iff, set_iff, pure_iff] at hg
  obtain ⟨_, _, ⟨rfl, rfl⟩, _, _, rfl, rfl, rfl⟩ := hg
  exact ⟨hcodes _ _ hw fun t ↦ (Codes.encode_fst_again _ t _).trans (hP _ hw t), hP _ hw s⟩

end Again

variable {w w' : Workspace} {place : Nat} {row : Int} {name : Value} {a : Reading}

theorem column_gives_iff : Gives (column place name) w col w' ↔
    ∃ catalog, w.catalog.lookup place name = .ok (col, catalog) ∧ w' = { w with catalog } := by
  simp only [column, bind_iff, get_iff, lift_iff, modify_iff]
  constructor
  · rintro ⟨_, _, ⟨rfl, rfl⟩, ⟨c, catalog⟩, _, ⟨h, rfl⟩, ⟨⟩, _, rfl, hpure⟩
    obtain ⟨rfl, rfl⟩ := pure_iff.1 hpure
    exact ⟨catalog, h, rfl⟩
  · rintro ⟨catalog, h, rfl⟩
    exact ⟨_, _, ⟨rfl, rfl⟩, (col, catalog), _, ⟨h, rfl⟩, ⟨⟩, _, rfl, pure_iff.2 ⟨rfl, rfl⟩⟩

theorem cell_gives_iff {t r c : Int} {x : Cell} : Gives (cell t r c) w x w' ↔
    w.database.cell t r c = .ok (some x) ∧ w' = { w with database := w.database.touch t } := by
  simp only [cell, cell?, bind_iff, get_iff, lift_iff, modify_iff]
  constructor
  · rintro ⟨o, _, ⟨⟨⟩, _, rfl, _, _, ⟨rfl, rfl⟩, hcell, rfl⟩, hx⟩
    rw [Database.cell_touch] at hcell
    cases o with
    | none => exact absurd hx not_throw
    | some y =>
      obtain ⟨rfl, rfl⟩ := pure_iff.1 hx
      exact ⟨hcell, rfl⟩
  · rintro ⟨hcell, rfl⟩
    refine ⟨some x, _, ⟨⟨⟩, _, rfl, _, _, ⟨rfl, rfl⟩, ?_, rfl⟩, pure_iff.2 ⟨rfl, rfl⟩⟩
    rw [Database.cell_touch, hcell]

theorem cellReading_gives_iff : Gives (cellReading place row name) w a w' ↔
    ∃ col catalog x, w.catalog.lookup place name = .ok (col, catalog) ∧
      w.database.cell (w.catalog.table place).id row col.id = .ok (some x) ∧ a = (x.val, x.isNull) ∧
      w' = { w with catalog, database := w.database.touch (w.catalog.table place).id } := by
  simp only [cellReading, bind_iff, column_gives_iff, table_gives, cell_gives_iff, pure_iff]
  constructor
  · rintro ⟨col, _, ⟨catalog, hlookup, rfl⟩, _, _, ⟨rfl, rfl⟩, x, _, ⟨hcell, rfl⟩, rfl, rfl⟩
    dsimp only at hcell ⊢
    rw [table_congr (lookup_tables hlookup)] at hcell ⊢
    exact ⟨col, catalog, x, hlookup, hcell, rfl, rfl⟩
  · rintro ⟨col, catalog, x, hlookup, hcell, rfl, rfl⟩
    rw [← table_congr (lookup_tables hlookup)] at hcell ⊢
    exact ⟨col, _, ⟨catalog, hlookup, rfl⟩, _, _, ⟨rfl, rfl⟩, x, _, ⟨hcell, rfl⟩, rfl, rfl⟩

theorem cellReading_again {w₀ : Workspace} (hw : Undisturbed w₀ place w)
    (hs : w₀.cellNamed place row (.str s) = some a) : a.1.isPlain = false ∧ a.2.kind = .ok (some .truth) ∧
      ∃ w', Gives (cellReading place row (.str s)) w a w' ∧ Undisturbed w₀ place w' := by
  obtain ⟨col, catalog, x, hlookup, hcell, rfl, -⟩ := cellReading_gives_iff.1 (of_toOption hs)
  obtain ⟨d, hd⟩ := hw.finds s col ⟨catalog, hlookup⟩
  have htable := table_congr hw.tables place
  refine ⟨rfl, rfl, _, cellReading_gives_iff.2 ⟨col, d, x, hd, ?_, rfl, rfl⟩, ?_⟩
  · rw [hw.cell, htable, hcell]
  · refine ⟨(lookup_tables hd).trans hw.tables, fun s' col' h ↦ ?_, ?_, hw.code⟩
    · exact (hw.finds s' col' h).again hd
    · rw [Database.cell_touch, hw.cell]

theorem atRow_faithful (sub : Subquery) (w₀ : Workspace) (place : Nat) (row : Int) (outer : Option Int)
    (targets : Option (List Node)) (reader depth : Nat) (I : Interpretation) :
    (atRow sub place row outer targets reader (depth + 1)).Faithful I (Undisturbed w₀ place)
      (w₀.environment I place row) (w₀.Names place row) where
  column := by
    rintro _ ⟨s, rfl, hs⟩ w b v hw hg
    obtain ⟨a, ha⟩ := Option.isSome_iff_exists.1 hs
    obtain ⟨hterm, hnull, w', hcell, hw'⟩ := cellReading_again hw ha
    have hfound : Gives (cellReading? place row (.str s)) w (some a) w' := by
      unfold Gives cellReading?
      rw [exec_tryCatch, exec_bind, hcell]
      rfl
    obtain ⟨rfl, rfl⟩ := hg.unique (bind_iff.2 ⟨_, _, hfound, pure_iff.2 ⟨rfl, rfl⟩⟩)
    exact ⟨hw', hterm, hnull, (congrArg (·.bind I.read) ha).symm⟩
  constant := by
    intro v
    cases v with
    | null => exact .pure .missing
    | bool b => exact .pure (.certain rfl (by cases b <;> rfl))
    | int n => exact .pure (.certain rfl rfl)
    | float x => exact .pure (.certain rfl rfl)
    | str s =>
      exact (code_again (fun _ hw ↦ hw.code) (fun _ _ hw hcode ↦ ⟨hw.tables, hw.finds, hw.cell, hcode⟩) s).bind
        fun n hn ↦ .pure (.certain rfl (congrArg some hn))
    | date d => exact .pure (.certain rfl rfl)
    | time t => exact .pure (.certain rfl rfl)
    | list _ => exact .throw
    | object _ => exact .throw
    | inline _ _ _ => exact .throw
  function := fun _ _ whole _ hname ht h ↦ rowFunction_reads whole hname ht h
  member := fun _ _ _ _ _ _ ha hb hne h ↦ membership_reads ha hb hne h

end Expression

namespace Interpretation

theorem read_cell (I : Interpretation) (x : Cell) : I.read (x.val, x.isNull) = I.value x := by
  rw [read, value, held]
  simp [Cell.val, Cell.isNull]

/-- The number that is stored under a null is not seen in the cells of a row. -/
theorem environment_congr {I J : Interpretation} (hconv : J.toConventions = I.toConventions)
    (hheld : ∀ t i c, J.held t i c = I.held t i c) (w : Workspace) (place : Nat) (row : Int) :
    w.environment J place row = w.environment I place row := by
  rw [environment, environment, hconv]
  congr 1
  funext name
  cases h : w.cellNamed place row name with
  | none => rfl
  | some a =>
    obtain ⟨_, _, x, -, -, rfl, -⟩ := cellReading_gives_iff.1 (of_toOption h)
    rw [Option.bind_some, Option.bind_some, read_cell, read_cell, value, value, hheld]

end Interpretation

/-- The reading of an expression at a row is null exactly if the value of the expression is, and otherwise
it is this value. So it does not depend on what is stored under a null. -/
theorem encode_atRow_eq_value {sub : Subquery} {place : Nat} {row : Int} {outer : Option Int}
    {targets : Option (List Node)} {reader depth : Nat} {n : Node} {w w' : Workspace} {r : Reading}
    (hrun : Gives (encode (atRow sub place row outer targets reader (depth + 1)) n) w r w')
    (I : Interpretation) (hn : n.Plain (!I.emptyOr) (w.Names place row)) :
    (I.Holds r.2 ↔ n.value (w.environment I place row) = none) ∧
      (¬ I.Holds r.2 → n.value (w.environment I place row) = some (I.eval r.1)) ∧
      ∀ J : Interpretation, J.toConventions = I.toConventions →
        (∀ t i c, J.held t i c = I.held t i c) → J.read r = I.read r := by
  have hread (J : Interpretation) (hJ : J.emptyOr = I.emptyOr) :
      J.read r = n.value (w.environment J place row) := by
    have hfaithful := atRow_faithful sub w place row outer targets reader depth J
    exact (encode_reads hfaithful n (hJ ▸ hn) (.refl w place) hrun).2.read
  refine ⟨?_, fun hnull ↦ ?_, fun J hconv hheld ↦ ?_⟩
  · rw [← hread I rfl, I.read_eq_none_iff]
  · rw [← hread I rfl, I.read_eq_some_iff]
    exact ⟨hnull, rfl⟩
  · rw [hread J (congrArg (·.emptyOr) hconv), hread I rfl, Interpretation.environment_congr hconv hheld]

/-- A table of two columns and two rows. -/
def pairedTable : Workspace where
  catalog := { tables := #[
    { id := 0, name := .str "t", bound := .int 2,
      columns := [.computed 0 (.str "a") .null, .computed 1 (.str "b") .null] }] }
  database := { places := [(0, 0)], rows := [(0,
    #[#[some ⟨0, 0, 0⟩, some ⟨0, 0, 1⟩], #[some ⟨0, 1, 0⟩, some ⟨0, 1, 1⟩]])] }
  lastTable := 0

/-- `CASE WHEN b IS NULL OR a BETWEEN 1 AND b THEN COALESCE(a / b, 7) WHEN NOT a IN (1, b) THEN IFNULL(a, -b) END` -/
def quotientCase : Node :=
  let call (name : String) (args : List Node) : Node := .expression (.str name) args .null
  let small := call "or" [call "is_null" [.attr "b"], call "between" [.attr "a", .lit (.int 1), .attr "b"]]
  let quotient := call "coalesce" [call "div" [.attr "a", .attr "b"], .lit (.int 7)]
  let other := call "not" [call "in" [.attr "a", .list [.lit (.int 1), .attr "b"]]]
  .caseWhen [(small, quotient), (other, call "ifnull" [.attr "a", call "neg" [.attr "b"]])] .missing .null

theorem pairedTable_names (h : s = "a" ∨ s = "b") : pairedTable.Names 0 1 (.str s) := by
  obtain rfl | rfl := h
  · exact ⟨_, rfl, by decide +kernel⟩
  · exact ⟨_, rfl, by decide +kernel⟩

/-- An expression with a quotient that may be null is read at the second row. -/
theorem quotientCase_read : ∃ r w', Gives (encode (atRow (Query.nested 3) 0 1 none none 0 200) quotientCase)
    pairedTable r w' ∧ ∀ I : Interpretation,
      (I.Holds r.2 ↔ quotientCase.value (pairedTable.environment I 0 1) = none) ∧
      (¬ I.Holds r.2 → quotientCase.value (pairedTable.environment I 0 1) = some (I.eval r.1)) ∧
      ∀ J : Interpretation, J.toConventions = I.toConventions →
        (∀ t i c, J.held t i c = I.held t i c) → J.read r = I.read r := by
  have hsome : (exec (encode (atRow (Query.nested 3) 0 1 none none 0 200) quotientCase)
      pairedTable).1.toOption.isSome := by decide +kernel
  obtain ⟨r, hr⟩ := Option.isSome_iff_exists.1 hsome
  refine ⟨r, _, .of_toOption hr, fun I ↦ encode_atRow_eq_value (.of_toOption hr) I ?_⟩
  have ha := pairedTable_names (.inl rfl)
  have hb := pairedTable_names (.inr rfl)
  simp [quotientCase, Node.attr, Node.lit, Node.Plain, Node.PlainCases, Node.PlainAll, Node.PlainMember,
    Node.PlainItems, takes, Node.missing, Node.isMissing, ha, hb]

/-! ## Aggregates at rows -/

namespace Sql

/-- An aggregate of values, in which nulls do not count; a distinct one counts equal values once. -/
def aggregate (name : String) (distinct : Bool) (xs : List (Option Int)) : Option Int :=
  let ns := if distinct then xs.reduceOption.dedup else xs.reduceOption
  match name with
  | "count" => some ns.length
  | "min" => ns.min?
  | "max" => ns.max?
  | "sum" => if ns = [] then none else some ns.sum
  | "avg" => if ns = [] then none else some (ns.sum / ns.length)
  | _ => none

/-- A count is never null, and the other aggregates are if there is no value. -/
theorem aggregate_eq_none_iff (hname : name ∈ Node.aggregateNames) (distinct : Bool) (xs : List (Option Int)) :
    aggregate name distinct xs = none ↔ name ≠ "count" ∧ ∀ x ∈ xs, x = none := by
  have hnil : (if distinct then xs.reduceOption.dedup else xs.reduceOption) = [] ↔ ∀ x ∈ xs, x = none := by
    have hred : xs.reduceOption = [] ↔ ∀ x ∈ xs, x = none := by
      simp [reduceOption]
    split
    · rw [dedup_eq_nil, hred]
    · exact hred
  simp only [Node.aggregateNames, mem_cons, not_mem_nil, or_false] at hname
  obtain rfl | rfl | rfl | rfl | rfl := hname <;> simp [aggregate, hnil]

end Sql

/-- An aggregate over a column that is read at a row of a table, not in a group, is null whatever the table
holds. So it is the aggregate of the column over the rows that are there only if the column has no value
in them, and a count never is. -/
theorem aggregate_atRow_eq_iff {w : Workspace} {place : Nat} {s : Results.Shape}
    (hs : Results.Shape.ofTable (w.catalog.table place) = .ok s) {name : String}
    (hname : name ∈ Node.aggregateNames) (sub : Subquery) (row : Int) (outer : Option Int)
    (targets : Option (List Node)) (reader depth : Nat) (distinct : Bool) (column : String) :
    Gives (encode (atRow sub place row outer targets reader (depth + 1))
        (.expression (.str name) [.raw (.bool distinct), .attr column] .null)) w Reading.missing w ∧
      ∀ I : Interpretation, I.read Reading.missing =
          Sql.aggregate name distinct ((I.rowsThere s).map fun (i : Nat) ↦
            (w.environment I place i).column (.str column)) ↔
        name ≠ "count" ∧ ∀ i ∈ I.rowsThere s, (w.environment I place i).column (.str column) = none := by
  obtain ⟨-, hrows, -⟩ := Results.Shape.ofTable_ok_iff.1 hs
  refine ⟨?_, fun I ↦ ?_⟩
  · have hmissing : Gives (do let _ ← (do (← table place).rows : Encoding Nat); return Reading.missing) w
        Reading.missing w := by
      simp only [bind_iff, table_gives, lift_iff, pure_iff]
      exact ⟨s.rows, w, ⟨_, _, ⟨rfl, rfl⟩, hrows, rfl⟩, trivial, rfl⟩
    simp only [Node.aggregateNames, mem_cons, not_mem_nil, or_false] at hname
    obtain rfl | rfl | rfl | rfl | rfl := hname <;> exact hmissing
  · rw [I.read_missing, eq_comm, aggregate_eq_none_iff hname, forall_mem_map]

/-- The count of a column of two rows is read as a null. -/
theorem pairedTable_count :
    Gives (encode (atRow (Query.nested 3) 0 0 none none 0 200)
        (.expression (.str "count") [.raw (.bool false), .attr "a"] .null)) pairedTable Reading.missing pairedTable ∧
      ∀ I : Interpretation, I.read Reading.missing =
          Sql.aggregate "count" false ((I.rowsThere ⟨0, 2, [0, 1]⟩).map fun (i : Nat) ↦
            (pairedTable.environment I 0 i).column (.str "a")) ↔
        "count" ≠ "count" ∧ ∀ i ∈ I.rowsThere ⟨0, 2, [0, 1]⟩,
          (pairedTable.environment I 0 i).column (.str "a") = none :=
  aggregate_atRow_eq_iff rfl (by decide) _ _ _ _ _ 199 false "a"

end QueryEquiv
