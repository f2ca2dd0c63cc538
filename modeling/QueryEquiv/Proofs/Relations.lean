import QueryEquiv.Encode.Group
import QueryEquiv.Proofs.Running

/-!
# Operations on related readings

The operations on readings put together the terms of their operands. So if a relation of terms goes well with the
ways to put terms together, related operands lead to related results, as far as there are results: an operation may
fail on one side only. Beside values there are truth values, which are values too, and conditions, of which it matters
only whether they hold.

A property of terms is a relation too, of terms that both have it.
-/

namespace QueryEquiv

open Gives List

namespace Outcome

variable {e : Fault} {s t : Term}

variable {α β γ δ : Type} {R : α → β → Prop} {S : γ → δ → Prop}

/-- Where two computations both succeed, their results are related. -/
def Both (R : α → β → Prop) (x : Outcome α) (y : Outcome β) : Prop := ∀ ⦃a b⦄, x = .ok a → y = .ok b → R a b

namespace Both

theorem pure {a : α} {b : β} (h : R a b) : Both R (pure a) (pure b) := by
  intro a' b' ha hb
  rwa [pure_ok_iff.1 ha, pure_ok_iff.1 hb]

theorem error {y : Outcome β} : Both R (.error e) y := fun _ _ h ↦ nomatch h

theorem bind {x : Outcome α} {y : Outcome β} {f : α → Outcome γ} {g : β → Outcome δ} (h : Both R x y)
    (hfg : ∀ a b, R a b → Both S (f a) (g b)) : Both S (x >>= f) (y >>= g) := by
  intro c d hc hd
  obtain ⟨a, ha, hc⟩ := bind_ok_iff.1 hc
  obtain ⟨b, hb, hd⟩ := bind_ok_iff.1 hd
  exact hfg a b (h ha hb) hc hd

theorem mapM {f : α → Outcome γ} {g : β → Outcome δ} (hfg : ∀ a b, R a b → Both S (f a) (g b)) {l : List α}
    {l' : List β} (h : Forall₂ R l l') : Both (Forall₂ S) (l.mapM f) (l'.mapM g) := by
  induction h with
  | nil => exact .pure .nil
  | cons hab _ ih =>
    rw [mapM_cons, mapM_cons]
    exact (hfg _ _ hab).bind fun _ _ hc ↦ ih.bind fun _ _ hcs ↦ .pure (.cons hc hcs)

theorem foldlM {f : α → γ → Outcome α} {g : β → δ → Outcome β}
    (hfg : ∀ a b c d, R a b → S c d → Both R (f a c) (g b d)) {l : List γ} {l' : List δ} (h : Forall₂ S l l')
    {a : α} {b : β} (hab : R a b) : Both R (l.foldlM f a) (l'.foldlM g b) := by
  induction h generalizing a b with
  | nil => exact .pure hab
  | cons hcd _ ih =>
    rw [foldlM_cons, foldlM_cons]
    exact (hfg _ _ _ _ hab hcd).bind fun _ _ hab ↦ ih hab

end Both

end Outcome

open Outcome (Both)

theorem forall₂_zip_zip {α β γ δ : Type} {R : α → β → Prop} {S : γ → δ → Prop} {as : List α} {bs : List β} {cs : List γ}
    {ds : List δ} (h : Forall₂ R as bs) (h' : Forall₂ S cs ds) :
    Forall₂ (fun x y ↦ R x.1 y.1 ∧ S x.2 y.2) (as.zip cs) (bs.zip ds) := by
  induction h generalizing cs ds with
  | nil => exact .nil
  | cons hab _ ih =>
    obtain _ | ⟨hcd, hrest⟩ := h'
    · exact .nil
    · exact .cons ⟨hab, hcd⟩ (ih hrest)

/-- Relations of values, of truth values and of conditions that go well with the ways to put terms together. -/
structure Term.Respected (V T C : Term → Term → Prop) : Prop where
  value : ∀ {a b}, T a b → V a b
  condition : ∀ {a b}, V a b → C a b
  int : ∀ v, V (.int v) (.int v)
  bool : ∀ v, T (.bool v) (.bool v)
  number : ∀ {a b}, V a b → Both V a.ensureNumber b.ensureNumber
  truth : ∀ {a b}, V a b → Both C a.ensureTruth b.ensureTruth
  compare : ∀ op {a a' b b'}, V a a' → V b b' → Both V (compare op a b) (compare op a' b')
  compute : ∀ op {a a' b b'}, V a a' → V b b' → Both V (compute op a b) (compute op a' b')
  negate : ∀ {a b}, V a b → Both V a.negate b.negate
  arith : ∀ op {a a' b b'}, V a a' → V b b' → V (.arith op a b) (.arith op a' b')
  not : ∀ {a b}, C a b → T (.not a) (.not b)
  and : ∀ {ts us}, List.Forall₂ C ts us → T (.and ts) (.and us)
  or : ∀ {ts us}, List.Forall₂ C ts us → T (.or ts) (.or us)
  implies : ∀ {a a' b b'}, C a a' → C b b' → T (.implies a b) (.implies a' b')
  ite : ∀ {c c' a a' b b'}, C c c' → V a a' → V b b' → V (.ite c a b) (.ite c' a' b')
  choice : ∀ {c c' a a' b b'}, C c c' → T a a' → T b b' → T (.ite c a b) (.ite c' a' b')

structure Term.Unknowns (V T : Term → Term → Prop) (table : Int) : Prop where
  cell : ∀ r c, V (.cell table r c) (.cell table r c)
  null : ∀ r c, T (.null table r c) (.null table r c)
  deleted : ∀ r, T (.deleted table r) (.deleted table r)

/-- Values and nulls are related. -/
def Reading.Related (V T : Term → Term → Prop) (a b : Reading) : Prop := V a.1 b.1 ∧ T a.2 b.2

structure Contribution.Related (V T : Term → Term → Prop) (x y : Contribution) : Prop where
  val : V x.val y.val
  null : T x.null y.null
  flag : T x.flag y.flag

namespace Term.Respected

open Reading (Related)

variable {V T C : Term → Term → Prop} (h : Respected V T C) {a a' b b' c c' : Reading} {args args' : List Reading}
include h

theorem and₂ {s' t' : Term} (hs : C s s') (ht : C t t') : T (.and [s, t]) (.and [s', t']) :=
  h.and (.cons hs (.cons ht .nil))

theorem or₂ {s' t' : Term} (hs : C s s') (ht : C t t') : T (.or [s, t]) (.or [s', t']) :=
  h.or (.cons hs (.cons ht .nil))

theorem holds (hst : T s t) : C s t := h.condition (h.value hst)

theorem absent (hst : T s t) : C (.not s) (.not t) := h.holds (h.not (h.holds hst))

theorem negated (hst : V s t) : C (.not s) (.not t) := h.holds (h.not (h.condition hst))

theorem certain {u : Term} (htu : V t u) : Related V T (Reading.certain t) (Reading.certain u) := ⟨htu, h.bool _⟩

theorem missing : Related V T Reading.missing Reading.missing := ⟨h.int _, h.bool _⟩

theorem abs (hst : V s t) : Both V s.abs t.abs :=
  (h.compare .ge hst (h.int _)).bind fun _ _ hc ↦ (h.negate hst).bind fun _ _ hn ↦
    .pure (h.ite (h.condition hc) hst hn)

theorem sum {ts us : List Term} (htu : Forall₂ V ts us) : V (.sum ts) (.sum us) := by
  have fold {ts us : List Term} (htu : Forall₂ V ts us) {t u : Term} (h₀ : V t u) :
      V (ts.foldl (.arith .add) t) (us.foldl (.arith .add) u) := by
    induction htu generalizing t u with
    | nil => exact h₀
    | cons hab _ ih => exact ih (h.arith .add h₀ hab)
  cases htu with
  | nil => exact h.int _
  | cons hab hrest => exact fold hrest hab

/-! ## Operators -/

section

variable (hargs : List.Forall₂ (Related V T) args args')
include hargs

theorem anyNull : T (Reading.anyNull args) (Reading.anyNull args') := by
  refine h.or ?_
  rw [forall₂_map_left_iff, forall₂_map_right_iff]
  exact hargs.imp fun _ _ hab ↦ h.holds hab.2

theorem comparison (op : Comparison) : Both (Related V T) (Reading.compare op args) (Reading.compare op args') := by
  refine (Both.mapM (fun _ _ hab ↦ h.number hab.1) hargs).bind fun vals vals' hvals ↦ ?_
  obtain _ | ⟨ha, _ | ⟨hb, _ | _⟩⟩ := hvals
  · exact .error
  · exact .error
  · exact (h.compare op ha hb).bind fun _ _ ht ↦ .pure ⟨ht, h.anyNull hargs⟩
  · exact .error

theorem computation (op : Arith) : Both (Related V T) (Reading.compute op args) (Reading.compute op args') := by
  have hnull := h.anyNull hargs
  obtain _ | ⟨ha, _ | ⟨hb, _ | _⟩⟩ := hargs
  · exact .error
  · exact .error
  · refine (h.compute op ha.1 hb.1).bind fun _ _ ht ↦ ?_
    cases op with
    | div =>
      exact (h.compare .eq hb.1 (h.int _)).bind fun _ _ hz ↦ .pure ⟨ht, h.or₂ (h.holds hnull) (h.condition hz)⟩
    | add | sub | mul => exact .pure ⟨ht, hnull⟩
  · exact .error

theorem negative : Both (Related V T) (Reading.negative args) (Reading.negative args') := by
  have hnull := h.anyNull hargs
  obtain _ | ⟨ha, _ | _⟩ := hargs
  · exact .error
  · exact (h.negate ha.1).bind fun _ _ ht ↦ .pure ⟨ht, hnull⟩
  · exact .error

theorem negation : Both (Related V T) (Reading.negation args) (Reading.negation args') := by
  have hnull := h.anyNull hargs
  obtain _ | ⟨ha, _ | _⟩ := hargs
  · exact .error
  · exact .pure ⟨h.value (h.not (h.condition ha.1)), hnull⟩
  · exact .error

/-- The operands of a connective, each with the condition that its null leaves it open. -/
private theorem openOperands {f : Term → Term → Term}
    (hf : ∀ {n n' v v' : Term}, T n n' → C v v' → T (f n v) (f n' v')) {vals vals' : List Term}
    (hvals : Forall₂ C vals vals') :
    Forall₂ C ((vals.zip args).map fun (v, a) ↦ f a.2 v) ((vals'.zip args').map fun (v, a) ↦ f a.2 v) := by
  rw [forall₂_map_left_iff, forall₂_map_right_iff]
  exact (forall₂_zip_zip hvals hargs).imp fun _ _ hva ↦ h.holds (hf hva.2.2 hva.1)

theorem conjunction : Both (Related V T) (Reading.conjunction args) (Reading.conjunction args') := by
  refine (Both.mapM (fun _ _ hab ↦ h.truth hab.1) hargs).bind fun vals vals' hvals ↦ .pure ⟨h.value (h.and hvals), ?_⟩
  refine h.and₂ (h.holds (h.anyNull hargs)) (h.holds (h.and ?_))
  exact h.openOperands hargs (f := fun n v ↦ .implies (.not n) v)
    (fun hn hv ↦ h.implies (h.absent hn) hv) hvals

theorem disjunction : Both (Related V T) (Reading.disjunction args) (Reading.disjunction args') := by
  refine (Both.mapM (fun _ _ hab ↦ h.truth hab.1) hargs).bind fun vals vals' hvals ↦ .pure ⟨h.value (h.or hvals), ?_⟩
  refine h.and₂ (h.holds (h.anyNull hargs)) (h.holds (h.and ?_))
  exact h.openOperands hargs (f := fun n v ↦ .implies (.not n) (.not v))
    (fun hn hv ↦ h.implies (h.absent hn) (h.holds (h.not hv))) hvals

theorem operate (name : String) : Both (Related V T) (Reading.operate name args) (Reading.operate name args') := by
  unfold Reading.operate
  split
  case h_1 | h_2 | h_3 | h_4 | h_5 | h_6 => exact h.comparison hargs _
  case h_7 | h_8 | h_9 | h_10 => exact h.computation hargs _
  case h_11 => exact h.negative hargs
  case h_12 => exact h.negation hargs
  case h_13 => exact h.conjunction hargs
  case h_14 => exact h.disjunction hargs
  case h_15 => exact .error

end

/-! ## Ranges, membership and choices -/

theorem rangeNull (ha : Related V T a a') (hb : Related V T b b') (hc : Related V T c c') :
    Both T (Reading.rangeNull a b c) (Reading.rangeNull a' b' c') := by
  have null {r s : Reading} (hr : Related V T r s) : C r.2 s.2 := h.holds hr.2
  refine (h.compare .gt ha.1 hc.1).bind fun _ _ habove ↦ (h.compare .lt ha.1 hb.1).bind fun _ _ hbelow ↦ .pure ?_
  refine h.or (.cons (null ha) (.cons (h.holds (h.and ?_)) (.cons (h.holds (h.and ?_)) (.cons ?_ .nil))))
  · exact .cons (h.absent ha.2) (.cons (null hb) (.cons (h.absent hc.2) (.cons (h.negated habove) .nil)))
  · exact .cons (h.absent ha.2) (.cons (h.absent hb.2) (.cons (null hc) (.cons (h.negated hbelow) .nil)))
  · exact h.holds (h.and₂ (null hb) (null hc))

theorem between (ha : Related V T a a') (hb : Related V T b b') (hc : Related V T c c') :
    Both (Related V T) (Reading.between a b c) (Reading.between a' b' c') :=
  (h.compare .ge ha.1 hb.1).bind fun _ _ hlo ↦ (h.compare .le ha.1 hc.1).bind fun _ _ hhi ↦
    (h.rangeNull ha hb hc).bind fun _ _ hnull ↦ .pure ⟨h.value (h.and₂ (h.condition hlo) (h.condition hhi)), hnull⟩

theorem notBetween (ha : Related V T a a') (hb : Related V T b b') (hc : Related V T c c') :
    Both (Related V T) (Reading.notBetween a b c) (Reading.notBetween a' b' c') :=
  (h.compare .lt ha.1 hb.1).bind fun _ _ hlo ↦ (h.compare .gt ha.1 hc.1).bind fun _ _ hhi ↦
    (h.rangeNull ha hb hc).bind fun _ _ hnull ↦ .pure ⟨h.value (h.or₂ (h.condition hlo) (h.condition hhi)), hnull⟩

private theorem someMatch (ha : Related V T a a') (hargs : Forall₂ (Related V T) args args') :
    Both (Forall₂ C) (args.mapM (Reading.matchesOne a)) (args'.mapM (Reading.matchesOne a')) := by
  refine Both.mapM (fun b b' hb ↦ ?_) hargs
  refine (h.compare .eq ha.1 hb.1).bind fun _ _ ht ↦ .pure (h.holds (h.and ?_))
  exact .cons (h.absent ha.2) (.cons (h.absent hb.2) (.cons (h.condition ht) .nil))

private theorem memberNull (ha : Related V T a a') {v v' : Term} (hv : T v v')
    (hargs : Forall₂ (Related V T) args args') :
    T (Reading.memberNull a v args) (Reading.memberNull a' v' args') := by
  refine h.or₂ (h.holds ha.2) (h.holds (h.and (.cons (h.absent ha.2) (.cons ?_ (.cons ?_ .nil)))))
  · exact h.absent hv
  · exact h.holds (h.anyNull hargs)

theorem among (ha : Related V T a a') (hargs : Forall₂ (Related V T) args args') :
    Both (Related V T) (Reading.among a args) (Reading.among a' args') :=
  (h.someMatch ha hargs).bind fun _ _ hts ↦ .pure ⟨h.value (h.or hts), h.memberNull ha (h.or hts) hargs⟩

theorem notAmong (ha : Related V T a a') (hargs : Forall₂ (Related V T) args args') :
    Both (Related V T) (Reading.notAmong a args) (Reading.notAmong a' args') :=
  (h.someMatch ha hargs).bind fun _ _ hts ↦
    have hnot := h.not (h.holds (h.or hts))
    .pure ⟨h.value hnot, h.memberNull ha hnot hargs⟩

/-- Of a condition it matters only whether it holds. -/
theorem orElse (ha : C a.1 a'.1) (hnull : T a.2 a'.2) (hb : Related V T b b') (hc : Related V T c c') :
    Related V T (Reading.orElse a b c) (Reading.orElse a' b' c') :=
  have hholds := h.holds (h.and₂ (h.absent hnull) ha)
  ⟨h.ite hholds hb.1 hc.1, h.choice hholds hb.2 hc.2⟩

theorem orNext (ha : Related V T a a') (hb : Related V T b b') :
    Related V T (Reading.orNext a b) (Reading.orNext a' b') :=
  ⟨h.ite (h.absent ha.2) ha.1 hb.1, h.and₂ (h.holds ha.2) (h.holds hb.2)⟩

theorem timestamp (ha : Related V T a a') (hb : Related V T b b') :
    Both (Related V T) (Reading.timestamp a b) (Reading.timestamp a' b') :=
  (h.compute .mul hb.1 (h.int _)).bind fun _ _ hs ↦ (h.compute .add hs ha.1).bind fun _ _ ht ↦
    .pure ⟨ht, h.or₂ (h.holds ha.2) (h.holds hb.2)⟩

/-- The null of the days is not looked at, but their number is. -/
theorem shift (op : Arith) (ha : Related V T a a') {d d' : Term} (hd : V d d') :
    Both (Related V T) (Reading.shift op a d) (Reading.shift op a' d') :=
  (h.compute op ha.1 hd).bind fun _ _ ht ↦ .pure ⟨ht, ha.2⟩

theorem daysBetween (ha : Related V T a a') (hb : Related V T b b') {n n' : Term} (hn : T n n') :
    Both (Related V T) (Reading.daysBetween a b n) (Reading.daysBetween a' b' n') :=
  (h.compute .sub ha.1 hb.1).bind fun _ _ ht ↦ .pure ⟨ht, hn⟩

/-! ## Whole tables -/

section Table

variable {table : Int} (htable : Unknowns V T table)
include htable

private theorem deletions (rows : Nat) {f : Term → Term} (hf : ∀ {s t}, T s t → T (f s) (f t)) :
    Forall₂ C ((List.range rows).map fun (row : Nat) ↦ f (.deleted table row))
      ((List.range rows).map fun (row : Nat) ↦ f (.deleted table row)) := by
  rw [forall₂_map_left_iff, forall₂_map_right_iff, forall₂_same]
  exact fun row _ ↦ h.holds (hf (htable.deleted row))

theorem noRow (rows : Nat) : Related V T (Reading.noRow table rows) (Reading.noRow table rows) :=
  h.certain (h.value <| h.and (h.deletions htable rows (f := id) id))

theorem someRow (rows : Nat) : Related V T (Reading.someRow table rows) (Reading.someRow table rows) :=
  h.certain (h.value <| h.or (h.deletions htable rows fun hst ↦ h.not (h.holds hst)))

omit h in
/-- A tuple next to the cells of a row. -/
private theorem besideRow (row : Nat) (hargs : Forall₂ (Related V T) args args') :
    Forall₂ (fun x y ↦ Related V T x.1 y.1 ∧ Related V T x.2 y.2)
      (args.zip (Reading.firstColumns table row args.length))
      (args'.zip (Reading.firstColumns table row args'.length)) := by
  rw [hargs.length_eq]
  refine forall₂_zip_zip hargs ?_
  rw [Reading.firstColumns, forall₂_map_left_iff, forall₂_map_right_iff, forall₂_same]
  exact fun c _ ↦ ⟨htable.cell row c, htable.null row c⟩

theorem inTable (rows : Nat) (hargs : Forall₂ (Related V T) args args') :
    Both (Related V T) (Reading.inTable table rows args) (Reading.inTable table rows args') := by
  refine (Both.mapM (R := Eq) (S := C) ?_ (forall₂_same.2 fun _ _ ↦ rfl)).bind fun _ _ hhits ↦
    .pure (h.certain (h.value <| h.or hhits))
  rintro row _ rfl
  refine (Both.mapM (S := C) (fun x y ⟨hl, hr⟩ ↦ ?_) (besideRow htable row hargs)).bind fun _ _ hparts ↦
    .pure (h.holds (h.and (.cons (h.absent (htable.deleted row)) hparts)))
  exact (h.compare .eq hl.1 hr.1).bind fun _ _ ht ↦
    .pure (h.holds (h.and₂ (h.holds (h.and₂ (h.absent hl.2) (h.absent hr.2))) (h.condition ht)))

theorem notInTable (rows : Nat) (hargs : Forall₂ (Related V T) args args') :
    Both (Related V T) (Reading.notInTable table rows args) (Reading.notInTable table rows args') := by
  refine (Both.mapM (R := Eq) (S := C) ?_ (forall₂_same.2 fun _ _ ↦ rfl)).bind fun _ _ hmisses ↦
    .pure (h.certain (h.value <| h.or₂ (h.holds (h.and (h.deletions htable rows (f := id) id))) (h.holds (h.and hmisses))))
  rintro row _ rfl
  refine (Both.mapM (S := C) (fun x y ⟨hl, hr⟩ ↦ ?_) (besideRow htable row hargs)).bind fun _ _ hparts ↦
    .pure (h.holds (h.implies (h.absent (htable.deleted row)) (h.holds (h.or hparts))))
  exact (h.compare .ne hl.1 hr.1).bind fun _ _ ht ↦
    .pure (h.holds (h.and₂ (h.absent (h.or₂ (h.holds hl.2) (h.holds hr.2))) (h.condition ht)))

end Table

end Term.Respected

/-! ## Aggregates -/

namespace Aggregate

open Reading (Related)

/-- The conditions under which a row is counted. -/
def counts (grouped : Bool) (c : Contribution) : List Term := if grouped then inGroup c else present c

/-- A row counted before. -/
def seen (grouped : Bool) (c : Contribution) : Term := if grouped then seenInGroup c else .and (present c)

/-- No row is counted. -/
def vacant (grouped : Bool) (cs : List Contribution) : Term := if grouped then groupEmpty cs else noneLeft cs

/-- What the rows add to a sum, where each value or each distinct value has a weight. -/
def weighed (grouped distinct : Bool) (weigh : Contribution → Term) (cs : List Contribution) : Outcome (List Term) :=
  if distinct then distinctSum (counts grouped) (seen grouped) weigh [] cs
  else .ok (cs.map fun c ↦ .ite (.and (counts grouped c)) (weigh c) .zero)

/-- Two rows in one, of which the better value is kept. -/
def extreme2In (grouped : Bool) (op : Comparison) (c d : Contribution) : Outcome Contribution :=
  if grouped then groupExtreme2 op c d else extreme2 op c d

/-- The best value. -/
def extremeIn (grouped : Bool) (op : Comparison) (cs : List Contribution) : Outcome Reading := do
  let r ← reduce (extreme2In grouped op) cs
  return (r.val, if grouped then r.null else .or [r.null, r.flag])

def countIn (grouped distinct : Bool) (cs : List Contribution) : Outcome Reading := do
  return (.sum (← weighed grouped distinct (fun _ ↦ .one) cs), .bot)

def sumIn (grouped distinct : Bool) (cs : List Contribution) : Outcome Reading := do
  return (.sum (← weighed grouped distinct (·.val) cs), vacant grouped cs)

def averageIn (grouped distinct : Bool) (cs : List Contribution) : Outcome Reading := do
  let ts ← weighed grouped distinct (·.val) cs
  let ns ← weighed grouped distinct (fun _ ↦ .one) cs
  return (.arith .div (.sum ts) (.sum ns), vacant grouped cs)

/-- The aggregates, each with what its flag says (whether a row lies in the group, or whether it is deleted), its
name, and whether it counts equal values once. -/
inductive Named : (List Contribution → Outcome Reading) → Bool → String → Bool → Prop
  | maximum (distinct : Bool) : Named maximum false "max" distinct
  | minimum (distinct : Bool) : Named minimum false "min" distinct
  | count : Named count false "count" false
  | countDistinct : Named countDistinct false "count" true
  | summed : Named summed false "sum" false
  | summedDistinct : Named summedDistinct false "sum" true
  | average : Named average false "avg" false
  | averageDistinct : Named averageDistinct false "avg" true
  | groupMaximum (distinct : Bool) : Named groupMaximum true "max" distinct
  | groupMinimum (distinct : Bool) : Named groupMinimum true "min" distinct
  | groupCount : Named groupCount true "count" false
  | groupCountDistinct : Named groupCountDistinct true "count" true
  | groupSum : Named groupSum true "sum" false
  | groupSumDistinct : Named groupSumDistinct true "sum" true
  | groupAverage : Named groupAverage true "avg" false
  | groupAverageDistinct : Named groupAverageDistinct true "avg" true

variable {f : List Contribution → Outcome Reading} {grouped distinct : Bool} {name : String}

/-- Over a table and over a group the aggregates are built alike. -/
theorem Named.build (h : Named f grouped name distinct) :
    (name = "max" ∧ f = extremeIn grouped .le) ∨ (name = "min" ∧ f = extremeIn grouped .ge) ∨
      (name = "count" ∧ f = countIn grouped distinct) ∨ (name = "sum" ∧ f = sumIn grouped distinct) ∨
      (name = "avg" ∧ f = averageIn grouped distinct) := by
  have haverage : Aggregate.averageDistinct = averageIn false true := by
    funext cs
    simp only [Aggregate.averageDistinct, Aggregate.summedDistinct, Aggregate.countDistinct, bind_assoc, pure_bind]
    rfl
  have hgroup : Aggregate.groupAverageDistinct = averageIn true true := by
    funext cs
    simp only [Aggregate.groupAverageDistinct, Aggregate.groupSumDistinct, Aggregate.groupCountDistinct, bind_assoc,
      pure_bind]
    rfl
  cases h <;> simp only [String.reduceEq, true_and, false_and, or_false, false_or, haverage, hgroup] <;> rfl

variable {V T C : Term → Term → Prop} (h : Term.Respected V T C) {rows rows' : List Contribution}
  (hrows : List.Forall₂ (Contribution.Related V T) rows rows')
include h

private theorem groupExtreme2_related (op : Comparison) {x y x' y' : Contribution} (hx : x.Related V T x')
    (hy : y.Related V T y') : Both (Contribution.Related V T) (groupExtreme2 op x y) (groupExtreme2 op x' y') := by
  have hbetter : Both V (better op x y) (better op x' y') := by
    refine (h.compare op hx.val hy.val).bind fun _ _ ht ↦ .pure (h.ite (h.holds (h.or₂ ?_ ?_)) hy.val hx.val)
    · exact h.holds (h.and₂ (h.condition ht) (h.absent (h.or₂ (h.holds hx.null) (h.holds hy.null))))
    · exact h.holds (h.and₂ (h.holds hx.null) (h.absent hy.null))
  have hxf := h.holds hx.flag
  have hyf := h.holds hy.flag
  refine hbetter.bind fun _ _ hboth ↦ .pure ⟨?_, h.and₂ ?_ ?_, h.or₂ hxf hyf⟩
  · refine h.ite (h.holds (h.and₂ hxf (h.absent hy.flag))) hx.val ?_
    refine h.ite (h.holds (h.and₂ hyf (h.absent hx.flag))) hy.val ?_
    exact h.ite (h.holds (h.and₂ hxf hyf)) hboth (h.int _)
  · exact h.holds (h.implies hxf (h.holds hx.null))
  · exact h.holds (h.implies hyf (h.holds hy.null))

private theorem inGroup_related {x y : Contribution} (hxy : x.Related V T y) : Forall₂ C (inGroup x) (inGroup y) :=
  .cons (h.absent hxy.null) (.cons (h.holds hxy.flag) .nil)

private theorem distinctSum_related {weigh : Contribution → Term}
    (hweigh : ∀ {x y : Contribution}, x.Related V T y → V (weigh x) (weigh y)) {earlier earlier' : List Contribution}
    (he : Forall₂ (Contribution.Related V T) earlier earlier')
    (hrows : Forall₂ (Contribution.Related V T) rows rows') :
    Both (Forall₂ V) (distinctSum inGroup seenInGroup weigh earlier rows)
      (distinctSum inGroup seenInGroup weigh earlier' rows') := by
  induction hrows generalizing earlier earlier' with
  | nil => exact .pure .nil
  | cons hxy _ ih =>
    refine (Both.mapM (S := C) (fun p q hpq ↦ ?_) he).bind fun _ _ hfresh ↦ ?_
    · exact (h.compare .ne hxy.val hpq.val).bind fun _ _ ht ↦ .pure (h.holds
        (h.implies (h.holds (h.and₂ (h.holds hpq.flag) (h.absent hpq.null))) (h.condition ht)))
    · refine (ih (rel_append he (.cons hxy .nil))).bind fun _ _ hrest ↦ .pure (.cons ?_ hrest)
      refine h.ite (h.holds (h.and (rel_append (inGroup_related h hxy) (.cons ?_ .nil)))) (hweigh hxy) (h.int _)
      exact h.holds (h.and hfresh)

include hrows

private theorem groupEmpty_related : T (groupEmpty rows) (groupEmpty rows') := by
  refine h.and ?_
  rw [forall₂_map_left_iff, forall₂_map_right_iff]
  exact hrows.imp fun _ _ hxy ↦ h.holds (h.implies (h.holds hxy.flag) (h.holds hxy.null))

theorem Named.related (hf : Named f true name distinct) : Both (Related V T) (f rows) (f rows') := by
  have hempty := groupEmpty_related h hrows
  have hextreme (op : Comparison) : Both (Related V T) (extremeIn true op rows) (extremeIn true op rows') := by
    refine Both.bind (R := Contribution.Related V T) ?_ fun _ _ hr ↦ .pure ⟨hr.val, hr.null⟩
    cases hrows with
    | nil => exact .error
    | cons hxy hrest => exact Both.foldlM (S := Contribution.Related V T) (fun _ _ _ _ ↦ groupExtreme2_related h op) hrest hxy
  have hweighed {weigh : Contribution → Term}
      (hweigh : ∀ {x y : Contribution}, x.Related V T y → V (weigh x) (weigh y)) :
      Both (Forall₂ V) (weighed true distinct weigh rows) (weighed true distinct weigh rows') := by
    cases distinct with
    | true => exact distinctSum_related h hweigh .nil hrows
    | false =>
      refine .pure ?_
      rw [forall₂_map_left_iff, forall₂_map_right_iff]
      exact hrows.imp fun _ _ hxy ↦ h.ite (h.holds (h.and (inGroup_related h hxy))) (hweigh hxy) (h.int _)
  obtain ⟨-, rfl⟩ | ⟨-, rfl⟩ | ⟨-, rfl⟩ | ⟨-, rfl⟩ | ⟨-, rfl⟩ := hf.build
  · exact hextreme .le
  · exact hextreme .ge
  · exact (hweighed fun _ ↦ h.int _).bind fun _ _ hns ↦ .pure ⟨h.sum hns, h.bool _⟩
  · exact (hweighed fun hxy ↦ hxy.val).bind fun _ _ hts ↦ .pure ⟨h.sum hts, hempty⟩
  · exact (hweighed fun hxy ↦ hxy.val).bind fun _ _ hts ↦ (hweighed fun _ ↦ h.int _).bind fun _ _ hns ↦
      .pure ⟨h.arith .div (h.sum hts) (h.sum hns), hempty⟩

end Aggregate

/-! ## Two runs side by side -/

/-- Two computations that succeed in workspaces with a property keep it, and their results are related. -/
def Pairs {α β : Type} (P : Workspace → Prop) (x : Encoding α) (y : Encoding β) (R : α → β → Prop) : Prop :=
  ∀ ⦃v a v' w b w'⦄, P v → P w → Gives x v a v' → Gives y w b w' → (P v' ∧ P w') ∧ R a b

section

variable {α β γ δ : Type} {P : Workspace → Prop} {R : α → β → Prop} {S : γ → δ → Prop} {x : Encoding α}
  {y : Encoding β}

namespace Pairs

theorem pure {a : α} {b : β} (h : R a b) : Pairs P (pure a) (pure b) R := by
  intro v a' v' w b' w' hv hw ha hb
  obtain ⟨rfl, rfl⟩ := pure_iff.1 ha
  obtain ⟨rfl, rfl⟩ := pure_iff.1 hb
  exact ⟨⟨hv, hw⟩, h⟩

theorem throw_left : Pairs P (throw e) y R := fun _ _ _ _ _ _ _ _ ha _ ↦ absurd ha not_throw

theorem throw_right : Pairs P x (throw e) R := fun _ _ _ _ _ _ _ _ _ hb ↦ absurd hb not_throw

theorem bind {f : α → Encoding γ} {g : β → Encoding δ} (h : Pairs P x y R)
    (hfg : ∀ a b, R a b → Pairs P (f a) (g b) S) : Pairs P (x >>= f) (y >>= g) S := by
  intro v c v' w d w' hv hw hc hd
  obtain ⟨a, u, ha, hc⟩ := bind_iff.1 hc
  obtain ⟨b, t, hb, hd⟩ := bind_iff.1 hd
  obtain ⟨⟨hu, ht⟩, hab⟩ := h hv hw ha hb
  exact hfg a b hab hu ht hc hd

theorem lift {x : Outcome α} {y : Outcome β} (h : Both R x y) : Pairs P (liftM x) (liftM y) R := by
  intro v a v' w b w' hv hw ha hb
  obtain ⟨hx, rfl⟩ := lift_iff.1 ha
  obtain ⟨hy, rfl⟩ := lift_iff.1 hb
  exact ⟨⟨hv, hw⟩, h hx hy⟩

end Pairs

/-- What each of two computations keeps by itself. -/
theorem Keeps.pairs {Q : α → Prop} {S : β → Prop} (hx : Keeps P x Q) (hy : Keeps P y S) :
    Pairs P x y fun a b ↦ Q a ∧ S b := by
  intro v a v' w b w' hv hw ha hb
  obtain ⟨hv', hQ⟩ := hx hv ha
  obtain ⟨hw', hS⟩ := hy hw hb
  exact ⟨⟨hv', hw'⟩, hQ, hS⟩

end

namespace Expression

open Reading (Related)

variable {P : Workspace → Prop} {V T C : Term → Term → Prop}

/-- Two arguments are one expression, and their readings are related. -/
structure Argument.Alike (P : Workspace → Prop) (V T : Term → Term → Prop) (a b : Argument) : Prop where
  node : a.node = b.node
  reading : Pairs P a.reading b.reading (Related V T)

theorem inTurn_pairs {xs ys : List (Encoding Reading)} (h : Forall₂ (Pairs P · · (Related V T)) xs ys) :
    Pairs P (inTurn xs) (inTurn ys) (Forall₂ (Related V T)) := by
  induction h with
  | nil => exact .pure .nil
  | cons hxy _ ih => exact hxy.bind fun _ _ hab ↦ ih.bind fun _ _ habs ↦ .pure (.cons hab habs)

theorem nameOf_pairs (n : Node) : Pairs P (nameOf n) (nameOf n) Eq := by
  unfold nameOf
  split
  · exact .pure rfl
  · exact .pure rfl
  · exact .pure rfl
  · exact .throw_left

theorem literalValue_pairs (n : Node) : Pairs P (literalValue n) (literalValue n) Eq := by
  unfold literalValue
  split
  · exact .pure rfl
  · exact .throw_left

section Functions

variable {args args' : List Argument} (hargs : List.Forall₂ (Argument.Alike P V T) args args')
include hargs

theorem argument_pairs (i : Nat) : Pairs P (argument args i) (argument args' i) (Argument.Alike P V T) := by
  unfold argument
  induction hargs generalizing i with
  | nil => exact .throw_left
  | cons hab _ ih =>
    cases i with
    | zero => exact .pure hab
    | succ i => exact ih i

theorem readingAt_pairs (i : Nat) : Pairs P (readingAt args i) (readingAt args' i) (Related V T) :=
  (argument_pairs hargs i).bind fun _ _ hab ↦ hab.reading

variable (h : Term.Respected V T C)
include h

omit hargs in
theorem asNumber_pairs {a b : Reading} (hab : Related V T a b) : Pairs P (asNumber a) (asNumber b) (Related V T) :=
  (Pairs.lift (h.number hab.1)).bind fun _ _ ht ↦ .pure ⟨ht, hab.2⟩

omit hargs in
theorem asTruth_pairs {a b : Reading} (hab : Related V T a b) :
    Pairs P (asTruth a) (asTruth b) fun a b ↦ C a.1 b.1 ∧ T a.2 b.2 :=
  (Pairs.lift (h.truth hab.1)).bind fun _ _ ht ↦ .pure ⟨ht, hab.2⟩

theorem firstPresent_pairs : Pairs P (firstPresent args) (firstPresent args') (Related V T) := by
  induction hargs with
  | nil => exact .throw_left
  | cons hab has ih =>
    cases has with
    | nil => exact hab.reading
    | cons _ _ => exact hab.reading.bind fun _ _ hx ↦ ih.bind fun _ _ hy ↦ .pure (h.orNext hx hy)

omit h in
theorem range_pairs {f : Reading → Reading → Reading → Outcome Reading}
    (hf : ∀ {a a' b b' c c'}, Related V T a a' → Related V T b b' → Related V T c c' →
      Both (Related V T) (f a b c) (f a' b' c')) : Pairs P (range f args) (range f args') (Related V T) :=
  (readingAt_pairs hargs 0).bind fun _ _ ha ↦ (readingAt_pairs hargs 1).bind fun _ _ hb ↦
    (readingAt_pairs hargs 2).bind fun _ _ hc ↦ .lift (hf ha hb hc)

theorem moved_pairs (op : Arith) : Pairs P (moved op args) (moved op args') (Related V T) :=
  (readingAt_pairs hargs 0).bind fun _ _ ha ↦ (readingAt_pairs hargs 1).bind fun _ _ hb ↦ .lift (h.shift op ha hb.1)

theorem movedByLiteral_pairs (op : Arith) :
    Pairs P (movedByLiteral op args) (movedByLiteral op args') (Related V T) := by
  refine (argument_pairs hargs 1).bind fun a b hab ↦ ?_
  rw [hab.node]
  split
  · exact (readingAt_pairs hargs 0).bind fun _ _ ha ↦ .lift (h.shift op ha (h.int _))
  · exact moved_pairs hargs h op

theorem difference_pairs : Pairs P (difference args) (difference args') (Related V T) := by
  refine (argument_pairs hargs 0).bind fun a b hab ↦ ?_
  rw [hab.node]
  refine (nameOf_pairs b.node).bind fun name _ hname ↦ ?_
  subst hname
  split
  · split
    · exact (readingAt_pairs hargs 1).bind fun _ _ ha ↦ (readingAt_pairs hargs 2).bind fun _ _ hb ↦
        .lift (h.daysBetween hb ha (h.or₂ (h.holds ha.2) (h.holds hb.2)))
    · exact .throw_left
  · exact .throw_left

/-- The functions that are the same everywhere lead from related arguments to related readings. -/
theorem shared_pairs {op : String} {x y : Encoding Reading} (hx : shared op args = some x)
    (hy : shared op args' = some y) : Pairs P x y (Related V T) := by
  unfold shared at hx hy
  split at hx
  case h_15 => cases hx
  all_goals
    obtain rfl := Option.some.inj hx
    obtain rfl := Option.some.inj hy
  case h_1 => exact readingAt_pairs hargs 0
  case h_2 => exact readingAt_pairs hargs 0
  case h_3 => exact readingAt_pairs hargs 0
  case h_4 => exact range_pairs hargs h.between
  case h_5 => exact range_pairs hargs h.notBetween
  case h_6 => exact firstPresent_pairs hargs h
  case h_7 =>
    rw [hargs.length_eq]
    split
    · exact .bind (R := fun _ _ ↦ False) .throw_left fun _ _ h ↦ h.elim
    · exact (readingAt_pairs hargs 0).bind fun _ _ ha ↦ (readingAt_pairs hargs 1).bind fun _ _ hb ↦
        .lift (h.timestamp ha hb)
  case h_8 => exact moved_pairs hargs h _
  case h_9 => exact moved_pairs hargs h _
  case h_10 => exact movedByLiteral_pairs hargs h _
  case h_11 => exact movedByLiteral_pairs hargs h _
  case h_12 =>
    exact (readingAt_pairs hargs 0).bind fun _ _ ha ↦ (readingAt_pairs hargs 1).bind fun _ _ hb ↦
      .lift (h.daysBetween ha hb (h.or₂ (h.holds ha.2) (h.holds hb.2)))
  case h_13 => exact difference_pairs hargs h
  case h_14 =>
    refine (argument_pairs hargs 1).bind fun a b hab ↦ ?_
    rw [hab.node]
    refine (nameOf_pairs b.node).bind fun name _ hname ↦ ?_
    subst hname
    split
    · refine (argument_pairs hargs 0).bind fun a b hab ↦ ?_
      rw [hab.node]
      refine (literalValue_pairs b.node).bind fun days _ hdays ↦ .pure ?_
      subst hdays
      exact h.certain (h.int _)
    · exact .throw_left

end Functions

end Expression

end QueryEquiv
