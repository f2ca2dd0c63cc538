import QueryEquiv.Encode.Group
import QueryEquiv.Proofs.Leaves

/-!
# Reading expressions

Reading an expression only notes things down: a look-up, a code, the table of a subquery. What else it
does to the workspace, the subqueries in it do. So a property that these notes cannot break is kept by
reading an expression if it is kept by encoding the queries in it. Beside that, no reading has a choice
among its leaves.

Everything is stated once for any such property and any property of leaves that holds of everything but
choices.
-/

namespace QueryEquiv

open Keeps Reading Outcome Gives List Workspace Expression GroupOfRows

/-- A property of workspaces that the notes of readers cannot break. -/
structure Quiet (P : Workspace → Prop) : Prop where
  catalog : ∀ {w : Workspace} {c : Catalog}, P w → c.tables = w.catalog.tables →
    P { w with catalog := c }
  touch : ∀ {w : Workspace} (t : Int), P w → P { w with database := w.database.touch t }
  codes : ∀ {w : Workspace} (c : Codes), P w → P { w with codes := c }
  approximations : ∀ {w : Workspace} (a : List Term), P w → P { w with approximations := a }
  subqueries : ∀ {w : Workspace} (s : List ((Nat × String) × Nat)), P w → P { w with subqueries := s }
  nextReader : ∀ {w : Workspace} (n : Nat), P w → P { w with nextReader := n }

/-! ## What also holds when a computation fails -/

/-- A computation keeps a property of the workspace, whether it succeeds or not. -/
def Steady {α : Type} (P : Workspace → Prop) (x : Encoding α) : Prop := ∀ ⦃w⦄, P w → P (exec x w).2

namespace Steady

variable {α β : Type} {P : Workspace → Prop}

theorem pure (a : α) : Steady P (pure a) := fun _ h ↦ h

theorem throw (e : Fault) : Steady P (throw e : Encoding α) := fun _ h ↦ h

theorem lift (x : Outcome α) : Steady P (liftM x) := fun _ h ↦ h

theorem get : Steady P get := fun _ h ↦ h

theorem modify {f : Workspace → Workspace} (h : ∀ w, P w → P (f w)) : Steady P (modify f) :=
  fun w hw ↦ h w hw

theorem bind {x : Encoding α} {f : α → Encoding β} (hx : Steady P x) (hf : ∀ a, Steady P (f a)) :
    Steady P (x >>= f) := by
  intro w hw
  have h := hx hw
  revert h
  rw [exec_bind]
  rcases exec x w with ⟨e | a, v⟩
  · exact id
  · exact fun h ↦ hf a h

theorem keeps {x : Encoding α} (h : Steady P x) : Guards P x := by
  intro w a w' hw hg
  have := h hw
  rw [hg] at this
  exact ⟨this, trivial⟩

end Steady

theorem Catalog.lookup_tables {c c' : Catalog} {place : Nat} {item : Value} {col : Column}
    (h : c.lookup place item = .ok (col, c')) : c'.tables = c.tables := by
  unfold Catalog.lookup at h
  split at h
  · cases h
  · obtain ⟨r, -, h⟩ := bind_ok_iff.1 h
    split at h
    · obtain ⟨-, rfl⟩ := Prod.mk.inj (pure_ok_iff.1 h)
      rfl
    · obtain ⟨d, -, h⟩ := bind_ok_iff.1 h
      obtain ⟨-, rfl⟩ := Prod.mk.inj (pure_ok_iff.1 h)
      rfl

namespace Quiet

variable {P : Workspace → Prop} (q : Quiet P)
include q

theorem column_steady (place : Nat) (item : Value) : Steady P (column place item) := by
  intro w hw
  have run : exec (column place item) w =
      match w.catalog.lookup place item with
      | .ok (c, catalog) => (.ok c, { w with catalog })
      | .error e => (.error e, w) := by
    simp only [column, exec_bind, exec_get, exec_lift]
    cases w.catalog.lookup place item <;> rfl
  rw [run]
  cases h : w.catalog.lookup place item with
  | error e => exact hw
  | ok a => exact q.catalog hw (Catalog.lookup_tables h)

theorem cell?_steady (t r c : Int) : Steady P (cell? t r c) :=
  (Steady.modify fun _ hw ↦ q.touch t hw).bind fun _ ↦ Steady.get.bind fun _ ↦ Steady.lift _

theorem cell_steady (t r c : Int) : Steady P (cell t r c) := by
  refine (q.cell?_steady t r c).bind fun o ↦ ?_
  cases o with
  | none => exact Steady.throw _
  | some c => exact Steady.pure c

omit q in
theorem table_steady (place : Nat) : Steady P (table place) := Steady.get.bind fun _ ↦ Steady.pure _

theorem cellReading_steady (place : Nat) (row : Int) (name : Value) : Steady P (cellReading place row name) :=
  (q.column_steady place name).bind fun _ ↦ (table_steady place).bind fun _ ↦
    (q.cell_steady _ _ _).bind fun _ ↦ Steady.pure _

theorem code_keeps (v : Value) : Guards P (code v) := by
  intro w a w' hw hg
  simp only [code, bind_iff, get_iff, set_iff, pure_iff] at hg
  obtain ⟨_, _, ⟨rfl, rfl⟩, _, _, rfl, -, rfl⟩ := hg
  exact ⟨q.codes _ hw, trivial⟩

theorem newReader_keeps : Guards P newReader := by
  intro w a w' hw hg
  simp only [newReader, bind_iff, get_iff, set_iff, pure_iff] at hg
  obtain ⟨_, _, ⟨rfl, rfl⟩, _, _, rfl, -, rfl⟩ := hg
  exact ⟨q.nextReader _ hw, trivial⟩

end Quiet

/-! ## Arguments and readers -/

namespace Expression

/-- Everything but choices has the property of leaves that readings are asked to have. -/
def Free (p : Term → Prop) : Prop := ∀ t, (∀ x b, t ≠ Term.choice x b) → p t

variable {P : Workspace → Prop} {p : Term → Prop} {N : Node → Prop}

/-- The parts of an expression have the property that the whole has. -/
structure Hereditary (N : Node → Prop) : Prop where
  arg : ∀ {o args a n}, N (.expression o args a) → n ∈ args → N n
  case : ∀ {cs d a c r}, N (.caseWhen cs d a) → (c, r) ∈ cs → N c ∧ N r
  default : ∀ {cs d a}, N (.caseWhen cs d a) → N d
  item : ∀ {xs n}, N (.list xs) → n ∈ xs → N n

/-- An expression that looks for rows in the result of a query. -/
def searches : Node → Bool
  | .expression (.str op) args _ =>
    match op with
    | "is_null" | "isnull" | "is_not_null" => args[0]?.any (·.isQuery)
    | "in" | "nin" => args[1]?.any (!·.isList)
    | _ => false
  | _ => false

/-- A property of leaves that readings have: it holds of the cells, and if an expression looks for rows then of
everything but choices. -/
structure Permits (p : Term → Prop) (N : Node → Prop) : Prop where
  cell : ∀ t r c, p (.cell t r c)
  null : ∀ t r c, p (.null t r c)
  searched : ∀ n, N n → searches n = true → Free p

theorem Free.permits (free : Free p) : Permits p N where
  cell _ _ _ := free _ (by simp)
  null _ _ _ := free _ (by simp)
  searched _ _ _ := free

theorem Free.unknowns (free : Free p) (table : Int) : Term.Unknowns (Term.Leafy p) (Term.Leafy p) table where
  cell _ _ := and_self_iff.2 (free _ (by simp))
  null _ _ := and_self_iff.2 (free _ (by simp))
  deleted _ := and_self_iff.2 (free _ (by simp))

theorem Permits.always : Permits (fun _ ↦ True) N := Free.permits fun _ _ ↦ trivial

/-- Reading an argument and its members keeps the property, and its node is known. -/
structure Argument.Sound (P : Workspace → Prop) (p : Term → Prop) (N : Node → Prop) (a : Argument) :
    Prop where
  node : N a.node
  listed : a.node.isList = true → a.members ≠ none
  reading : Keeps P a.reading (Reading.Leaves p)
  members : ∀ parts, a.members = some parts → ∀ x ∈ parts, Keeps P x (Reading.Leaves p)

structure Reader.Sound (P : Workspace → Prop) (p : Term → Prop) (N : Node → Prop) (r : Reader) :
    Prop where
  column : ∀ name, Keeps P (r.column name) (Reading.Leaves p)
  constant : ∀ v, Keeps P (r.constant v) (Reading.Leaves p)
  scalar : ∀ n, N n → Keeps P (r.scalar n) (Reading.Leaves p)
  function : ∀ op args byname, N (.expression (.str op) (args.map (·.node)) byname) →
    (∀ a ∈ args, Argument.Sound P p N a) →
    Keeps P (r.function op args (.expression (.str op) (args.map (·.node)) byname)) (Reading.Leaves p)

theorem constant_keeps (q : Quiet P) (timed : Bool) (v : Value) : Keeps P (constant timed v) (Leaves p) := by
  cases v with
  | null => exact .pure leaves_missing
  | bool b => exact .pure (leaves_certain.2 trivial)
  | int n => exact .pure (leaves_certain.2 trivial)
  | float x => exact .pure (leaves_certain.2 trivial)
  | str s => exact (q.code_keeps _).bind fun n _ ↦ .pure (leaves_certain.2 trivial)
  | date d => exact .pure (leaves_certain.2 trivial)
  | time t =>
    cases timed with
    | true => exact .pure (leaves_certain.2 trivial)
    | false => exact .throw
  | list _ => exact .throw
  | object _ => exact .throw
  | inline _ _ _ => exact .throw

theorem asNumber_keeps {r : Reading} (h : r.Leaves p) : Keeps P (asNumber r) (Leaves p) :=
  (lift fun _ ht ↦ Term.leaves_ensureNumber h.1 ht).bind fun _ ht ↦ .pure ⟨ht, h.2⟩

theorem asTruth_keeps {r : Reading} (h : r.Leaves p) : Keeps P (asTruth r) (Leaves p) :=
  (lift fun _ ht ↦ Term.leaves_ensureTruth h.1 ht).bind fun _ ht ↦ .pure ⟨ht, h.2⟩

theorem inTurn_keeps {xs : List (Encoding Reading)} (h : ∀ x ∈ xs, Keeps P x (Leaves p)) :
    Keeps P (inTurn xs) fun rs ↦ ∀ r ∈ rs, r.Leaves p := by
  induction xs with
  | nil => exact .pure (by simp)
  | cons x xs ih =>
    rw [forall_mem_cons] at h
    refine h.1.bind fun r hr ↦ (ih h.2).bind fun rs hrs ↦ .pure ?_
    exact forall_mem_cons.2 ⟨hr, hrs⟩

section Functions

variable {args : List Argument} (h : ∀ a ∈ args, Argument.Sound P p N a)
include h

omit h in
theorem argument_at (i : Nat) : Keeps P (argument args i) fun a ↦ args[i]? = some a := by
  unfold argument
  split
  · exact .pure (by assumption)
  · exact .throw

theorem argument_keeps (i : Nat) : Keeps P (argument args i) (Argument.Sound P p N) :=
  (argument_at i).imp fun a ha ↦ h a (mem_of_getElem? ha)

theorem readingAt_keeps (i : Nat) : Keeps P (readingAt args i) (Leaves p) :=
  (argument_keeps h i).bind fun _ ha ↦ ha.reading

omit h in
theorem literalValue_keeps (n : Node) : Guards P (literalValue n) := by
  unfold literalValue
  split
  · exact .pure trivial
  · exact .throw

theorem shared_keeps {op : String} {x : Encoding Reading} (hx : shared op args = some x) : Keeps P x (Leaves p) := by
  have hsame : Forall₂ (Argument.Alike P (Term.Leafy p) (Term.Leafy p)) args args :=
    forall₂_same.2 fun a ha ↦ ⟨rfl, pairs_leaves_iff.2 (h a ha).reading⟩
  exact pairs_leaves_iff.1 (shared_pairs hsame Term.leafy hx hx)

end Functions

/-! ## Expressions -/

theorem nodes_arguments (r : Reader) (ns : List Node) : (arguments r ns).map (·.node) = ns := by
  induction ns with
  | nil => rfl
  | cons n ns ih => rw [arguments, map_cons, ih]

theorem memberReadings_of_isList (r : Reader) {n : Node} (h : n.isList = true) : memberReadings r n ≠ none := by
  cases n with
  | list xs => exact Option.some_ne_none _
  | _ => cases h

section Encode

variable {r : Reader} (hN : Hereditary N) (hr : r.Sound P p N)
include hN hr

-- In a mutual block a variable that only the calls need counts as unused.
set_option linter.unusedSectionVars false in
mutual

/-- Reading an expression keeps what its reader keeps. -/
theorem encode_keeps : (n : Node) → N n → Keeps P (encode r n) (Leaves p)
  | .column name _, _ => hr.column name
  | .literal v _, _ => hr.constant v
  | .query .., h => hr.scalar _ h
  | .caseWhen cs d a, h => by
    refine encodeCases_keeps _ ?_ cs fun x hx ↦ hN.case h hx
    split
    · exact .pure leaves_missing
    · exact (encode_keeps d (hN.default h)).bind fun x hx ↦ asNumber_keeps hx
  | .expression op args byname, h => by
    cases op with
    | str op =>
      have hargs : ∀ n ∈ args, N n := fun n hn ↦ hN.arg h hn
      unfold encode
      split
      · exact (inTurn_keeps (readings_keeps args hargs)).bind fun rs hrs ↦
          .leaves (Term.leafy.operate (Leaves.all hrs) op)
      · have hfunction := hr.function op (arguments r args) byname
        rw [nodes_arguments] at hfunction
        exact hfunction h (arguments_keeps args hargs)
    | _ => exact (get.bind fun _ _ ↦ .lift fun _ _ ↦ trivial).bind fun _ _ ↦ .throw
  | .ifThen .., _ | .function _, _ | .operator _, _ | .filter .., _ | .project .., _ | .scan .., _
  | .join .., _ | .groupBy .., _ | .orderBy .., _ | .union .., _ | .mutated .., _ | .list _, _
  | .raw _, _ => .throw

theorem encodeCases_keeps (fallback : Encoding Reading) (hf : Keeps P fallback (Leaves p)) :
    (cs : List (Node × Node)) → (∀ x ∈ cs, N x.1 ∧ N x.2) →
      Keeps P (encodeCases r fallback cs) (Leaves p)
  | [], _ => hf
  | (c, x) :: rest, h => by
    rw [forall_mem_cons] at h
    refine (encode_keeps c h.1.1).bind fun a ha ↦ (asTruth_keeps ha).bind fun a ha ↦ ?_
    refine (encode_keeps x h.1.2).bind fun b hb ↦ (asNumber_keeps hb).bind fun b hb ↦ ?_
    exact (encodeCases_keeps fallback hf rest h.2).bind fun c hc ↦ .pure (leaves_orElse ha hb hc)

theorem readings_keeps : (ns : List Node) → (∀ n ∈ ns, N n) → ∀ x ∈ readings r ns, Keeps P x (Leaves p)
  | [], _, _, hx => nomatch hx
  | n :: ns, h, x, hx => by
    rw [forall_mem_cons] at h
    rcases mem_cons.1 hx with rfl | hx
    · exact encode_keeps n h.1
    · exact readings_keeps ns h.2 x hx

theorem arguments_keeps : (ns : List Node) → (∀ n ∈ ns, N n) → ∀ a ∈ arguments r ns, Argument.Sound P p N a
  | [], _, _, ha => nomatch ha
  | n :: ns, h, a, ha => by
    rw [forall_mem_cons] at h
    rcases mem_cons.1 ha with rfl | ha
    · exact ⟨h.1, memberReadings_of_isList r, encode_keeps n h.1, memberReadings_keeps n h.1⟩
    · exact arguments_keeps ns h.2 a ha

theorem memberReadings_keeps :
    (n : Node) → N n → ∀ parts, memberReadings r n = some parts → ∀ x ∈ parts, Keeps P x (Leaves p)
  | .list xs, h, parts, hparts => by
    obtain rfl := Option.some.inj hparts
    exact readings_keeps xs fun n hn ↦ hN.item h hn
  | .raw v, _, parts, hparts => by
    cases v with
    | list vs =>
      obtain rfl := Option.some.inj hparts
      intro x hx
      obtain ⟨_, -, rfl⟩ := mem_map.1 hx
      exact .throw
    | _ => cases hparts
  | .column .., _, _, h | .literal .., _, _, h | .query .., _, _, h | .caseWhen .., _, _, h
  | .expression .., _, _, h | .ifThen .., _, _, h | .function _, _, _, h | .operator _, _, _, h
  | .filter .., _, _, h | .project .., _, _, h | .scan .., _, _, h | .join .., _, _, h
  | .groupBy .., _, _, h | .orderBy .., _, _, h | .union .., _, _, h | .mutated .., _, _, h => nomatch h

end

end Encode

/-! ## Functions at rows -/

theorem subqueryTable_keeps (q : Quiet P) {sub : Subquery} {reader : Nat} {n : Node}
    (h : Guards P (sub none n)) : Guards P (subqueryTable sub reader n) := by
  have text (n : Node) : Guards P (textOf n) :=
    get.bind fun _ _ ↦ .lift fun _ _ ↦ trivial
  refine (text n).bind fun before _ ↦ get.bind fun w _ ↦ ?_
  split
  · exact .pure trivial
  · exact h.bind fun place _ ↦ (text n).bind fun after _ ↦
      (modify fun _ hw ↦ q.subqueries _ hw).bind fun _ _ ↦ .pure trivial

theorem table_keeps (place : Nat) : Guards P (table place) :=
  (Quiet.table_steady place).keeps

theorem reprOf_keeps (n : Node) : Guards P (reprOf n) :=
  get.bind fun _ _ ↦ .lift fun _ _ ↦ trivial

section Rows

variable (q : Quiet P) {members : Node → Encoding Nat}
  (hmembers : ∀ n, N n → Guards P (members n))
include q hmembers

omit q hmembers in
theorem tupleReadings_keeps {width : Nat} {a : Argument} (ha : Argument.Sound P p N a) :
    Keeps P (tupleReadings width a) fun rs ↦ ∀ r ∈ rs, r.Leaves p := by
  have wide (n : Nat) (parts : List (Encoding Reading)) (h : ∀ x ∈ parts, Keeps P x (Leaves p)) :
      Keeps P (if width == n then inTurn parts else throw .broken) fun rs ↦ ∀ r ∈ rs, r.Leaves p := by
    split
    · exact inTurn_keeps h
    · exact .throw
  have failing {α : Type} (xs : List α) :
      ∀ x ∈ xs.map (fun _ ↦ (throw .absentField : Encoding Reading)), Keeps P x (Leaves p) := by
    intro x hx
    obtain ⟨_, -, rfl⟩ := mem_map.1 hx
    exact .throw
  unfold tupleReadings
  split
  · exact wide _ _ (ha.members _ (by assumption))
  · exact wide _ _ (failing _)
  · exact wide _ _ (failing _)
  · split
    · exact wide _ _ (by simpa using ha.reading)
    · exact .throw

variable {args : List Argument} {cell : Reading}

omit q in
theorem membership_keeps (negated : Bool) (h : ∀ a ∈ args, Argument.Sound P p N a)
    (hfree : ∀ a, args[1]? = some a → a.node.isList = false → Free p) :
    Keeps P (membership members negated args) (Leaves p) := by
  refine (argument_at 1).bind fun right hat ↦ (argument_keeps h 0).bind fun left hleft ↦ ?_
  have hright := h right (mem_of_getElem? hat)
  split
  · refine hleft.reading.bind fun l hl ↦ (inTurn_keeps (hright.members _ (by assumption))).bind fun rs hrs ↦ ?_
    split
    · exact .leaves (Term.leafy.notAmong (related_self.2 hl) (Leaves.all hrs))
    · exact .leaves (Term.leafy.among (related_self.2 hl) (Leaves.all hrs))
  · rename_i hnone
    have free := hfree right hat (Bool.eq_false_iff.2 fun hlist ↦ hright.listed hlist hnone)
    refine (hmembers _ hright.node).bind fun place _ ↦ (table_keeps place).bind fun t _ ↦ ?_
    refine (tupleReadings_keeps hleft).bind fun ls hls ↦ (outcome _).bind fun rows _ ↦ ?_
    split
    · exact .leaves (Term.leafy.notInTable (free.unknowns _) _ (Leaves.all hls))
    · exact .leaves (Term.leafy.inTable (free.unknowns _) _ (Leaves.all hls))

omit q in
theorem nullness_keeps (negated : Bool) (h : ∀ a ∈ args, Argument.Sound P p N a)
    (hfree : ∀ a, args[0]? = some a → a.node.isQuery = true → Free p) :
    Keeps P (nullness members negated args) (Leaves p) := by
  refine (argument_at 0).bind fun a hat ↦ ?_
  have ha := h a (mem_of_getElem? hat)
  split
  · rename_i hquery
    have free := hfree a hat hquery
    refine (hmembers _ ha.node).bind fun place _ ↦ (table_keeps place).bind fun t _ ↦ ?_
    refine (outcome _).bind fun rows _ ↦ .pure ?_
    split
    · exact related_self.1 (Term.leafy.someRow (free.unknowns _) _)
    · exact related_self.1 (Term.leafy.noRow (free.unknowns _) _)
  · refine ha.reading.bind fun ⟨_, null⟩ hx ↦ .pure (leaves_certain.2 ?_)
    split
    · exact hx.2
    · exact hx.2

omit q hmembers in
theorem power_keeps (h : ∀ a ∈ args, Argument.Sound P p N a) : Keeps P (power args) (Leaves p) := by
  refine (argument_keeps h 0).bind fun a _ ↦ ?_
  split
  · refine (argument_keeps h 1).bind fun b _ ↦ ?_
    split
    · exact (outcome _).bind fun _ _ ↦ .pure (leaves_certain.2 trivial)
    · exact .throw
  · exact .throw

omit hmembers in
private theorem holds_keeps (hc : cell.Leaves p) (s : String) : Keeps P (Like.holds cell s) (Term.Leaves p) :=
  (q.code_keeps _).bind fun _ _ ↦ .lift fun _ ht ↦ Term.leaves_compare hc.1 (Term.leaves_int _) ht

omit hmembers in
/-- A condition is asked for only in some cases. -/
private theorem holds_unless_keeps {β : Type} {S : β → Prop} (hc : cell.Leaves p) {c : Bool}
    {s : String} {f : List Term → Encoding β} (hf : ∀ ts, (∀ t ∈ ts, t.Leaves p) → Keeps P (f ts) S) : Keeps P
      (if c = true then do
        let ts ← pure []
        f ts
      else do
        let t ← Like.holds cell s
        let ts ← pure [t]
        f ts) S := by
  split
  · exact (Keeps.pure (by simp)).bind hf
  · exact (holds_keeps q hc s).bind fun t ht ↦ (pure (by simpa using ht)).bind hf

omit hmembers in
theorem like_keeps (hc : cell.Leaves p) (op : String) (pattern : Value) :
    Keeps P (Like.encode op cell pattern) (Leaves p) := by
  have narrow (ts : List Term) : Guards P (Like.narrow ts) :=
    modify fun _ hw ↦ q.approximations _ hw
  have misses (s : String) : Keeps P (Like.misses cell s) fun ts ↦ ∀ t ∈ ts, t.Leaves p := by
    unfold Like.misses
    refine holds_unless_keeps q hc fun as has ↦ holds_unless_keeps q hc fun bs hbs ↦ ?_
    exact .pure (forall_mem_append.2 ⟨has, hbs⟩)
  unfold Like.encode
  split
  · refine (misses _).bind fun no _ ↦ holds_unless_keeps q hc fun es hes ↦ ?_
    refine (holds_keeps q hc _).bind fun t ht ↦ (narrow _).bind fun _ _ ↦ .pure ⟨?_, hc.2⟩
    rw [Term.leaves_or, forall_mem_append]
    exact ⟨hes, by simpa using ht⟩
  · refine (misses _).bind fun no hno ↦ (holds_keeps q hc _).bind fun t ht ↦ ?_
    refine holds_unless_keeps q hc fun es hes ↦ (narrow _).bind fun _ _ ↦ .pure ⟨?_, hc.2⟩
    rw [Term.leaves_or, forall_mem_append]
    exact ⟨hno, hes⟩
  · exact .throw
  · exact .throw
  · split
    · exact .throw
    · exact .throw

theorem rowFunction_keeps {rows : Encoding Nat} (hrows : Guards P rows) (op : String) {byname : Value} (whole : Node) (h : ∀ a ∈ args, Argument.Sound P p N a)
    (hfree : searches (.expression (.str op) (args.map (·.node)) byname) = true → Free p) :
    Keeps P (rowFunction members rows op args whole) (Leaves p) := by
  have nothing : Keeps P (do let _ ← rows; return missing) (Leaves p) :=
    hrows.bind fun _ _ ↦ .pure leaves_missing
  have likes : Keeps P
      (do
        let cell ← readingAt args 0
        Like.encode op cell (← literalValue (← argument args 1).node)) (Leaves p) :=
    (readingAt_keeps h 0).bind fun _ hc ↦ (argument_keeps h 1).bind fun b _ ↦
      (literalValue_keeps b.node).bind fun _ _ ↦ like_keeps q hc _ _
  unfold rowFunction
  split
  case h_1 | h_2 => exact nullness_keeps hmembers false h fun a ha hq ↦ hfree (by simp [searches, ha, hq])
  case h_3 => exact nullness_keeps hmembers true h fun a ha hq ↦ hfree (by simp [searches, ha, hq])
  case h_4 => exact membership_keeps hmembers false h fun a ha hl ↦ hfree (by simp [searches, ha, hl])
  case h_5 => exact membership_keeps hmembers true h fun a ha hl ↦ hfree (by simp [searches, ha, hl])
  case h_6 | h_7 => exact likes
  case h_8 =>
    exact (readingAt_keeps h 0).bind fun ⟨_, _⟩ ha ↦
      (lift fun _ ht ↦ (Term.leafy.abs ⟨ha.1, ha.1⟩ ht ht).1).bind fun _ ht ↦ .pure ⟨ht, ha.2⟩
  case h_9 =>
    exact (readingAt_keeps h 0).bind fun _ ha ↦ (readingAt_keeps h 1).bind fun _ hb ↦
      .pure (leaves_orNext ha hb)
  case h_10 | h_11 | h_12 | h_13 | h_14 => exact nothing
  case h_15 => exact power_keeps h
  case h_16 | h_17 | h_18 | h_19 | h_20 => exact readingAt_keeps h 0
  case h_21 => exact readingAt_keeps h 1
  case h_22 =>
    split
    · exact shared_keeps h (by assumption)
    · exact (reprOf_keeps _).bind fun _ _ ↦ .throw

end Rows

/-! ## Readers at rows -/

theorem aliasOf_keeps (n : Node) : Guards P (aliasOf n) := by
  unfold aliasOf
  split
  case h_9 => exact .throw
  all_goals exact .pure trivial

theorem targetNamed_keeps (name : Value) {ts : List Node} (h : ∀ t ∈ ts, N t) :
    Keeps P (targetNamed name ts) fun o ↦ ∀ t, o = some t → N t := by
  induction ts with
  | nil => exact .pure (by simp)
  | cons t ts ih =>
    rw [forall_mem_cons] at h
    refine (aliasOf_keeps t).bind fun a _ ↦ ?_
    split
    · exact .pure (by simpa using h.1)
    · exact ih h.2

theorem cell_keeps (q : Quiet P) (t r c : Int) : Guards P (cell t r c) :=
  (q.cell_steady t r c).keeps

theorem column_keeps (q : Quiet P) (place : Nat) (name : Value) : Guards P (column place name) :=
  (q.column_steady place name).keeps

theorem cellReading_keeps (q : Quiet P) (hp : Permits p N) (place : Nat) (row : Int) (name : Value) :
    Keeps P (cellReading place row name) (Leaves p) :=
  (column_keeps q place name).bind fun _ _ ↦ (table_keeps place).bind fun _ _ ↦
    (cell_keeps q _ _ _).bind fun _ _ ↦
      .pure ⟨hp.cell _ _ _, hp.null _ _ _⟩

theorem cellReading?_keeps (q : Quiet P) (hp : Permits p N) (place : Nat) (row : Int) (name : Value) :
    Keeps P (cellReading? place row name) fun o ↦ ∀ r, o = some r → r.Leaves p := by
  have hsome : Keeps P (do return some (← cellReading place row name))
      fun o ↦ ∀ r, o = some r → r.Leaves p :=
    (cellReading_keeps q hp place row name).bind fun r hr ↦ .pure (by simpa using hr)
  have steady : Steady P (do return some (← cellReading place row name)) :=
    (q.cellReading_steady place row name).bind fun _ ↦ Steady.pure _
  refine hsome.tryCatch steady fun e ↦ ?_
  split
  · exact .pure (by simp)
  · exact .throw

section Readers

variable (q : Quiet P) (hp : Permits p N) (hN : Hereditary N) {sub : Subquery}
  (hsub : ∀ o n, N n → Guards P (sub o n))
include q hp hN hsub

variable {targets : Option (List Node)} {n : Node} {args : List Argument}

theorem atRow_sound (place : Nat) (row : Int) (outer : Option Int)
    (ht : ∀ ts, targets = some ts → ∀ t ∈ ts, N t) (reader depth : Nat) :
    (atRow sub place row outer targets reader depth).Sound P p N := by
  induction depth with
  | zero => exact ⟨fun _ ↦ .throw, fun _ ↦ .throw, fun _ _ ↦ .throw, fun _ _ _ _ _ ↦ .throw⟩
  | succ depth ih =>
    refine ⟨fun name ↦ ?_, constant_keeps q true, fun n hn ↦ ?_, fun op args byname hw h ↦ ?_⟩
    · refine (cellReading?_keeps q hp place row name).bind fun o ho ↦ ?_
      split
      · exact .pure (ho _ rfl)
      · split
        · exact .throw
        · rename_i ts
          refine (targetNamed_keeps name (ht ts rfl)).bind fun o ho ↦ ?_
          split
          · exact encode_keeps hN ih _ (ho _ rfl)
          · refine (outcome _).bind fun pieces _ ↦ ?_
            have find (v : Value) : Guards P (findTable v) :=
              get.bind fun _ _ ↦ (outcome _).bind fun _ _ ↦ .lift fun _ _ ↦ trivial
            refine (find _).bind fun other _ ↦ ?_
            split
            · exact .throw
            · exact cellReading_keeps q hp _ _ _
    · exact (hsub _ n hn).bind fun t _ ↦ (table_keeps t).bind fun _ _ ↦
        .pure ⟨hp.cell _ _ _, hp.null _ _ _⟩
    · refine rowFunction_keeps q (fun n hn ↦ subqueryTable_keeps q (hsub none n hn)) ?_ op _ h (hp.searched _ hw)
      exact (table_keeps place).bind fun _ _ ↦ .lift fun _ _ ↦ trivial

omit hN in
theorem atPair_sound (left right : Nat) (i j : Int) (reader : Nat) :
    (atPair sub left right i j reader).Sound P p N := by
  refine ⟨fun name ↦ ?_, constant_keeps q true, fun _ _ ↦ .throw, fun op args byname hw h ↦ ?_⟩
  · refine (cellReading?_keeps q hp left i name).bind fun o ho ↦ ?_
    split
    · exact .pure (ho _ rfl)
    · exact cellReading_keeps q hp _ _ _
  · exact rowFunction_keeps q (fun n hn ↦ subqueryTable_keeps q (hsub none n hn)) .throw op _ h (hp.searched _ hw)

theorem numberAtRow_keeps (place : Nat) (row : Int) (outer : Option Int)
    (ht : ∀ ts, targets = some ts → ∀ t ∈ ts, N t) (reader : Nat) (hn : N n) :
    Keeps P (numberAtRow sub place row outer targets reader n) (Leaves p) :=
  (encode_keeps hN (atRow_sound q hp hN hsub place row outer ht reader _) n hn).bind
    fun _ hr ↦ asNumber_keeps hr

theorem truthAtRow_keeps (place : Nat) (row : Int) (outer : Option Int) (reader : Nat)
    (hn : N n) : Keeps P (truthAtRow sub place row outer reader n) (Leaves p) :=
  (encode_keeps hN (atRow_sound q hp hN hsub place row outer (by simp) reader _) n hn).bind
    fun _ hr ↦ asTruth_keeps hr

theorem truthAtPair_keeps (left right : Nat) (i j : Int) (reader : Nat) (hn : N n) :
    Keeps P (truthAtPair sub left right i j reader n) (Leaves p) :=
  (encode_keeps hN (atPair_sound q hp hsub left right i j reader) n hn).bind
    fun _ hr ↦ asTruth_keeps hr

/-! ## Readers in groups -/

variable (hg : ∀ t r g, p (.grouping t r g))
include hg

omit q hp hN hsub in
theorem contains_keeps (g : GroupOfRows) (row : Nat) : Keeps P (g.contains row) (Term.Leaves p) :=
  (table_keeps _).bind fun _ _ ↦ .pure (hg _ _ _)

theorem contributions_keeps (g : GroupOfRows) (reader : Nat)
    (h : ∀ a ∈ args, Argument.Sound P p N a) (rows : List Nat) :
    Keeps P (contributions sub g reader args rows) fun xs ↦ ∀ x ∈ xs, x.Leaves p := by
  induction rows with
  | nil => exact .pure (by simp)
  | cons row rows ih =>
    refine (argument_keeps h 1).bind fun a ha ↦ ?_
    refine (numberAtRow_keeps q hp hN hsub g.members row none (by simp) reader ha.node).bind
      fun ⟨val, null⟩ hr ↦ (contains_keeps hg g row).bind fun flag hflag ↦ ih.bind fun xs hxs ↦ .pure ?_
    exact forall_mem_cons.2 ⟨⟨hr.1, hr.2, hflag⟩, hxs⟩

omit q hp hN hsub hg in
private theorem either_keeps (h : ∀ a ∈ args, Argument.Sound P p N a)
    {f g : List Contribution → Outcome Reading} {name : String} (hf : Aggregate.Named f true name true)
    (hg : Aggregate.Named g true name false) {rows : List Contribution} (hrows : ∀ x ∈ rows, x.Leaves p) :
    Keeps P (either args f g rows) (Leaves p) := by
  refine ((argument_keeps h 0).bind fun _ _ ↦ pure (Q := fun _ ↦ True) trivial).bind fun b _ ↦ ?_
  split
  · exact .leaves (hf.related Term.leafy (Contribution.Leaves.all hrows))
  · exact .leaves (hg.related Term.leafy (Contribution.Leaves.all hrows))

theorem aggregate_keeps (g : GroupOfRows) (op : String) (h : ∀ a ∈ args, Argument.Sound P p N a) :
    Keeps P (aggregate sub g op args) (Leaves p) := by
  have distinct : Guards P (asksDistinct args) :=
    (argument_keeps h 0).bind fun _ _ ↦ .pure trivial
  have counts : Guards P (countsRows args) := by
    refine distinct.bind fun b _ ↦ ?_
    split
    · exact .pure trivial
    · exact (argument_keeps h 1).bind fun _ _ ↦ .pure trivial
  have only : Guards P (if op == "count" then countsRows args else pure false) := by
    split
    · exact counts
    · exact .pure trivial
  refine only.branch fun b _ ↦ ?_
  beta_reduce
  split
  · refine (table_keeps _).bind fun t _ ↦ (outcome _).bind fun n _ ↦ ?_
    refine (mapM fun row _ ↦ contains_keeps hg g row).bind fun ts hts ↦ .pure ?_
    rw [leaves_certain]
    refine Term.leaves_sum _ fun t ht ↦ ?_
    obtain ⟨u, hu, rfl⟩ := mem_map.1 ht
    exact ⟨hts u hu, trivial, trivial⟩
  · refine q.newReader_keeps.bind fun reader _ ↦ (table_keeps _).bind fun t _ ↦ ?_
    refine (outcome _).bind fun n _ ↦ ?_
    refine (contributions_keeps q hp hN hsub hg g reader h _).bind fun rows hrows ↦ ?_
    split
    · exact .leaves ((Aggregate.Named.groupMaximum false).related Term.leafy (Contribution.Leaves.all hrows))
    · exact .leaves ((Aggregate.Named.groupMinimum false).related Term.leafy (Contribution.Leaves.all hrows))
    · exact either_keeps h .groupCountDistinct .groupCount hrows
    · exact either_keeps h .groupSumDistinct .groupSum hrows
    · exact either_keeps h .groupAverageDistinct .groupAverage hrows

theorem groupFunction_keeps (g : GroupOfRows) (op : String) (whole : Node) (h : ∀ a ∈ args, Argument.Sound P p N a) :
    Keeps P (groupFunction sub g op args whole) (Leaves p) := by
  unfold groupFunction
  split
  · exact aggregate_keeps q hp hN hsub hg g op h
  · split
    · refine (readingAt_keeps h 0).bind fun ⟨_, _⟩ ha ↦ (readingAt_keeps h 1).bind fun ⟨_, _⟩ hb ↦ .pure ?_
      exact ⟨⟨ha.2, ha.1, hb.1⟩, hb.2⟩
    · exact (readingAt_keeps h 0).bind fun ⟨_, _⟩ ha ↦ .pure (leaves_certain.2 ha.2)
    · exact (readingAt_keeps h 0).bind fun ⟨_, _⟩ ha ↦ .pure (leaves_certain.2 ha.2)
    · split
      · exact shared_keeps h (by assumption)
      · exact (reprOf_keeps _).bind fun _ _ ↦ .throw

omit hN hsub in
theorem columnCells_keeps (g : GroupOfRows) (name : Value) (rows : List Nat) :
    Keeps P (columnCells g name rows) fun xs ↦ ∀ x ∈ xs, x.Leaves p := by
  induction rows with
  | nil => exact .pure (by simp)
  | cons row rows ih =>
    refine (contains_keeps hg g row).bind fun flag hflag ↦ (column_keeps q _ _).bind fun c _ ↦ ?_
    refine (table_keeps _).bind fun t _ ↦ (cell_keeps q _ _ _).bind fun cell _ ↦ ih.bind fun xs hxs ↦ .pure ?_
    exact forall_mem_cons.2
      ⟨⟨hp.cell _ _ _, hp.null _ _ _, hflag⟩, hxs⟩

omit q hp hN hsub hg in
private theorem leaves_firstIn {cs : List Contribution} {c : Contribution} (hc : c.Leaves p)
    (h : ∀ x ∈ cs, x.Leaves p) : (cs.foldl firstIn c).Leaves p := by
  induction cs generalizing c with
  | nil => exact hc
  | cons x xs ih =>
    rw [forall_mem_cons] at h
    refine ih ?_ h.2
    constructor <;> simp [firstIn, hc.val, hc.null, hc.flag, h.1.val, h.1.null, h.1.flag]

omit hp hN hsub hg in
theorem aliased?_keeps (g : GroupOfRows) (ht : ∀ ts, g.targets = some ts → ∀ t ∈ ts, N t) (name : Value) :
    Keeps P (aliased? g name) fun o ↦ ∀ t, o = some t → N t := by
  have found : Guards P (do let _ ← column g.members name; return true) :=
    (column_keeps q _ _).bind fun _ _ ↦ .pure trivial
  have steady : Steady P (do let _ ← column g.members name; return true) :=
    (q.column_steady _ _).bind fun _ ↦ Steady.pure _
  refine bind (found.tryCatch steady fun e ↦ ?_) fun b _ ↦ ?_
  · split
    · exact .pure trivial
    · exact .throw
  · split
    · exact .pure (by simp)
    · split
      · exact .throw
      · exact targetNamed_keeps name (ht _ (by assumption))

theorem group_sound (g : GroupOfRows) (ht : ∀ ts, g.targets = some ts → ∀ t ∈ ts, N t) (memo depth : Nat) :
    (g.reader sub memo depth).Sound P p N := by
  induction depth with
  | zero => exact ⟨fun _ ↦ .throw, fun _ ↦ .throw, fun _ _ ↦ .throw, fun _ _ _ _ _ ↦ .throw⟩
  | succ depth ih =>
    refine ⟨fun name ↦ ?_, constant_keeps q false, fun n hn ↦ ?_,
      fun op args _ _ h ↦ groupFunction_keeps q hp hN hsub hg g op _ h⟩
    · refine (table_keeps _).bind fun t _ ↦ (outcome _).bind fun n _ ↦ ?_
      have target : Keeps P
          (if (List.range n).isEmpty then pure none else aliased? g name)
          fun o ↦ ∀ t, o = some t → N t := by
        split
        · exact .pure (by simp)
        · exact aliased?_keeps q g ht name
      refine target.branch fun o ho ↦ ?_
      beta_reduce
      split
      · exact encode_keeps hN ih _ (ho _ rfl)
      · refine (columnCells_keeps q hp hg g name _).bind fun xs hxs ↦ ?_
        split
        · exact .throw
        · rw [forall_mem_cons] at hxs
          have := leaves_firstIn hxs.1 hxs.2
          exact .pure ⟨this.val, this.null⟩
    · exact (subqueryTable_keeps q (hsub none n hn)).bind fun t _ ↦ (table_keeps t).bind fun _ _ ↦
        .pure ⟨hp.cell _ _ _, hp.null _ _ _⟩

theorem inGroup_keeps (g : GroupOfRows) (ht : ∀ ts, g.targets = some ts → ∀ t ∈ ts, N t) (truth : Bool)
    (memo : Nat) (hn : N n) : Keeps P (inGroup sub g truth memo n) (Leaves p) := by
  refine (encode_keeps hN (group_sound q hp hN hsub hg g ht memo _) n hn).bind fun a ha ↦ ?_
  split
  · exact asTruth_keeps ha
  · exact asNumber_keeps ha

end Readers

end Expression

end QueryEquiv
