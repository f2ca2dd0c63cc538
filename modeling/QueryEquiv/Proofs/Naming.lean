import QueryEquiv.Proofs.Grounded
import QueryEquiv.Proofs.Loading

/-!
# Which table a name stands for

A name is looked up among all tables of a workspace, whichever query they were made for, and the first
one that the current query can see is taken. What a name should stand for is another matter: the common
table of that name in the query, or else the table of the schema, or else nothing.

The tables of the schema come first and keep their names. So a name of the schema always stands for the
table of the schema, a common table of the same name is never found, and a name that is not in the schema
may stand for a table that another query left behind. The look-up is right exactly where none of this
does harm.
-/

namespace QueryEquiv

open Text Catalog Gives List Workspace

variable {schema : Value} {name : String}

variable {names : List String} {w v : Workspace}

/-! ## Loading the schema -/

/-- The names of the tables of a schema, in lower case. -/
def schemaNames (schema : Value) : Outcome (List String) := do
  (← schema.members).mapM fun t ↦ do lowered (← t.entry "TableName")

/-- Nothing but the tables of a schema with the given names is there. -/
structure Loaded (names : List String) (w : Workspace) : Prop where
  size : w.catalog.tables.size = names.length
  last : w.lastTable + 1 = names.length
  places : w.database.places = (List.range names.length).map fun i : Nat ↦ ((i : Int), i)
  table : ∀ i (hi : i < names.length), (w.catalog.table i).id = i ∧
    (w.catalog.table i).name = .str names[i] ∧ (w.catalog.table i).scope = .null ∧
    (w.catalog.table i).lineage = none

theorem Loaded.of_eq (h : Loaded names w) (hc : v.catalog = w.catalog) (hp : v.database.places = w.database.places)
    (hl : v.lastTable = w.lastTable) : Loaded names v where
  size := hc ▸ h.size
  last := hl ▸ h.last
  places := hp.trans h.places
  table := hc ▸ h.table

/-- Constraints of the schema make no tables. -/
theorem Loaded.lenient (names : List String) : Lenient (Preserves (Loaded names)) where
  codes _ _ h := h.of_eq rfl rfl rfl
  extra _ _ h := h.of_eq rfl rfl rfl
  messages _ _ h := h.of_eq rfl rfl rfl

theorem Loaded.grounded (h : Loaded names w) : Grounded names w where
  registered := ⟨[], by rw [h.places, append_nil]⟩
  size := h.size.ge
  last := by
    have := h.last
    omega
  base i hi := ⟨(h.table i hi).1, (h.table i hi).2.1, (h.table i hi).2.2.1⟩
  unmade p _ := by
    rcases Nat.lt_or_ge p names.length with hlt | hge
    · exact .inl (h.table p hlt).2.2.2
    · rw [table_of_size_le (h.size.trans_le hge)]
      exact .inl rfl
  named p n hn := by
    rcases Nat.lt_or_ge p names.length with hlt | hge
    · rw [(h.table p hlt).2.1]
      rfl
    · rw [table_of_size_le (h.size.trans_le hge)] at hn
      cases hn
  known e he := by
    rw [h.places] at he
    obtain ⟨i, hi, rfl⟩ := mem_map.1 he
    rw [(h.table i (mem_range.1 hi)).2.1]
    rfl

theorem loadColumns_name {t : Value} {enums : List Value} {l : Loading} (h : loadColumns schema t enums = .ok l) :
    (do lowered (← t.entry "TableName")) = Except.ok l.name := by
  obtain ⟨name, hname, induct⟩ := loadColumns_induct h
  rw [induct (·.name = name) (fun _ _ _ _ _ h hl ↦ (add_extends h).name.trans hl) rfl]
  exact hname

theorem Loaded.add (h : Loaded names w) {columns : List Column} {bound : Value} {id : Int} {place : Nat} {u : Workspace}
    (hid : id = w.lastTable + 1) (hu : u.catalog = w.catalog ∧ u.database = w.database ∧ u.lastTable = id)
    (hg : Gives (makeTable { id, name := .str name, columns, bound }) u place v) : Loaded (names ++ [name]) v := by
  obtain ⟨hc, hd, hl⟩ := hu
  simp only [makeTable, bind_iff, pure_iff] at hg
  obtain ⟨p, v', he, _, v'', ha, rfl, rfl⟩ := hg
  obtain ⟨hp, rfl⟩ := enter_gives.1 he
  obtain ⟨-, db, rfl, hplaces⟩ := addTable_gives ha
  have hsize : u.catalog.tables.size = names.length := by rw [hc, h.size]
  have hlast := h.last
  have hid : id = names.length := by omega
  rw [hp, table_add_self, hd, h.places, hid, hsize] at hplaces
  refine ⟨?_, ?_, ?_, fun i hi ↦ ?_⟩
  · rw [size_add, hsize, length_append]
    rfl
  · rw [length_append]
    dsimp only
    rw [hl, hid]
    rfl
  · rw [length_append, length_singleton, range_succ, map_append]
    dsimp only
    rw [hplaces]
    have := Database.put_append (k := (names.length : Int)) (a := names.length) (m := [])
      (l := (List.range names.length).map fun i : Nat ↦ ((i : Int), i)) (fun e he ↦ by
        obtain ⟨i, hi, rfl⟩ := mem_map.1 he
        have := mem_range.1 hi
        dsimp only
        omega)
    rw [append_nil] at this
    exact this
  · dsimp only
    rcases Nat.lt_or_ge i names.length with hlt | hge
    · rw [table_add_of_lt (by omega), hc, getElem_append_left hlt]
      exact h.table i hlt
    · have hi' : i = names.length := by
        rw [length_append, length_singleton] at hi
        omega
      subst hi'
      have ht := table_add_self (c := u.catalog) (t := { id, name := .str name, columns, bound })
      rw [hsize] at ht
      rw [ht]
      exact ⟨hid, by simp, rfl, rfl⟩

theorem loadTables_loaded (ts enums : List Value) {u : Unit} (h : Loaded names w)
    (hg : Gives (loadTables schema ts enums) w u v) :
    ∃ more, ts.mapM (fun t ↦ do lowered (← t.entry "TableName")) = Except.ok (ε := Fault) more ∧
      Loaded (names ++ more) v := by
  induction ts generalizing names w enums with
  | nil =>
    obtain ⟨-, rfl⟩ := pure_iff.1 hg
    exact ⟨[], rfl, by rwa [append_nil]⟩
  | cons t ts ih =>
    simp only [loadTables, bind_iff, get_iff] at hg
    obtain ⟨id, w₁, hid, l, w₂, hl, _, _, ⟨rfl, rfl⟩, place, w₃, hm, _, w₄, hc, hg⟩ := hg
    obtain ⟨hcols, rfl⟩ := lift_iff.1 hl
    obtain ⟨rfl, rfl⟩ := newTableId_gives.1 hid
    have h₃ := h.add rfl (by exact ⟨rfl, rfl, rfl⟩) hm
    obtain rfl := modify_iff.1 hc
    obtain ⟨more, hmore, hv⟩ := ih l.enums (by exact ⟨h₃.size, h₃.last, h₃.places, h₃.table⟩) hg
    refine ⟨l.name :: more, ?_, by rwa [append_assoc] at hv⟩
    rw [mapM_cons, loadColumns_name hcols, hmore]
    rfl

theorem start_loaded {constraints : List Value} {bound timeBudget sizes : Value} {u : Unit}
    (hg : Gives (start schema constraints bound timeBudget sizes) w u v) :
    ∃ names, schemaNames schema = .ok names ∧ Loaded names v := by
  simp only [start, loadSchema, loadConstraints, bind_iff, get_iff, modify_iff, Workspace.append] at hg
  obtain ⟨_, w₁, h₁, _, w₂, ⟨_, _, rfl, _, _, ⟨rfl, rfl⟩, ts, _, hts, _, w₃, hload, _, w₄, hkeys, hend⟩, _, _, rfl,
    _, _, ⟨rfl, rfl⟩, f, w₅, hcs, rfl⟩ := hg
  obtain rfl := set_iff.1 h₁
  obtain ⟨hmembers, rfl⟩ := lift_iff.1 hts
  obtain ⟨-, rfl⟩ := pure_iff.1 hend
  have fresh : Loaded [] { schema, constraints, bound, timeBudget, formulas := { timeout := timeBudget } } :=
    ⟨rfl, rfl, rfl, by simp⟩
  obtain ⟨names, hnames, h₃⟩ := loadTables_loaded ts [] fresh hload
  rw [nil_append] at h₃
  refine ⟨names, ?_, ?_⟩
  · rw [schemaNames, Outcome.bind_ok_iff]
    exact ⟨ts, hmembers, hnames⟩
  · have h₄ := (Keeps.forIn (fun t _ _ ↦ (Lenient.keyConstraints_moves (R := Preserves (Loaded names))
      (fun _ _ h ↦ h.of_eq rfl rfl rfl) _ t).keeps.bind fun _ _ ↦ .pure trivial) h₃ hkeys).1
    have h₅ := (((Loaded.lenient names).encode_moves _).keeps (by exact h₄.of_eq rfl rfl rfl) hcs).1
    exact h₅.of_eq rfl rfl rfl

/-! ## Looking up a name -/

/-- Whether the current query can see a table under a name. -/
def Workspace.shows (w : Workspace) (name : String) (place : Nat) : Bool :=
  match lowered (w.catalog.table place).name with
  | .ok own => own == name &&
    ((w.catalog.table place).scope.same .null || (w.catalog.table place).scope.same w.currentQuery)
  | .error _ => false

/-- The tables that the current query can see under a name, in the order in which they were made. -/
def Workspace.visible (w : Workspace) (name : String) : List Nat :=
  (w.database.places.map (·.2)).filter (w.shows name)

/-- What a look-up comes to. -/
def found (name : String) : List Nat → Outcome Nat
  | [] => .error (.unresolved s!"Table '{name}' does not exist")
  | place :: _ => .ok place

theorem findNamed_eq {l : List (Int × Nat)} (hl : ∀ e ∈ l, (w.catalog.table e.2).name.isString = true)
    (name : String) : findNamed w name l = found name ((l.map (·.2)).filter (w.shows name)) := by
  induction l with
  | nil => rfl
  | cons e l ih =>
    rw [forall_mem_cons] at hl
    obtain ⟨s, hs⟩ : ∃ s, (w.catalog.table e.2).name = .str s := by
      have := hl.1
      generalize (w.catalog.table e.2).name = v at this
      cases v <;> first | exact ⟨_, rfl⟩ | cases this
    have shows : w.shows name e.2 = (lower s == name &&
        ((w.catalog.table e.2).scope.same .null || (w.catalog.table e.2).scope.same w.currentQuery)) := by
      rw [shows, hs]
      rfl
    rw [map_cons, filter_cons, shows, findNamed, hs]
    simp only [lowered, bind, Except.bind]
    split
    · rfl
    · exact ih hl.2

/-- The first table that the current query can see is found. -/
theorem findTable_eq (h : Grounded names w) (n : String) :
    exec (findTable (.str n)) w = (found (lower n) (w.visible (lower n)), w) := by
  have : exec (findTable (.str n)) w = (findNamed w (lower n) w.database.places, w) := rfl
  rw [this, findNamed_eq h.known]
  rfl

/-- Every query sees the tables of the schema, and sees them before any other. -/
theorem Grounded.visible_eq (h : Grounded names w) (name : String) : ∃ rest, w.visible name =
      (List.range names.length).filter (fun i ↦ lower (names.getD i "") == name) ++ rest := by
  obtain ⟨rest, hrest⟩ := h.registered
  refine ⟨(rest.map (·.2)).filter (w.shows name), ?_⟩
  rw [visible, hrest, map_append, filter_append, map_map]
  congr 1
  have : ((fun e : Int × Nat ↦ e.2) ∘ fun i : Nat ↦ ((i : Int), i)) = id := rfl
  rw [this, map_id]
  refine filter_congr fun i hi ↦ ?_
  have hi := mem_range.1 hi
  obtain ⟨-, hname, hscope⟩ := h.base i hi
  rw [shows, hname, hscope]
  simp [lowered, List.getD, hi, Value.same]

/-! ## Sessions -/

/-- A workspace in the course of encoding queries one after another, with the common tables that the
current query has defined so far and the table at hand. -/
inductive Session (schema : Value) : List (String × Nat) → Option Nat → Workspace → Prop
  | start {constraints : List Value} {bound timeBudget sizes : Value} {w v : Workspace}
      (h : Gives (start schema constraints bound timeBudget sizes) w () v) : Session schema [] none v
  /-- The next query. -/
  | next {defined : List (String × Nat)} {hand : Option Nat} {w : Workspace} (query : Value)
      (h : Session schema defined hand w) : Session schema [] none { w with currentQuery := query }
  /-- A clause, a source or a whole query, which may contain queries up to a depth. -/
  | clause {defined : List (String × Nat)} {hand hand' : Option Nat} {w w' : Workspace} {depth r : Nat}
      {outer : Option Int} {n : Node} (h : Session schema defined hand w) (hn : n.Regular)
      (hg : Gives ((Query.encode (Query.nested depth) outer n).run hand) w (r, hand') w') :
      Session schema defined (some r) w'
  /-- A common table of the current query. -/
  | common {defined : List (String × Nat)} {hand hand' : Option Nat} {w w' w'' : Workspace} {depth r : Nat}
      {outer : Option Int} {name : String} {n : Node} (h : Session schema defined hand w) (hn : n.Regular)
      (hs : n.isSelection = true)
      (hg : Gives ((Query.encode (Query.nested depth) outer n).run hand) w (r, hand') w')
      (ht : Gives (retitle r (.str name)) w' () w'') : Session schema (defined ++ [(name, r)]) hand' w''

/-- The invariant holds throughout a session, and common tables are none of the schema. -/
theorem Session.grounded {defined : List (String × Nat)} {hand : Option Nat} (h : Session schema defined hand w) :
    ∃ names, schemaNames schema = .ok names ∧ Grounded names w ∧ ∀ d ∈ defined, names.length ≤ d.2 := by
  induction h with
  | start h =>
    obtain ⟨names, hnames, hw⟩ := start_loaded h
    exact ⟨names, hnames, hw.grounded, by simp⟩
  | next query h ih =>
    obtain ⟨names, hnames, hw, -⟩ := ih
    exact ⟨names, hnames, hw.of_eq rfl rfl rfl, by simp⟩
  | clause h hn hg ih =>
    obtain ⟨names, hnames, hw, hd⟩ := ih
    exact ⟨names, hnames, (Grounds.encode names hn hg).1.keeps hw, hd⟩
  | @common defined hand hand' w w' w'' depth r outer name n h hn hs hg ht ih =>
    obtain ⟨names, hnames, hw, hd⟩ := ih
    obtain ⟨hgrounds, hnew⟩ := Grounds.encode names hn hg
    have hle : names.length ≤ r := hw.size.trans (hnew (hn.makes hs))
    obtain rfl := modify_iff.1 ht
    refine ⟨names, hnames, ((hgrounds.keeps hw).modify (f := (·.retitled (.str name))) hle (fun _ ↦ rfl)
      (fun _ ↦ .inl rfl) rfl).of_eq rfl rfl rfl, fun d hmem ↦ ?_⟩
    obtain hmem | hmem := mem_append.1 hmem
    · exact hd d hmem
    · rw [mem_singleton.1 hmem]
      exact hle

/-- What a name should stand for: the common table of the query, or else the table of the schema. -/
def intended (names : List String) (defined : List (String × Nat)) (name : String) : Outcome Nat :=
  match defined.find? fun d ↦ Text.lower d.1 == name with
  | some d => .ok d.2
  | none => found name ((List.range names.length).filter fun i ↦ Text.lower (names.getD i "") == name)

@[simp] theorem found_eq_ok_iff {l : List Nat} {place : Nat} : found name l = .ok place ↔ l.head? = some place := by
  cases l <;> simp [found]

theorem base_eq_nil_iff : (List.range names.length).filter (fun i ↦ lower (names.getD i "") == name) = [] ↔
      ∀ s ∈ names, lower s ≠ name := by
  simp only [filter_eq_nil_iff, mem_range, beq_iff_eq]
  constructor
  · intro h s hs
    obtain ⟨i, hi, rfl⟩ := getElem_of_mem hs
    simpa [List.getD, hi] using h i hi
  · intro h i hi
    simpa [List.getD, hi] using h names[i] (getElem_mem hi)

/-- At any point of a session, a name is looked up as it should be exactly if, where the query has a
common table of the name, no table of the schema has it too and that common table is the first that the
query can see, and where it has none, the schema has a table of the name or no table at all can be seen
under it. -/
theorem findTable_eq_intended_iff {schema : Value} {defined : List (String × Nat)} {hand : Option Nat}
    (h : Session schema defined hand w) (n : String) :
    ∃ names, schemaNames schema = .ok names ∧
      ((exec (findTable (.str n)) w).1 = intended names defined (Text.lower n) ↔
        match defined.find? fun d ↦ Text.lower d.1 == Text.lower n with
        | some d => (∀ s ∈ names, Text.lower s ≠ Text.lower n) ∧
            (w.visible (Text.lower n)).head? = some d.2
        | none => (∃ s ∈ names, Text.lower s = Text.lower n) ∨ w.visible (Text.lower n) = []) := by
  obtain ⟨names, hnames, hw, hd⟩ := h.grounded
  refine ⟨names, hnames, ?_⟩
  rw [findTable_eq hw]
  obtain ⟨rest, hrest⟩ := hw.visible_eq (lower n)
  generalize hB : (List.range names.length).filter _ = B at hrest
  have hnil : B = [] ↔ ∀ s ∈ names, lower s ≠ lower n := by rw [← hB, base_eq_nil_iff]
  unfold intended
  rcases hfind : defined.find? fun d ↦ lower d.1 == lower n with _ | d
  · -- No common table: what counts is whether the tables of the schema answer.
    simp only [hfind, hB, hrest]
    cases B with
    | nil =>
      have hall := hnil.1 rfl
      rw [nil_append, or_iff_right fun ⟨s, hs, e⟩ ↦ hall s hs e]
      cases rest <;> simp [found]
    | cons b B =>
      have : ∃ s ∈ names, lower s = lower n := by
        by_contra hno
        cases hnil.2 fun s hs e ↦ hno ⟨s, hs, e⟩
      simp [found, this]
  · -- A common table is found only if it comes first, and the tables of the schema come before it.
    have hle := hd d (mem_of_find?_eq_some hfind)
    simp only [hfind, found_eq_ok_iff]
    refine ⟨fun hhead ↦ ⟨hnil.1 ?_, hhead⟩, fun hright ↦ hright.2⟩
    rw [hrest] at hhead
    by_contra hne
    obtain ⟨b, B, rfl⟩ := exists_cons_of_ne_nil hne
    obtain rfl : b = d.2 := by simpa using hhead
    have : d.2 ∈ List.range names.length := mem_of_mem_filter (hB ▸ mem_cons_self)
    exact absurd (mem_range.1 this) (by omega)

/-- A schema of one table `t` that has one column `a`. -/
def singleTable : Value :=
  .list [.object [("TableName", .str "t"), ("PKeys", .list []), ("FKeys", .list []),
    ("Others", .list [.object [("Name", .str "a"), ("Type", .str "int")]])]]

/-- `SELECT a FROM t` -/
def selectColumn : Node :=
  .query 1 none (.project 2 [.column (.str "a") .null] .null) (.scan (.str "t") .null)
    .missing .missing .missing .null

def singleTableLoaded : Workspace := (exec (start singleTable [] (.int 1) (.int 60) .null) {}).2

theorem singleTable_loads : Gives (start singleTable [] (.int 1) (.int 60) .null) {} () singleTableLoaded :=
  .of_toOption (by decide +kernel)

def columnSelected : Workspace :=
  (exec ((Query.encode (Query.nested 0) none selectColumn).run none) singleTableLoaded).2

/-- Behind `WITH c AS (SELECT a FROM t)` the name `C` stands for the common table, as it should. -/
theorem findTable_common :
    ∃ w, Session singleTable [("c", 2)] (some 2) w ∧ (exec (findTable (.str "C")) w).1 = .ok 2 := by
  have hquery : Gives ((Query.encode (Query.nested 0) none selectColumn).run none) singleTableLoaded
      (2, some 2) columnSelected := .of_toOption (by decide +kernel)
  have hname : Gives (retitle 2 (.str "c")) columnSelected () (exec (retitle 2 (.str "c")) columnSelected).2 :=
    .of_toOption (by decide +kernel)
  have hregular : selectColumn.Regular := by repeat' constructor
  have h := Session.common (.start singleTable_loads) hregular rfl hquery hname
  refine ⟨_, h, ?_⟩
  obtain ⟨names, hnames, hiff⟩ := findTable_eq_intended_iff h "C"
  obtain rfl : names = ["t"] := by
    have hsingle : (schemaNames singleTable).toOption = some ["t"] := by decide +kernel
    simpa [hnames, Except.toOption] using hsingle
  have hfind : ([] ++ [("c", 2)]).find? (fun d : String × Nat ↦ lower d.1 == lower "C")
      = some ("c", 2) := by decide +kernel
  rw [hfind] at hiff
  rw [hiff.2 (by decide +kernel), intended, hfind]

end QueryEquiv
