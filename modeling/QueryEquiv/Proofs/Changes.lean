import QueryEquiv.Proofs.Compaction
import QueryEquiv.Proofs.Evaluation
import QueryEquiv.Proofs.Numbering

/-!
# How tables come about

While queries are encoded, the tables of a workspace change in a few ways only (`Change`). A table is made
under a new number and gets rows of unknowns. The table of a grouping gets its columns, and rows with them,
when it is projected. A table of the schema gets a further number under which its rows are shared. Copies are
made and names are changed. Formulas are added and never taken back.

Whatever is encoded, the workspace goes through a chain of such changes (`Chain.query`). So a property of all
workspaces that occur is proved by looking at each kind of change once.
-/

namespace QueryEquiv

open Database Formulas Catalog List Workspace Expression Operator

/-! ## Formulas that say more -/

namespace Formulas

variable {fs gs : Formulas} {t : Term} {label : Option String}

@[simp] theorem fullTable_append (fs : Formulas) (t : Term) (label : Option String) :
    (fs.append t label).fullTable = fs.fullTable := by
  unfold append
  split
  · split <;> rfl
  · dsimp only
    split <;> rfl

/-- No formula is added under the label of a clause, which has a dollar sign, and no table is cut down. -/
structure AddsNoClause (gs fs : Formulas) : Prop where
  labels : ∀ l ∈ gs.labels, '$' ∈ l.toList → l ∈ fs.labels
  full : gs.fullTable = fs.fullTable

theorem AddsNoClause.of_entries (h : gs.entries = fs.entries) (hfull : gs.fullTable = fs.fullTable) :
    gs.AddsNoClause fs := by
  refine ⟨fun l hl _ ↦ ?_, hfull⟩
  rwa [Formulas.labels, h] at hl

theorem notMem_made_up (n : Nat) : '$' ∉ s!"f_{n}".toList := by
  intro h
  change '$' ∈ ("f_" ++ n.repr).toList at h
  rw [String.toList_append, mem_append, Nat.toList_repr] at h
  rcases h with h | h
  · exact absurd h (by decide)
  · exact absurd (Nat.isDigit_of_mem_toDigits (by decide) (by decide) h) (by decide)

theorem addsNoClause_append (hlabel : ∀ l, label = some l → '$' ∉ l.toList) :
    (fs.append t label).AddsNoClause fs := by
  refine ⟨fun l hl hdollar ↦ (mem_labels_append hl).resolve_right ?_, fullTable_append fs t label⟩
  rintro rfl
  cases label with
  | some l => exact hlabel l rfl hdollar
  | none => exact notMem_made_up _ hdollar

end Formulas

/-! ## Changes -/

/-- A workspace with other clauses and tags. -/
abbrev Workspace.noting (w : Workspace) (next : Nat) (clauses : List (Nat × ClauseState)) : Workspace :=
  { w with nextTag := next, clauses }

/-- What the lineage of a table of the schema says once it was used. -/
def scannedText : String := "Scanned from initial schema"

/-- The lineage of a table begins with a word. -/
def Table.Begins (t : Table) (word : String) : Prop := ∃ s, t.lineage = some s ∧ word.toList <+: s.toList

/-- A table was made by an operator: it has a lineage, which is not that of a scanned table. -/
def Table.Made (t : Table) : Prop := ∃ s, t.lineage = some s ∧ ¬ "Scan".toList <+: s.toList

namespace Table.Begins

variable {t : Table} {word other : String}

theorem of_append (rest : String) (h : t.lineage = some (word ++ rest)) : t.Begins word :=
  ⟨_, h, by rw [String.toList_append]; exact prefix_append _ _⟩

theorem of_prefix (h : t.Begins word) (hother : other.toList <+: word.toList := by decide) : t.Begins other := by
  obtain ⟨s, hs, hword⟩ := h
  exact ⟨s, hs, hother.trans hword⟩

/-- A lineage does not begin with two words, unless one begins with the other. -/
theorem not_begins (h : t.Begins word) (h₁ : ¬ word.toList <+: other.toList := by decide)
    (h₂ : ¬ other.toList <+: word.toList := by decide) : ¬ t.Begins other := by
  rintro ⟨s, hs, hother⟩
  obtain ⟨_, hl, hword⟩ := h
  rw [hl, Option.some_inj] at hs
  subst hs
  exact ( prefix_or_prefix_of_prefix hword hother).elim h₁ h₂

theorem made (h : t.Begins word) (h₁ : ¬ word.toList <+: "Scan".toList := by decide)
    (h₂ : ¬ "Scan".toList <+: word.toList := by decide) : t.Made := by
  obtain ⟨s, hs, hword⟩ := h
  exact ⟨s, hs, fun hscan ↦ ( prefix_or_prefix_of_prefix hword hscan).elim h₁ h₂⟩

end Table.Begins

namespace Table

variable {t u : Table} {word : String} (h : t.lineage = u.lineage ∨ u.lineage = none ∧ t.lineage = some scannedText)
include h

theorem lineage_eq_of_kept {s : String} (hs : u.lineage = some s) : t.lineage = some s := by
  rcases h with hl | ⟨hu, -⟩
  · rw [hl, hs]
  · rw [hu] at hs
    cases hs

/-- What is said of a lineage, and is not true of a scanned table, goes on to hold. -/
theorem lineage_iff_of_kept {P : String → Prop} (hP : ¬ P scannedText) :
    (∃ s, t.lineage = some s ∧ P s) ↔ ∃ s, u.lineage = some s ∧ P s := by
  refine ⟨fun ⟨s, hs, hP'⟩ ↦ ?_, fun ⟨s, hs, hP'⟩ ↦ ⟨s, lineage_eq_of_kept h hs, hP'⟩⟩
  rcases h with hl | ⟨-, ht⟩
  · exact ⟨s, hl ▸ hs, hP'⟩
  · rw [ht] at hs
    cases hs
    exact absurd hP' hP

theorem begins_iff_of_kept (hword : ¬ word.toList <+: scannedText.toList) : t.Begins word ↔ u.Begins word :=
  lineage_iff_of_kept h hword

theorem made_iff_of_kept : t.Made ↔ u.Made := lineage_iff_of_kept h (by decide)

end Table

/-- A table is another one up to names and labels; one that was not used before may be noted as scanned. -/
structure Table.Kin (t u : Table) : Prop where
  id : t.id = u.id
  bound : t.bound = u.bound
  columns : t.columns.map (·.id) = u.columns.map (·.id)
  ancestors : t.ancestors = u.ancestors
  lineage : t.lineage = u.lineage ∨ u.lineage = none ∧ t.lineage = some scannedText

namespace Table.Kin

variable {t u v : Table}

theorem refl (t : Table) : t.Kin t := ⟨rfl, rfl, rfl, rfl, .inl rfl⟩

theorem of_eq (h : t = u) : t.Kin u := h ▸ refl t

theorem trans (h : t.Kin u) (g : u.Kin v) : t.Kin v := by
  refine ⟨h.id.trans g.id, h.bound.trans g.bound, h.columns.trans g.columns, h.ancestors.trans g.ancestors, ?_⟩
  rcases h.lineage with hl | ⟨hu, ht⟩
  · rw [hl]
    exact g.lineage
  · rcases g.lineage with hl | ⟨-, hs⟩
    · exact .inr ⟨hl ▸ hu, ht⟩
    · rw [hu] at hs
      cases hs

theorem rows_eq (h : t.Kin u) : t.rows = u.rows := by rw [rows, rows, h.bound]

theorem lineage_eq (h : t.Kin u) {s : String} (hs : u.lineage = some s) : t.lineage = some s :=
  lineage_eq_of_kept h.lineage hs

theorem begins (h : t.Kin u) {word : String} (hu : u.Begins word) : t.Begins word := by
  obtain ⟨s, hs, hword⟩ := hu
  exact ⟨s, h.lineage_eq hs, hword⟩

theorem begins_iff (h : t.Kin u) {word : String} (hword : ¬ word.toList <+: scannedText.toList := by decide) :
    t.Begins word ↔ u.Begins word :=
  begins_iff_of_kept h.lineage hword

theorem made_iff (h : t.Kin u) : t.Made ↔ u.Made := made_iff_of_kept h.lineage

end Table.Kin

/-- A table is another one or a copy of it, up to names. Tables that operators have made may get other labels, and
sorted ones another bound. -/
structure Table.Stems (t u : Table) : Prop where
  id : t.id = u.id
  columns : t.columns.map (·.id) = u.columns.map (·.id)
  lineage : t.lineage = u.lineage ∨ u.lineage = none ∧ t.lineage = some scannedText
  bound : t.bound = u.bound ∨ u.Begins "Sorted"
  origin : t.origin = u.origin ∨ u.Made

theorem Table.Stems.refl (t : Table) : t.Stems t := ⟨rfl, rfl, .inl rfl, .inl rfl, .inl rfl⟩

theorem Table.Kin.stems {t u : Table} (h : t.Kin u) (horigin : t.origin = u.origin ∨ u.Made) : t.Stems u :=
  ⟨h.id, h.columns, h.lineage, .inl h.bound, horigin⟩

theorem Catalog.Like.stems {t u : Table} (h : Like t u) : t.Stems u := by
  obtain ⟨as, rfl⟩ := h
  exact ⟨rfl, rfl, .inl rfl, .inl rfl, .inl rfl⟩

/-- A table is entered into the catalog, maybe beside copies of others, and gets rows in the database. -/
structure Enters (w : Workspace) (place : Nat) (t : Table) (c : Catalog) (db : Database) : Prop where
  new : w.catalog.tables.size ≤ place
  entered : place < c.tables.size
  old : ∀ q < w.catalog.tables.size, c.table q = w.catalog.table q
  like : ∀ q ≠ place, ∃ p, Catalog.Like (c.table q) (w.catalog.table p)
  added : w.database.addTable place t = (.ok (), db)

section Enters

variable {w : Workspace} {place : Nat} {t : Table} {c : Catalog} {db : Database}

theorem Enters.stems (h : Enters w place t c db) {q : Nat} (hq : q ≠ place) :
    ∃ p, (c.table q).Stems (w.catalog.table p) := (h.like q hq).imp fun _ h ↦ h.stems

theorem Enters.places (h : Enters w place t c db) (hid : (c.table place).id = t.id) :
    db.places = Database.put (c.table place).id place w.database.places := hid ▸ (addTable_ok h.added).2

end Enters

/-- A table under a new number has the rows of a scanned table, and they are there where those are. -/
structure Shares (w : Workspace) (place n : Nat) (t : Table) (db : Database) (fs : Formulas) : Prop where
  scanned : (w.catalog.table place).mentionsIfAny "Scan" = true
  kin : t.Kin { w.catalog.table place with id := w.lastTable + 1 }
  origin : t.origin = (w.catalog.table place).origin
  rows : (w.catalog.table place).rows = .ok n
  places : db.places = Database.put (w.lastTable + 1) w.catalog.tables.size w.database.places
  shared : ∀ i, db.rowsOf i =
    if i = w.lastTable + 1 then w.database.rowsOf (w.catalog.table place).id else w.database.rowsOf i
  appended : ∀ Q : Formulas → Prop, Q w.formulas →
    (∀ gs t (name : String), Q gs → Q (gs.append t (some s!"scan_{name}"))) → Q fs
  deleted : ∀ I : Interpretation, (∀ f ∈ fs.entries, I.Holds f.term) →
    ∀ r < n, I.deleted (w.lastTable + 1) r = I.deleted (w.catalog.table place).id r

namespace Shares

variable {w : Workspace} {place n : Nat} {t : Table} {db : Database} {fs : Formulas} (h : Shares w place n t db fs)
include h

theorem formulas : fs.Extends w.formulas :=
  h.appended (·.Extends w.formulas) (.refl _) fun _ t _ hgs ↦ hgs.trans (extends_append _ t _)

theorem full : fs.fullTable = w.formulas.fullTable :=
  h.appended (·.fullTable = w.formulas.fullTable) rfl fun _ _ _ hgs ↦ by rw [fullTable_append, hgs]

theorem labels : ∀ l ∈ fs.labels, l ∈ w.formulas.labels ∨ "scan_".toList <+: l.toList := by
  refine h.appended (fun gs ↦ ∀ l ∈ gs.labels, l ∈ w.formulas.labels ∨ "scan_".toList <+: l.toList) (fun _ ↦ .inl)
    fun gs t name hgs l hl ↦ ?_
  rcases mem_labels_append hl with hl | rfl
  · exact hgs l hl
  · refine .inr ?_
    change "scan_".toList <+: ("scan_" ++ name).toList
    rw [String.toList_append]
    exact prefix_append _ _

end Shares

/-- No table gets a number or rows, where the tables of `w₀` keep all but their names. Formulas may be added. -/
structure Still (w₀ w w' : Workspace) : Prop where
  size : w.catalog.tables.size ≤ w'.catalog.tables.size
  old : ∀ p < w.catalog.tables.size, (w'.catalog.table p).Stems (w.catalog.table p) ∧
    (p < w₀.catalog.tables.size → (w'.catalog.table p).Kin (w.catalog.table p) ∧
      (w'.catalog.table p).origin = (w.catalog.table p).origin)
  stems : ∀ q, ∃ p, (w'.catalog.table q).Stems (w.catalog.table p)
  places : w'.database.places = w.database.places
  rows : ∀ id, w'.database.rowsOf id = w.database.rowsOf id
  last : w'.lastTable = w.lastTable
  formulas : w'.formulas.Extends w.formulas
  full : w'.formulas.fullTable = w.formulas.fullTable

/-- What one step of an encoding does to the tables, where those of `w₀` were there before. -/
inductive Change (w₀ w : Workspace) : Workspace → Prop
  | still {w' : Workspace} (h : Still w₀ w w') : Change w₀ w w'
  /-- The result of an operator, or a smaller table that stands for it. Its bound may be lowered to what it has
  rows for. -/
  | make {place : Nat} {t : Table} {c : Catalog} {db : Database} {fs : Formulas} (enters : Enters w place t c db)
      (id : t.id = w.lastTable + 1) (made : t.Made) (grouped : t.Begins "Grouped from" → t.columns = [])
      (columns : (∃ n, t.columns.map (·.id) = upTo n) ∨
        ∃ p, t.columns.map (·.id) = (w.catalog.table p).columns.map (·.id))
      (table : ∃ b, (c.table place).Kin { t with bound := b } ∧
        (b = t.bound ∨ t.mentionsIfAny "Grouped" = false ∧
          ∃ n, (c.table place).rows = .ok n ∧ n ≤ (db.rowsOf t.id).size))
      (formulas : fs = w.formulas ∨ ¬ t.Begins "Grouped from" ∧ ∃ full,
        fs = { w.formulas with fullTable := Formulas.put t.id full w.formulas.fullTable }) :
      Change w₀ w { w with lastTable := w.lastTable + 1, catalog := c, database := db, formulas := fs }
  /-- A copy of the table of a grouping gets columns. -/
  | project {place p n : Nat} {source : Int} {t : Table} {c : Catalog} {db : Database}
      (enters : Enters w place t c db) (grouped : (w.catalog.table p).mentionsIfAny "Grouped from" = true)
      (id : t.id = (w.catalog.table p).id) (bound : t.bound = (w.catalog.table p).bound)
      (lineage : t.lineage = some ("Grouped and projected" ++ " from T" ++ toString source))
      (columns : t.columns.map (·.id) = (w.catalog.table p).columns.map (·.id) ++ upTo n)
      (table : (c.table place).Kin t) : Change w₀ w { w with catalog := c, database := db }
  /-- An alias of a scanned table shares its rows. -/
  | share {place n : Nat} {t : Table} {db : Database} {fs : Formulas} (shares : Shares w place n t db fs) :
      Change w₀ w
        { w with lastTable := w.lastTable + 1, catalog := (w.catalog.add t).2, database := db, formulas := fs }

/-- A workspace is reached from another by changes. -/
def Chain (w₀ w : Workspace) : Prop := Relation.ReflTransGen (Change w₀) w₀ w

namespace Change

variable {w₀ v₀ w w' : Workspace}

/-! ### Changes that make no table -/

theorem kept_of_eq {t u : Table} {old : Prop} (h : t = u) :
    t.Stems u ∧ (old → t.Kin u ∧ t.origin = u.origin) := h ▸ ⟨.refl _, fun _ ↦ ⟨.refl _, rfl⟩⟩

theorem note (tables : w'.catalog.tables = w.catalog.tables) (places : w'.database.places = w.database.places)
    (rows : ∀ id, w'.database.rowsOf id = w.database.rowsOf id) (last : w'.lastTable = w.lastTable)
    (formulas : w'.formulas.Extends w.formulas) (full : w'.formulas.fullTable = w.formulas.fullTable) :
    Change w₀ w w' := by
  have same (p : Nat) : w'.catalog.table p = w.catalog.table p := table_congr tables p
  exact still
    { size := by rw [tables]
      old := fun p _ ↦ kept_of_eq (same p)
      stems := fun q ↦ ⟨q, by rw [same]; exact .refl _⟩
      places, rows, last, formulas, full }

theorem modify {place : Nat} {f : Table → Table} (hf : (f (w.catalog.table place)).Stems (w.catalog.table place))
    (hold : place < w₀.catalog.tables.size → (f (w.catalog.table place)).Kin (w.catalog.table place) ∧
      (f (w.catalog.table place)).origin = (w.catalog.table place).origin) :
    Change w₀ w { w with catalog := w.catalog.modify place f } := by
  have kept (q : Nat) : ((w.catalog.modify place f).table q).Stems (w.catalog.table q) ∧
      (q < w₀.catalog.tables.size → ((w.catalog.modify place f).table q).Kin (w.catalog.table q) ∧
        ((w.catalog.modify place f).table q).origin = (w.catalog.table q).origin) := by
    rcases table_modify_or w.catalog place f q with h | ⟨rfl, h⟩
    · exact kept_of_eq h
    · rw [h]
      exact ⟨hf, hold⟩
  exact still
    { size := (size_modify f).ge
      old := fun p _ ↦ kept p
      stems := fun q ↦ ⟨q, (kept q).1⟩
      places := rfl
      rows := fun _ ↦ rfl
      last := rfl
      formulas := .refl _
      full := rfl }

theorem rename (place : Nat) {f : Table → Table} (kin : ∀ t, (f t).Kin t)
    (origin : w₀.catalog.tables.size ≤ place ∧ (w.catalog.table place).Made ∨ ∀ t, (f t).origin = t.origin) :
    Change w₀ w { w with catalog := w.catalog.modify place f } := by
  refine modify ((kin _).stems (origin.symm.imp (fun h ↦ h _) And.right)) fun hp ↦ ⟨kin _, ?_⟩
  exact origin.elim (fun h ↦ absurd hp (not_lt.2 h.1)) fun h ↦ h _

/-- A sorted table gets the bound that its limit says. -/
theorem limit {place : Nat} (b : Value) (place_new : w₀.catalog.tables.size ≤ place)
    (sorted : (w.catalog.table place).Begins "Sorted") :
    Change w₀ w { w with catalog := w.catalog.modify place ({ · with bound := b }) } :=
  modify ⟨rfl, rfl, .inl rfl, .inr sorted, .inl rfl⟩ fun hp ↦ absurd hp (not_lt.2 place_new)

theorem copy {c : Catalog} (copied : Copied w.catalog c) : Change w₀ w { w with catalog := c } :=
  still
    { size := copied.size
      old := fun p hp ↦ kept_of_eq (copied.old p hp)
      stems := fun q ↦ (copied.like q).imp fun _ h ↦ h.stems
      places := rfl
      rows := fun _ ↦ rfl
      last := rfl
      formulas := .refl _
      full := rfl }

/-! ### What every change keeps -/

theorem last_le (h : Change w₀ w w') : w.lastTable ≤ w'.lastTable := by
  cases h with
  | still h => rw [h.last]
  | project => exact le_rfl
  | _ => exact (lt_add_one w.lastTable).le

theorem size_le (h : Change w₀ w w') : w.catalog.tables.size ≤ w'.catalog.tables.size := by
  cases h with
  | still h => exact h.size
  | make enters | project enters => exact enters.new.trans enters.entered.le
  | share => exact (Nat.le_succ _).trans (size_add).ge

/-- If fewer tables are held to have been there before, the less is asked. -/
theorem mono (hsize : w₀.catalog.tables.size ≤ v₀.catalog.tables.size) (h : Change v₀ w w') : Change w₀ w w' := by
  cases h with
  | still h =>
    exact still { h with old := fun p hp ↦ ⟨(h.old p hp).1, fun hp₀ ↦ (h.old p hp).2 (hp₀.trans_le hsize)⟩ }
  | make h₁ h₂ h₃ h₄ h₅ h₆ h₇ => exact make h₁ h₂ h₃ h₄ h₅ h₆ h₇
  | project h₁ h₂ h₃ h₄ h₅ h₆ h₇ => exact project h₁ h₂ h₃ h₄ h₅ h₆ h₇
  | share shares => exact share shares

/-- Tables stay at their places. Those that were there before keep all but their names. -/
theorem old (h : Change w₀ w w') {p : Nat} (hp : p < w.catalog.tables.size) :
    (w'.catalog.table p).Stems (w.catalog.table p) ∧
    (p < w₀.catalog.tables.size → (w'.catalog.table p).Kin (w.catalog.table p) ∧
      (w'.catalog.table p).origin = (w.catalog.table p).origin) := by
  cases h with
  | still h => exact h.old p hp
  | make enters | project enters => exact kept_of_eq (enters.old p hp)
  | share => exact kept_of_eq (table_add_of_lt hp)

theorem extends_formulas (h : Change w₀ w w') : w'.formulas.Extends w.formulas := by
  cases h with
  | still h => exact h.formulas
  | make _ _ _ _ _ _ formulas =>
    rcases formulas with rfl | ⟨-, full, rfl⟩
    · exact .refl _
    · exact .of_entries rfl
  | project => exact .refl _
  | share shares => exact shares.formulas

end Change

namespace Chain

variable {w₀ w w' : Workspace}

theorem refl (w : Workspace) : Chain w w := Relation.ReflTransGen.refl

theorem step (h : Chain w₀ w) (hw : Change w₀ w w') : Chain w₀ w' := h.tail hw

/-- Something that every change hands on is handed on by a chain. -/
theorem induct {P : Workspace → Prop} (h : Chain w w') (hw : P w)
    (hstep : ∀ v v', P v → Change w v v' → P v') : P w' := by
  induction h with
  | refl => exact hw
  | tail _ hv ih => exact hstep _ _ ih hv

theorem last_le (h : Chain w w') : w.lastTable ≤ w'.lastTable :=
  h.induct (P := fun v ↦ w.lastTable ≤ v.lastTable) le_rfl fun _ _ hv hc ↦ hv.trans hc.last_le

theorem size_le (h : Chain w w') : w.catalog.tables.size ≤ w'.catalog.tables.size :=
  h.induct (P := fun v ↦ w.catalog.tables.size ≤ v.catalog.tables.size) le_rfl
    fun _ _ hv hc ↦ hv.trans hc.size_le

theorem trans (h : Chain w₀ w) (g : Chain w w') : Chain w₀ w' :=
  g.induct (P := Chain w₀) h fun _ _ hv hc ↦ hv.step (hc.mono h.size_le)

theorem extends_formulas (h : Chain w w') : w'.formulas.Extends w.formulas :=
  h.induct (P := fun v ↦ v.formulas.Extends w.formulas) (.refl _) fun _ _ hv hc ↦ hv.trans hc.extends_formulas

/-- A table that was there before keeps all but its names. -/
theorem kin (h : Chain w w') {p : Nat} (hp : p < w.catalog.tables.size) :
    (w'.catalog.table p).Kin (w.catalog.table p) ∧ (w'.catalog.table p).origin = (w.catalog.table p).origin := by
  refine (h.induct (P := fun v ↦ p < v.catalog.tables.size ∧ (v.catalog.table p).Kin (w.catalog.table p) ∧
    (v.catalog.table p).origin = (w.catalog.table p).origin) ⟨hp, .refl _, rfl⟩ ?_).2
  rintro v v' ⟨hpv, hkin, horigin⟩ hc
  obtain ⟨hkin', horigin'⟩ := (hc.old hpv).2 hp
  exact ⟨hpv.trans_le hc.size_le, hkin'.trans hkin, horigin'.trans horigin⟩

theorem rows_prefix (h : Chain w w') {id : Int} (hid : id ≤ w.lastTable) :
    (w.database.rowsOf id).toList <+: (w'.database.rowsOf id).toList := by
  refine (h.induct (P := fun v ↦ id ≤ v.lastTable ∧ (w.database.rowsOf id).toList <+: (v.database.rowsOf id).toList)
    ⟨hid, prefix_rfl⟩ fun v v' hv hc ↦ ⟨hv.1.trans hc.last_le, hv.2.trans ?_⟩).2
  cases hc with
  | still h => rw [h.rows]
  | make enters | project enters => exact rowsOf_addTable enters.added id
  | share shares =>
    rw [shares.shared, if_neg (hv.1.trans_lt (lt_add_one _)).ne]

/-- A table that lies somewhere still lies there afterwards. -/
theorem lies (h : Chain w w') {place : Nat} {s : Sheet} (hs : Lies w place s) : Lies w' place s where
  entered := hs.entered.trans_le h.size_le
  used := hs.used.trans h.last_le
  shape := by
    obtain ⟨hkin, -⟩ := h.kin hs.entered
    rw [← hs.shape, Results.Shape.ofTable, Results.Shape.ofTable, hkin.id, hkin.rows_eq, hkin.columns]
  cells i hi := (hs.cells i hi).imp fun _ _ hc ↦ cell_of_rows_le (h.rows_prefix hs.used) hc

theorem append (h : Chain w₀ w) (t : Term) (label : Option String) :
    Chain w₀ { w with formulas := w.formulas.append t label } :=
  h.step (.note rfl rfl (fun _ ↦ rfl) rfl (extends_append _ t label) (fullTable_append _ t label))

end Chain

/-- Where no table is made, none is registered. -/
theorem Change.places_eq {w₀ w w' : Workspace} (h : Change w₀ w w')
    (hsize : w'.catalog.tables.size = w.catalog.tables.size) : w'.database.places = w.database.places := by
  cases h with
  | still h => exact h.places
  | make enters | project enters => exact absurd (enters.new.trans_lt enters.entered) (not_lt.2 hsize.le)
  | share => exact absurd (size_add.symm.trans hsize) (Nat.succ_ne_self _)

theorem Chain.places_eq {w w' : Workspace} (h : Chain w w')
    (hsize : w'.catalog.tables.size = w.catalog.tables.size) : w'.database.places = w.database.places := by
  refine (h.induct (P := fun v ↦ w.catalog.tables.size ≤ v.catalog.tables.size ∧
    (v.catalog.tables.size = w.catalog.tables.size → v.database.places = w.database.places)) ⟨le_rfl, fun _ ↦ rfl⟩
    fun v v' hv hc ↦ ⟨hv.1.trans hc.size_le, fun hsize ↦ ?_⟩).2 hsize
  have hsame : v.catalog.tables.size = w.catalog.tables.size := (hc.size_le.trans hsize.le).antisymm hv.1
  exact (hc.places_eq (hsize.trans hsame.symm)).trans (hv.2 hsame)

/-- A way by changes that make no table and give no name, and add no formula of a clause. -/
structure Calm (w w' : Workspace) : Prop where
  chain : Chain w w'
  size : w'.catalog.tables.size = w.catalog.tables.size
  names : ∀ p, (w'.catalog.table p).name = (w.catalog.table p).name ∧
    (w'.catalog.table p).scope = (w.catalog.table p).scope
  clauses : w'.formulas.AddsNoClause w.formulas

theorem Calm.refl (w : Workspace) : Calm w w := ⟨.refl w, rfl, fun _ ↦ ⟨rfl, rfl⟩, .of_entries rfl rfl⟩

theorem Calm.trans {w₀ w w' : Workspace} (h : Calm w₀ w) (g : Calm w w') : Calm w₀ w' where
  chain := h.chain.trans g.chain
  size := g.size.trans h.size
  names p := ⟨(g.names p).1.trans (h.names p).1, (g.names p).2.trans (h.names p).2⟩
  clauses := ⟨fun l hl hdollar ↦ h.clauses.labels l (g.clauses.labels l hl hdollar) hdollar,
    g.clauses.full.trans h.clauses.full⟩

theorem sizeLabel_notMem (id : Int) (l : String) (h : some s!"size_{id}" = some l) : '$' ∉ l.toList := by
  cases h
  intro hmem
  change '$' ∈ ("size_" ++ toString id).toList at hmem
  rw [String.toList_append, mem_append] at hmem
  rcases hmem with hmem | hmem
  · exact absurd hmem (by decide)
  · exact notMem_toString (by decide) id hmem

/-- Ways from workspace to workspace that go by changes. They go on when something is read, when the size of a table is
told and when a table is marked. -/
structure Walk (R : Workspace → Workspace → Prop) : Prop where
  chain : ∀ {w w' : Workspace}, R w w' → Chain w w'
  refl : ∀ w, R w w
  trans : ∀ {w₀ w w' : Workspace}, R w₀ w → R w w' → R w₀ w'
  quiet : ∀ {w₀}, Quiet (R w₀)
  size : ∀ {w₀} (t : Term) (id : Int), Keeps (R w₀) (Workspace.append t (some s!"size_{id}")) fun _ ↦ True
  mark : ∀ {w₀ w : Workspace} (place : Nat) {f : Table → Table}, R w₀ w → (∀ t, (f t).Kin t) →
    (∀ t, (f t).origin = t.origin) → (∀ t, (f t).name = t.name ∧ (f t).scope = t.scope) →
    R w₀ { w with catalog := w.catalog.modify place f }

/-- Ways from workspace to workspace that go by changes. All calm ones are among them. -/
structure Passage (R : Workspace → Workspace → Prop) : Prop where
  chain : ∀ {w w' : Workspace}, R w w' → Chain w w'
  trans : ∀ {w₀ w w' : Workspace}, R w₀ w → R w w' → R w₀ w'
  calm : ∀ {w w' : Workspace}, Calm w w' → R w w'

theorem Chain.passage : Passage Chain := ⟨id, Chain.trans, Calm.chain⟩

theorem Calm.passage : Passage Calm := ⟨Calm.chain, Calm.trans, id⟩

namespace Passage

variable {R : Workspace → Workspace → Prop} (hR : Passage R) {w₀ w w' : Workspace}

include hR

theorem refl (w : Workspace) : R w w := hR.calm (.refl w)

theorem note (h : R w₀ w) (tables : w'.catalog.tables = w.catalog.tables)
    (places : w'.database.places = w.database.places)
    (rows : ∀ id, w'.database.rowsOf id = w.database.rowsOf id) (last : w'.lastTable = w.lastTable)
    (formulas : w'.formulas = w.formulas) : R w₀ w' :=
  hR.trans h (hR.calm ⟨(Chain.refl w).step
      (.note tables places rows last (.of_entries (congrArg _ formulas)) (congrArg _ formulas)), by rw [tables],
    fun p ↦ by rw [table_congr tables]; exact ⟨rfl, rfl⟩, .of_entries (congrArg _ formulas) (congrArg _ formulas)⟩)

theorem noting (h : R w₀ w) (next : Nat) (clauses : List (Nat × ClauseState)) : R w₀ (w.noting next clauses) :=
  hR.note h rfl rfl (fun _ ↦ rfl) rfl rfl

/-- Formulas say more, but not under the label of a clause. -/
theorem say (h : R w₀ w) {fs : Formulas} (hfs : fs.Extends w.formulas) (hno : fs.AddsNoClause w.formulas) :
    R w₀ { w with formulas := fs } :=
  hR.trans h (hR.calm ⟨(Chain.refl w).step (.note rfl rfl (fun _ ↦ rfl) rfl hfs hno.full), rfl, fun _ ↦ ⟨rfl, rfl⟩, hno⟩)

theorem mark (h : R w₀ w) (place : Nat) {f : Table → Table} (kin : ∀ t, (f t).Kin t)
    (origin : ∀ t, (f t).origin = t.origin) (names : ∀ t, (f t).name = t.name ∧ (f t).scope = t.scope) :
    R w₀ { w with catalog := w.catalog.modify place f } := by
  refine hR.trans h (hR.calm ⟨(Chain.refl w).step (.rename place kin (.inr origin)), size_modify f, fun p ↦ ?_,
    .of_entries rfl rfl⟩)
  rcases table_modify_or w.catalog place f p with hp | ⟨-, hp⟩ <;> dsimp only <;> rw [hp]
  · exact ⟨rfl, rfl⟩
  · exact names _

theorem quiet : Quiet (R w₀) where
  catalog h hc := hR.note h hc rfl (fun _ ↦ rfl) rfl rfl
  touch t h := hR.note h rfl (places_touch _ t) (fun _ ↦ rowsOf_touch ..) rfl rfl
  codes _ h := hR.note h rfl rfl (fun _ ↦ rfl) rfl rfl
  approximations _ h := hR.note h rfl rfl (fun _ ↦ rfl) rfl rfl
  subqueries _ h := hR.note h rfl rfl (fun _ ↦ rfl) rfl rfl
  nextReader _ h := hR.note h rfl rfl (fun _ ↦ rfl) rfl rfl

theorem walk : Walk R where
  chain := hR.chain
  refl := hR.refl
  trans := hR.trans
  quiet := hR.quiet
  size t id := .modify fun _ hw ↦
    hR.say hw (extends_append _ t _) (addsNoClause_append (sizeLabel_notMem id))
  mark place _ h := hR.mark h place

theorem lettering : Lettering (fun _ ↦ R w₀) fun _ ↦ True where
  drop _ h := h
  formulas hf hfull h := hR.say h (.of_entries hf.entries) (.of_entries hf.entries hfull)
  number h := hR.say h (.of_entries rfl) (.of_entries rfl rfl)
  clause h _ := h
  changeClause _ _ h := hR.note h rfl rfl (fun _ ↦ rfl) rfl rfl

end Passage

end QueryEquiv
