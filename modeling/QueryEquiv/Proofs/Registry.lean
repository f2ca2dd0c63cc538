import QueryEquiv.Proofs.Lineages

/-!
# The tables in the database

A formula speaks of a cell by the number of a table, a row and a column, and finds it in the database. So the
database has to be in order: the table under a number has this number, its columns are counted from zero on, it
has the rows that its bound asks for, and the cell in a row and a column is the unknown for them. Only for an
alias of a table of the schema the unknowns are those of that table, whose rows are there where the rows of the
alias are.

All of this is kept by every change of the tables, with two exceptions. A limit may ask for more rows than a
sorted table has. And a grouping that is projected twice gets its rows twice (`Workspace.Doubled`): the first
rows then have the columns of the first projection.
-/

namespace QueryEquiv

open Table Database Catalog List Workspace

/-! ## Rows of cells -/

namespace Database

variable {k p place : Nat} {db : Database}

/-- A row of the unknowns for a table. -/
def cellsOf (base : Int) (width row : Nat) : Array (Option Cell) :=
  ((upTo width).map fun c ↦ some ⟨base, row, c⟩).toArray

/-- The rows under a number are rows of unknowns for a table, one after the other. -/
def Filled (db : Database) (id base : Int) (width : Nat) : Prop :=
  ∀ r row, (db.rowsOf id).toList[r]? = some row → row = cellsOf base width r

variable {db db' : Database} {t : Table} {id base : Int} {place width : Nat}

theorem Filled.cell (h : db.Filled id base width) {r c : Nat} (hr : r < (db.rowsOf id).size) (hc : c < width) :
    db.cell id r c = .ok (some ⟨base, r, c⟩) := by
  have hrow : (db.rowsOf id).toList[r]? = some (db.rowsOf id)[r] := by simp [hr]
  refine cell_ok_iff.2 ⟨_, hrow, ?_⟩
  rw [h r _ hrow, atPosition_ok_iff]
  simp [cellsOf, upTo, hc]

theorem Filled.size (h : db.Filled id base width) {row : Array (Option Cell)} (hrow : row ∈ db.rowsOf id) :
    row.size = width := by
  obtain ⟨r, hr⟩ := mem_iff_getElem?.1 (Array.mem_toList_iff.2 hrow)
  rw [h r row hr]
  simp [cellsOf]

theorem addRows_of_nil (h : t.columns = []) (n row : Nat) (db : Database) : addRows t n row db = (.ok (), db) := by
  induction n generalizing row with
  | zero => rfl
  | succ n ih =>
    have hnone : t.columns.map (·.id) = upTo 0 := by
      rw [h]
      rfl
    rw [addRows, freshRow_ok hnone]
    simpa [h] using ih (row + 1)

theorem rowsOf_addRows_of_ne (hid : id ≠ t.id) (n row : Nat) (db : Database) :
    (addRows t n row db).2.rowsOf id = db.rowsOf id := by
  induction n generalizing row db with
  | zero => rfl
  | succ n ih =>
    unfold addRows
    split
    · rfl
    · rw [ih]
      split
      · rfl
      · rw [rowsOf_put, if_neg hid]

/-- Rows under other numbers stay as they are. -/
theorem rowsOf_addTable_of_ne (h : db.addTable place t = (.ok (), db')) (hid : id ≠ t.id) :
    db'.rowsOf id = db.rowsOf id := by
  obtain ⟨n, db₁, -, hadd, rfl⟩ := addTable_iff.1 h
  have hrows := rowsOf_addRows_of_ne hid n 0 (db.sizing t.id)
  rwa [hadd] at hrows

/-- A table that is added gets its rows behind those that are there under its number. -/
theorem addTable_rows (h : db.addTable place t = (.ok (), db')) (hids : t.columns.map (·.id) = upTo width) :
    ∃ n, t.rows = .ok n ∧ (t.columns = [] → db'.rowsOf t.id = db.rowsOf t.id) ∧
      (t.columns ≠ [] → (db'.rowsOf t.id).toList =
        (db.rowsOf t.id).toList ++ (List.range n).map (cellsOf t.id width)) := by
  obtain ⟨n, db₁, hn, hadd, rfl⟩ := addTable_iff.1 h
  obtain ⟨_, hadd', -, hown⟩ := addRows_ok hids n 0 (db.sizing t.id)
  obtain rfl := (Prod.ext_iff.1 (hadd.symm.trans hadd')).2
  refine ⟨n, hn, fun hnil ↦ ?_, fun hne ↦ ?_⟩
  · rw [addRows_of_nil hnil] at hadd
    cases hadd
    rfl
  · refine (hown hne).trans (congrArg _ ?_)
    rw [← range_eq_range']
    refine map_congr_left fun i _ ↦ ?_
    rw [cellsOf, ← hids, map_map]
    rfl

end Database

/-! ## Numbers -/

/-- A table that has columns or was made by an operator. -/
def Table.Used (t : Table) : Prop := t.columns ≠ [] ∨ t.Made

namespace Table.Stems

variable {t u : Table}

theorem length_columns (h : t.Stems u) : t.columns.length = u.columns.length := by
  simpa using congrArg List.length h.columns

theorem columns_eq_nil (h : t.Stems u) : t.columns = [] ↔ u.columns = [] := by
  rw [← length_eq_zero_iff, h.length_columns, length_eq_zero_iff]

theorem used_iff (h : t.Stems u) : t.Used ↔ u.Used := by rw [Used, Used, h.made_iff, ne_eq, h.columns_eq_nil]

theorem begins (h : t.Stems u) {word : String} (hu : u.Begins word) : t.Begins word := by
  obtain ⟨s, hs, hword⟩ := hu
  exact ⟨s, h.lineage_eq hs, hword⟩

end Table.Stems

/-- Tables are known by their own numbers, which were all handed out, each once. -/
structure Registered (w : Workspace) : Prop where
  counted : ∀ p, (w.catalog.table p).Used → (w.catalog.table p).id ≤ w.lastTable
  free : ∀ id, w.lastTable < id → w.database.rowsOf id = #[]
  nodup : (w.database.places.map Prod.fst).Nodup
  known : ∀ e ∈ w.database.places, e.2 < w.catalog.tables.size ∧ (w.catalog.table e.2).id = e.1 ∧ e.1 ≤ w.lastTable
  bare : ∀ p, (w.catalog.table p).Begins "Grouped from" → (w.catalog.table p).columns = []

namespace Registered

variable {w₀ w w' : Workspace}

/-- A table gets a place; all other tables stem from those before. -/
theorem enter (hw : Registered w) (place : Nat) (hlast : w.lastTable ≤ w'.lastTable)
    (hsize : w.catalog.tables.size ≤ w'.catalog.tables.size) (hplace : place < w'.catalog.tables.size)
    (hold : ∀ r < w.catalog.tables.size, w'.catalog.table r = w.catalog.table r)
    (hother : ∀ q ≠ place, ∃ p, (w'.catalog.table q).Stems (w.catalog.table p))
    (hplaces : w'.database.places = put (w'.catalog.table place).id place w.database.places)
    (hcounted : (w'.catalog.table place).id ≤ w'.lastTable)
    (hfree : ∀ id, w'.lastTable < id → w'.database.rowsOf id = w.database.rowsOf id)
    (hbare : (w'.catalog.table place).Begins "Grouped from" → (w'.catalog.table place).columns = []) :
    Registered w' where
  counted q hq := by
    rcases eq_or_ne q place with rfl | hne
    · exact hcounted
    · obtain ⟨p, hs⟩ := hother q hne
      rw [hs.id]
      exact (hw.counted p (hs.used_iff.1 hq)).trans hlast
  free id hid := (hfree id hid).trans (hw.free id (hlast.trans_lt hid))
  nodup := by
    rw [hplaces, put_eq]
    exact Formulas.nodup_put hw.nodup
  known e he := by
    rw [hplaces] at he
    rcases mem_put he with rfl | he
    · exact ⟨hplace, rfl, hcounted⟩
    · obtain ⟨hlt, hid, hle⟩ := hw.known e he
      rw [hold e.2 hlt]
      exact ⟨hlt.trans_le hsize, hid, hle.trans hlast⟩
  bare q hq := by
    rcases eq_or_ne q place with rfl | hne
    · exact hbare hq
    · obtain ⟨p, hs⟩ := hother q hne
      exact hs.columns_eq_nil.2 (hw.bare p ((hs.begins_iff).1 hq))

theorem still (hw : Registered w) (h : Still w₀ w w') : Registered w' where
  counted q hq := by
    obtain ⟨p, hs⟩ := h.stems q
    rw [hs.id, h.last]
    exact hw.counted p (hs.used_iff.1 hq)
  free id hid := (h.rows id).trans (hw.free id (h.last ▸ hid))
  nodup := by
    rw [h.places]
    exact hw.nodup
  known e he := by
    obtain ⟨hlt, hid, hle⟩ := hw.known e (h.places ▸ he)
    rw [(h.old e.2 hlt).1.id, h.last]
    exact ⟨hlt.trans_le h.size, hid, hle⟩
  bare q hq := by
    obtain ⟨p, hs⟩ := h.stems q
    exact hs.columns_eq_nil.2 (hw.bare p ((hs.begins_iff).1 hq))

end Registered

theorem Change.registered {w₀ w w' : Workspace} (h : Change w₀ w w') (hkept : Kept w) (hw : Registered w) :
    Registered w' := by
  have hsize := h.size_le
  cases h with
  | still h => exact hw.still h
  | @make place t c db fs enters id made grouped _ table _ =>
    obtain ⟨b, hkin, -⟩ := table
    have hid : (c.table place).id = w.lastTable + 1 := hkin.id.trans id
    refine hw.enter place (lt_add_one _).le hsize enters.entered enters.old
      (fun _ ↦ enters.stems) (enters.places hkin.id) hid.le (fun i hi ↦ ?_) fun hbegins ↦ ?_
    · refine rowsOf_addTable_of_ne enters.added ?_
      rw [id]
      exact hi.ne'
    · have hcols := hkin.columns
      rw [grouped ((hkin.begins_iff).1 hbegins)] at hcols
      exact map_eq_nil_iff.1 hcols
  | @project place p n source t c db enters grouped id _ lineage _ table =>
    have hle : t.id ≤ w.lastTable := id.trans_le (hkept.counted p (hkept.made_of_mentions grouped))
    have hword : (c.table place).Begins "Grouped and projected" :=
      table.begins (.of_append (" from T" ++ toString source) (by rw [lineage, String.append_assoc]))
    refine hw.enter place le_rfl hsize enters.entered enters.old
      (fun _ ↦ enters.stems) (enters.places table.id) (table.id.trans_le hle) (fun i hi ↦ ?_) fun hbegins ↦ ?_
    · exact rowsOf_addTable_of_ne enters.added (hle.trans_lt hi).ne'
    · exact absurd hbegins (hword.not_begins)
  | @share place n t db fs shares =>
    have hself : (w.catalog.add t).2.table w.catalog.tables.size = t := table_add_self
    have hid : t.id = w.lastTable + 1 := shares.kin.id
    refine hw.enter w.catalog.tables.size (lt_add_one _).le hsize (by simp)
      (fun r hr ↦ table_add_of_lt hr) (fun _ ↦ stems_add) ?_ ?_ (fun i hi ↦ ?_) fun hbegins ↦ ?_
    · rw [hself, hid]
      exact shares.places
    · rw [hself, hid]
    · rw [shares.shared, if_neg hi.ne']
    · rw [hself] at hbegins ⊢
      have hcols := shares.kin.columns
      have hsource := hw.bare place ((shares.kin.begins_iff).1 hbegins)
      change _ = (w.catalog.table place).columns.map (·.id) at hcols
      rw [hsource] at hcols
      exact map_eq_nil_iff.1 hcols

theorem Chain.registered {w w' : Workspace} (h : Chain w w') (hkept : Kept w) (hw : Registered w) : Registered w' :=
  (h.induct (P := fun v ↦ Kept v ∧ Registered v) ⟨hkept, hw⟩ fun _ _ hv hc ↦
    ⟨hc.kept hv.1, hc.registered hv.1 hv.2⟩).2

/-! ## Cells -/

/-- A projected grouping has more rows than its bound, since it was projected more than once. -/
def Workspace.Doubled (w : Workspace) (t : Table) : Prop :=
  t.mentionsIfAny "Grouped" = true ∧ ∃ n, t.rows = .ok n ∧ n < (w.database.rowsOf t.id).size

/-- A table is an alias of a table of the schema, one of the first `n`. Its rows are there where those of that table
are. -/
structure Workspace.Aliases (w : Workspace) (n : Int) (t : Table) (base : Int) : Prop where
  scanned : t.Begins "Scan"
  schema : base < n
  later : n ≤ t.id
  deleted : ∀ I : Interpretation, (∀ f ∈ w.formulas.entries, I.Holds f.term) →
    ∀ k, t.rows = .ok k → ∀ r < k, I.deleted t.id r = I.deleted base r

/-- A table lies in the database: it has rows of unknowns, at least as many as its bound unless it is sorted. The
unknowns are its own, or those of the table that it is an alias of. -/
structure Workspace.Lays (w : Workspace) (n : Int) (t : Table) (base : Int) : Prop where
  rows : w.database.Filled t.id base t.columns.length
  enough : (∃ k, t.rows = .ok k ∧ k ≤ (w.database.rowsOf t.id).size) ∨ t.Begins "Sorted"
  base : base = t.id ∧ (¬ t.Made → t.id < n) ∨ w.Aliases n t base

/-- All tables that have columns lie in the database, where `n` is the number of tables of the schema. -/
structure LaidOut (n : Int) (w : Workspace) : Prop where
  columns : ∀ p, (w.catalog.table p).columns.map (·.id) = upTo (w.catalog.table p).columns.length
  groups : ∀ p q, (w.catalog.table p).Begins "Grouped from" → (w.catalog.table q).Used →
    (w.catalog.table q).id = (w.catalog.table p).id →
    (w.catalog.table q).mentionsIfAny "Grouped" = true ∧ (w.catalog.table q).bound = (w.catalog.table p).bound
  lays : ∀ p, (w.catalog.table p).columns ≠ [] →
    w.Doubled (w.catalog.table p) ∨ ∃ base, w.Lays n (w.catalog.table p) base

section Cells

variable {w₀ w w' : Workspace} {n base : Int} {t u : Table}

/-- What a table is recognised as a grouping by does not stand in the lineage of a sorted one. -/
theorem Table.Told.not_sorted (h : t.Told) (hgrouped : t.mentionsIfAny "Grouped" = true) : ¬ t.Begins "Sorted" :=
  (h "Group" (by decide) (mentions_of_part hgrouped)).not_begins

namespace Workspace

theorem Doubled.of_stems (h : w.Doubled u) (hs : t.Stems u) (hu : ¬ u.Begins "Sorted")
    (hsize : (w.database.rowsOf u.id).size ≤ (w'.database.rowsOf u.id).size) : w'.Doubled t := by
  obtain ⟨hgrouped, n, hn, hlt⟩ := h
  refine ⟨(hs.mentionsIfAny_eq).trans hgrouped, n, ?_, ?_⟩
  · rw [Table.rows, hs.bound.resolve_right hu]
    exact hn
  · rw [hs.id]
    exact hlt.trans_le hsize

theorem Lays.of_stems (h : w.Lays n u base) (hs : t.Stems u)
    (hrows : w'.database.rowsOf u.id = w.database.rowsOf u.id) (hf : w'.formulas.Extends w.formulas) :
    w'.Lays n t base where
  rows := by
    rw [Filled, hs.id, hrows, hs.length_columns]
    exact h.rows
  enough := by
    rw [hs.id, hrows]
    rcases hs.bound with hbound | hsorted
    · rw [Table.rows, hbound]
      exact h.enough.imp_right hs.begins
    · exact .inr (hs.begins hsorted)
  base := by
    rw [hs.id, hs.made_iff]
    refine h.base.imp_right fun ha ↦ ?_
    have hsorted : ¬ u.Begins "Sorted" := ha.scanned.not_begins
    refine ⟨hs.begins ha.scanned, ha.schema, hs.id ▸ ha.later, fun I hI k hk ↦ ?_⟩
    rw [hs.id]
    rw [Table.rows, hs.bound.resolve_right hsorted] at hk
    exact ha.deleted I (hf.holds hI) k hk

end Workspace

namespace LaidOut

/-- A table that stems from one before lies where that lies, if the rows stay. -/
theorem other (hw : LaidOut n w) (htold : w.Told) (hs : t.Stems (w.catalog.table p)) (hcols : t.columns ≠ [])
    (hrows : w'.database.rowsOf t.id = w.database.rowsOf t.id) (hf : w'.formulas.Extends w.formulas) :
    w'.Doubled t ∨ ∃ base, w'.Lays n t base := by
  rw [hs.id] at hrows
  refine (hw.lays p (mt hs.columns_eq_nil.2 hcols)).imp (fun hd ↦ ?_) fun ⟨base, h⟩ ↦ ⟨base, h.of_stems hs hrows hf⟩
  exact hd.of_stems hs ((htold.table p).not_sorted hd.1) (by rw [hrows])

theorem ofGroup (hw : LaidOut n w) (htold : w.Told) {q : Nat} (ht : t.Stems (w.catalog.table p))
    (hu : u.Stems (w.catalog.table q)) (hgroup : (w.catalog.table p).Begins "Grouped from") (hused : u.Used)
    (hid : u.id = t.id) : u.mentionsIfAny "Grouped" = true ∧ u.bound = (w.catalog.table p).bound := by
  obtain ⟨hgrouped, hbound⟩ := hw.groups p q hgroup (hu.used_iff.1 hused) (by rw [← hu.id, hid, ht.id])
  rw [hu.mentionsIfAny_eq, hu.bound.resolve_right ((htold.table q).not_sorted hgrouped)]
  exact ⟨hgrouped, hbound⟩

theorem enter (hw : LaidOut n w) (htold : w.Told) (place : Nat)
    (hother : ∀ q ≠ place, ∃ p, (w'.catalog.table q).Stems (w.catalog.table p))
    (hcols : (w'.catalog.table place).columns.map (·.id) = upTo (w'.catalog.table place).columns.length)
    (hgroup : (w'.catalog.table place).Begins "Grouped from" →
      ∀ q, (w.catalog.table q).Used → (w.catalog.table q).id ≠ (w'.catalog.table place).id)
    (hmember : ∀ p, (w.catalog.table p).Begins "Grouped from" → (w'.catalog.table place).id = (w.catalog.table p).id →
      (w'.catalog.table place).mentionsIfAny "Grouped" = true ∧
        (w'.catalog.table place).bound = (w.catalog.table p).bound) (hself : (w'.catalog.table place).columns ≠ [] →
      w'.Doubled (w'.catalog.table place) ∨ ∃ base, w'.Lays n (w'.catalog.table place) base)
    (hlays : ∀ q ≠ place, (w'.catalog.table q).columns ≠ [] →
      w'.Doubled (w'.catalog.table q) ∨ ∃ base, w'.Lays n (w'.catalog.table q) base) : LaidOut n w' where
  columns q := by
    rcases eq_or_ne q place with rfl | hne
    · exact hcols
    · obtain ⟨p, hs⟩ := hother q hne
      rw [hs.columns, hs.length_columns]
      exact hw.columns p
  groups q r hq hr hid := by
    rcases eq_or_ne q place with rfl | hqne
    · rcases eq_or_ne r q with rfl | hrne
      · exact ⟨mentions_of_part hq.mentions, rfl⟩
      · obtain ⟨p, hs⟩ := hother r hrne
        exact absurd (hs.id ▸ hid) (hgroup hq p (hs.used_iff.1 hr))
    · obtain ⟨p, hs⟩ := hother q hqne
      have hp := (hs.begins_iff).1 hq
      have hbound : (w'.catalog.table q).bound = (w.catalog.table p).bound := hs.bound.resolve_right hp.of_grouped.2
      rw [hbound]
      rcases eq_or_ne r place with rfl | hrne
      · exact hmember p hp (hid.trans hs.id)
      · obtain ⟨p', hs'⟩ := hother r hrne
        exact hw.ofGroup htold hs hs' hp hr hid
  lays q hq := by
    rcases eq_or_ne q place with rfl | hne
    · exact hself hq
    · exact hlays q hne hq

theorem still (hw : LaidOut n w) (htold : w.Told) (h : Still w₀ w w') : LaidOut n w' where
  columns q := by
    obtain ⟨p, hs⟩ := h.stems q
    rw [hs.columns, hs.length_columns]
    exact hw.columns p
  groups q r hq hr hid := by
    obtain ⟨p, hs⟩ := h.stems q
    obtain ⟨p', hs'⟩ := h.stems r
    have hp := (hs.begins_iff).1 hq
    rw [hs.bound.resolve_right hp.of_grouped.2]
    exact hw.ofGroup htold hs hs' hp hr hid
  lays q hq := by
    obtain ⟨p, hs⟩ := h.stems q
    exact hw.other htold hs hq (h.rows _) h.formulas

end LaidOut

/-! ### New rows -/

/-- The rows that a table gets under a new number are its own. -/
theorem filled_fresh (hadd : w.database.addTable place t = (.ok (), db))
    (hids : t.columns.map (·.id) = upTo t.columns.length) (hcols : t.columns ≠ [])
    (hfree : w.database.rowsOf t.id = #[]) :
    ∃ k, t.rows = .ok k ∧ (db.rowsOf t.id).size = k ∧ db.Filled t.id t.id t.columns.length := by
  obtain ⟨k, hk, -, hrows⟩ := addTable_rows hadd hids
  have hrows := hrows hcols
  rw [hfree, nil_append] at hrows
  refine ⟨k, hk, ?_, fun r row hr ↦ ?_⟩
  · rw [← Array.length_toList, hrows, length_map, length_range]
  · rw [hrows, getElem?_map, Option.map_eq_some_iff] at hr
    obtain ⟨i, hi, rfl⟩ := hr
    obtain ⟨hlt, rfl⟩ := List.getElem?_eq_some_iff.1 hi
    rw [getElem_range]

theorem Table.Kin.length_columns (h : t.Kin u) : t.columns.length = u.columns.length := by
  simpa using congrArg List.length h.columns

theorem Table.Kin.columns_eq_nil (h : t.Kin u) : t.columns = [] ↔ u.columns = [] := by
  rw [← length_eq_zero_iff, h.length_columns, length_eq_zero_iff]

/-- Where columns are those of a table that lies in the database, they are counted from zero on as well. -/
theorem LaidOut.ids (hw : LaidOut n w) (h : (∃ m, t.columns.map (·.id) = upTo m) ∨
    ∃ p, t.columns.map (·.id) = (w.catalog.table p).columns.map (·.id)) :
    t.columns.map (·.id) = upTo t.columns.length := by
  obtain ⟨m, hm⟩ : ∃ m, t.columns.map (·.id) = upTo m := by
    rcases h with h | ⟨p, hp⟩
    · exact h
    · exact ⟨_, hp.trans (hw.columns p)⟩
  have hlength : t.columns.length = m := by simpa using congrArg List.length hm
  rw [hlength, hm]

namespace Workspace.Lays

/-- A table that was made under a new number lies in the database. -/
theorem fresh {b : Value} (hadd : w.database.addTable place t = (.ok (), db))
    (hids : t.columns.map (·.id) = upTo t.columns.length) (hcols : u.columns ≠ [])
    (hfree : w.database.rowsOf t.id = #[]) (hkin : u.Kin { t with bound := b }) (hmade : u.Made)
    (hbound : b = t.bound ∨ ∃ k, u.rows = .ok k ∧ k ≤ (db.rowsOf t.id).size) (hdb : w'.database = db) :
    w'.Lays n u t.id := by
  obtain ⟨k, hk, hsize, hfilled⟩ := filled_fresh hadd hids (mt hkin.columns_eq_nil.2 hcols) hfree
  have hid : u.id = t.id := hkin.id
  refine ⟨?_, .inl ?_, .inl ⟨hid.symm, absurd hmade⟩⟩
  · rw [hdb, hid, hkin.length_columns]
    exact hfilled
  · rw [hdb, hid]
    rcases hbound with rfl | hlow
    · exact ⟨k, hkin.rows_eq.trans hk, hsize.ge⟩
    · exact hlow

/-- An alias has the unknowns of the table of the schema that stands behind it. -/
theorem share {fs : Formulas} (h : w.Lays n (w.catalog.table place) base) (hs : Shares w place k t db fs)
    (hscan : (w.catalog.table place).Begins "Scan") (hn : n ≤ w.lastTable + 1) (hdb : w'.database = db)
    (hfs : w'.formulas = fs) : w'.Lays n t base := by
  have hid : t.id = w.lastTable + 1 := hs.kin.id
  have hrows : w'.database.rowsOf t.id = w.database.rowsOf (w.catalog.table place).id := by
    rw [hdb, hs.shared, if_pos hid]
  have hlength : t.columns.length = (w.catalog.table place).columns.length := hs.kin.length_columns
  have hbound : t.rows = (w.catalog.table place).rows := hs.kin.rows_eq
  refine ⟨?_, ?_, .inr ⟨hs.kin.begins hscan, ?_, hid ▸ hn, fun I hI k' hk' r hr ↦ ?_⟩⟩
  · rw [Filled, hrows, hlength]
    exact h.rows
  · rw [hrows, hbound]
    exact h.enough.imp_right hs.kin.begins
  · rcases h.base with ⟨rfl, hsource⟩ | ha
    · exact hsource fun hm ↦ hm.not_begins hscan
    · exact ha.schema
  · rw [hfs] at hI
    rw [hbound] at hk'
    obtain rfl : k = k' := Except.ok.inj (hs.rows.symm.trans hk')
    have hsame := hs.deleted I hI r hr
    rw [hid, hsame]
    rcases h.base with ⟨rfl, -⟩ | ha
    · rfl
    · exact ha.deleted I (hs.formulas.holds hI) k hk' r hr

end Workspace.Lays

/-! ### Changes -/

namespace LaidOut

theorem make (hw : LaidOut n w) (hreg : Registered w) (htold : w.Told) {c : Catalog} {b : Value}
    (henters : Enters w place t c db) (hid : t.id = w.lastTable + 1) (hmade : t.Made)
    (hids : (∃ m, t.columns.map (·.id) = upTo m) ∨ ∃ p, t.columns.map (·.id) = (w.catalog.table p).columns.map (·.id))
    (hkin : (c.table place).Kin { t with bound := b })
    (hbound : b = t.bound ∨ ∃ k, (c.table place).rows = .ok k ∧ k ≤ (db.rowsOf t.id).size) (hcatalog : w'.catalog = c)
    (hdb : w'.database = db) (hextends : w'.formulas.Extends w.formulas) : LaidOut n w' := by
  subst hcatalog
  have hids := hw.ids hids
  have hplace : (w'.catalog.table place).id = t.id := hkin.id
  have hcounted {q : Nat} (hq : (w.catalog.table q).Used) : (w.catalog.table q).id ≠ t.id := by
    have := hreg.counted q hq
    omega
  refine hw.enter htold place (fun _ ↦ henters.stems) ?_
    (fun _ q hq ↦ hplace ▸ hcounted hq) (fun p hp heq ↦ ?_) (fun hcols ↦ ?_) fun q hq hcols ↦ ?_
  · rw [hkin.columns, hkin.length_columns]
    exact hids
  · exact absurd (heq.symm.trans hplace) (hcounted (.inr hp.of_grouped.1))
  · have hfree := hreg.free t.id (by omega)
    exact .inr ⟨t.id, .fresh henters.added hids hcols hfree hkin (hkin.made_iff.2 hmade) hbound hdb⟩
  · obtain ⟨p, hs⟩ := henters.stems hq
    refine hw.other htold hs hcols ?_ hextends
    rw [hdb]
    refine rowsOf_addTable_of_ne henters.added ?_
    rw [hs.id]
    exact hcounted (.inl (mt hs.columns_eq_nil.2 hcols))

/-- A grouping that was projected before has too many rows after it is projected again. -/
theorem doubled (hw : LaidOut n w) (htold : w.Told) {q : Nat} (hgroup : (w.catalog.table p).Begins "Grouped from")
    (hadd : w.database.addTable place u = (.ok (), db)) (hids : u.columns.map (·.id) = upTo u.columns.length)
    (huid : u.id = (w.catalog.table p).id) (hbound : u.bound = (w.catalog.table p).bound) (hk : u.rows = .ok k)
    (hs : t.Stems (w.catalog.table q)) (hid : t.id = u.id) (hcols : t.columns ≠ []) (hdb : w'.database = db)
    (hextends : w'.formulas.Extends w.formulas) : w'.Doubled t ∨ ∃ base, w'.Lays n t base := by
  have hq : (w.catalog.table q).columns ≠ [] := mt hs.columns_eq_nil.2 hcols
  obtain ⟨hgrouped, hsame⟩ := hw.groups p q hgroup (.inl hq) (by rw [← hs.id, hid, huid])
  have hsorted := (htold.table q).not_sorted hgrouped
  obtain ⟨k', hk', hnone, hrows⟩ := addTable_rows hadd hids
  obtain rfl : k = k' := Except.ok.inj (hk.symm.trans hk')
  by_cases hucols : u.columns = []
  · refine hw.other htold hs hcols ?_ hextends
    rw [hdb, hid]
    exact hnone hucols
  have hrows := hrows hucols
  have hsize : (db.rowsOf u.id).size = (w.database.rowsOf u.id).size + k := by
    rw [← Array.length_toList, hrows]
    simp
  have hqid : (w.catalog.table q).id = u.id := by rw [← hs.id, hid]
  rcases hw.lays q hq with hd | ⟨base, hl⟩
  · refine .inl (hd.of_stems hs hsorted ?_)
    rw [hdb, hqid, hsize]
    exact Nat.le_add_right _ _
  · rcases Nat.eq_zero_or_pos k with rfl | hpos
    · refine .inr ⟨base, hl.of_stems hs ?_ hextends⟩
      rw [hdb, hqid]
      exact Array.toList_inj.1 (by simpa using hrows)
    · -- As many rows were there before.
      obtain ⟨j, hj, hle⟩ := hl.enough.resolve_right hsorted
      have htrows : t.rows = (w.catalog.table q).rows := by rw [Table.rows, Table.rows, hs.bound.resolve_right hsorted]
      have hqrows : (w.catalog.table q).rows = u.rows := by rw [Table.rows, Table.rows, hsame, hbound]
      obtain rfl : j = k := Except.ok.inj (hj.symm.trans (hqrows.trans hk))
      refine .inl ⟨(hs.mentionsIfAny_eq).trans hgrouped, j, htrows.trans hj, ?_⟩
      rw [hqid] at hle
      rw [hdb, hid, hsize]
      omega

theorem project (hw : LaidOut n w) (hkept : Kept w) (hreg : Registered w) (htold : w.Told) {m : Nat} {source : Int}
    {c : Catalog} (henters : Enters w place t c db) (hgrouped : (w.catalog.table p).mentionsIfAny "Grouped from" = true)
    (hid : t.id = (w.catalog.table p).id) (hbound : t.bound = (w.catalog.table p).bound)
    (hlineage : t.lineage = some ("Grouped and projected" ++ " from T" ++ toString source))
    (hcolumns : t.columns.map (·.id) = (w.catalog.table p).columns.map (·.id) ++ upTo m) (hkin : (c.table place).Kin t)
    (hcatalog : w'.catalog = c) (hdb : w'.database = db)
    (hextends : w'.formulas.Extends w.formulas) : LaidOut n w' := by
  subst hcatalog
  have hmade : (w.catalog.table p).Made := hkept.made_of_mentions hgrouped
  have hgroup : (w.catalog.table p).Begins "Grouped from" := htold.table p _ (by decide) hgrouped
  have hplace : (w'.catalog.table place).id = t.id := hkin.id
  have hids : t.columns.map (·.id) = upTo t.columns.length := by
    rw [hreg.bare p hgroup, map_nil, nil_append] at hcolumns
    exact hw.ids (.inl ⟨m, hcolumns⟩)
  have hword : (w'.catalog.table place).Begins "Grouped and projected" :=
    hkin.begins (.of_append (" from T" ++ toString source) (by rw [hlineage, String.append_assoc]))
  have hgrouped' : (w'.catalog.table place).mentionsIfAny "Grouped" = true :=
    mentions_of_part hword.mentions
  obtain ⟨k, hk, -, hrows⟩ := addTable_rows henters.added hids
  refine hw.enter htold place (fun _ ↦ henters.stems) ?_
    (fun hbegins ↦ absurd hbegins (hword.not_begins)) (fun q hq heq ↦ ⟨hgrouped', ?_⟩)
    (fun hcols ↦ ?_) fun q hq hcols ↦ ?_
  · rw [hkin.columns, hkin.length_columns]
    exact hids
  · rw [← (hw.groups q p hq (.inr hmade) (by rw [← hid, ← hplace]; exact heq)).2, ← hbound]
    exact hkin.bound
  · by_cases hfree : w.database.rowsOf t.id = #[]
    · exact .inr ⟨t.id, .fresh henters.added hids hcols hfree hkin (hword.made) (.inl rfl) hdb⟩
    · refine .inl ⟨hgrouped', k, hkin.rows_eq.trans hk, ?_⟩
      rw [hdb, hplace, ← Array.length_toList, hrows (mt hkin.columns_eq_nil.2 hcols)]
      have : (w.database.rowsOf t.id).size ≠ 0 := mt Array.size_eq_zero_iff.1 hfree
      simp
      omega
  · obtain ⟨q', hs⟩ := henters.stems hq
    by_cases hqid : (w'.catalog.table q).id = t.id
    · exact hw.doubled htold hgroup henters.added hids hid hbound hk hs hqid hcols hdb hextends
    · refine hw.other htold hs hcols ?_ hextends
      rw [hdb]
      exact rowsOf_addTable_of_ne henters.added hqid

theorem share (hw : LaidOut n w) (hreg : Registered w) (htold : w.Told) (hn : n ≤ w.lastTable + 1) {fs : Formulas}
    (hs : Shares w place k t db fs) (hcatalog : w'.catalog = (w.catalog.add t).2) (hdb : w'.database = db)
    (hfs : w'.formulas = fs) : LaidOut n w' := by
  have hself : w'.catalog.table w.catalog.tables.size = t := by rw [hcatalog, table_add_self]
  have hother {q : Nat} (hq : q ≠ w.catalog.tables.size) : w'.catalog.table q = w.catalog.table q := by
    rw [hcatalog, table_add_of_ne hq]
  have hid : t.id = w.lastTable + 1 := hs.kin.id
  have hscan : (w.catalog.table place).Begins "Scan" := htold.table place _ (by decide) hs.scanned
  have hcounted {q : Nat} (hq : (w.catalog.table q).Used) : (w.catalog.table q).id ≠ w.lastTable + 1 := by
    have := hreg.counted q hq
    omega
  refine hw.enter htold w.catalog.tables.size (fun q hq ↦ ⟨q, hother hq ▸ .refl _⟩) ?_ (fun hbegins ↦ ?_)
    (fun p hp heq ↦ ?_) (fun hcols ↦ ?_) fun q hq hcols ↦ ?_
  · rw [hself]
    exact hw.ids (.inr ⟨place, hs.kin.columns⟩)
  · rw [hself] at hbegins
    exact absurd (hs.kin.begins hscan) (hbegins.not_begins)
  · rw [hself, hid] at heq
    exact absurd heq.symm (hcounted (.inr hp.of_grouped.1))
  · rw [hself] at hcols ⊢
    have hsource : (w.catalog.table place).columns ≠ [] := mt hs.kin.columns_eq_nil.2 hcols
    rcases hw.lays place hsource with hd | ⟨base, hl⟩
    · have hgroup := (htold.table place).not_mentions "Group" hscan
      rw [mentions_of_part hd.1] at hgroup
      cases hgroup
    · exact .inr ⟨base, hl.share hs hscan hn hdb hfs⟩
  · rw [hother hq] at hcols ⊢
    refine hw.other htold (.refl _) hcols ?_ (hfs ▸ hs.formulas)
    rw [hdb, hs.shared, if_neg (hcounted (.inl hcols))]

end LaidOut

/-- Every change keeps the database in order. -/
theorem Change.laidOut (h : Change w₀ w w') (hkept : Kept w) (hreg : Registered w) (htold : w'.Told)
    (hn : n ≤ w.lastTable + 1) (hw : LaidOut n w) : LaidOut n w' := by
  have htold₀ := h.told htold
  have hextends := h.extends_formulas
  cases h with
  | still h => exact hw.still htold₀ h
  | make enters id made _ columns table _ =>
    obtain ⟨b, hkin, hbound⟩ := table
    exact hw.make hreg htold₀ enters id made columns hkin (hbound.imp_right And.right) rfl rfl hextends
  | project enters grouped id bound lineage columns table =>
    exact hw.project hkept hreg htold₀ enters grouped id bound lineage columns table rfl rfl hextends
  | share shares => exact hw.share hreg htold₀ hn shares rfl rfl rfl

theorem Chain.laidOut (h : Chain w w') (hkept : Kept w) (hreg : Registered w) (htold : w'.Told)
    (hn : n ≤ w.lastTable + 1) (hw : LaidOut n w) : Registered w' ∧ LaidOut n w' := by
  obtain ⟨-, -, hreg', hw'⟩ := h.induct
    (P := fun v ↦ w.lastTable ≤ v.lastTable ∧ Kept v ∧ Registered v ∧ (v.Told → LaidOut n v))
    ⟨le_rfl, hkept, hreg, fun _ ↦ hw⟩ fun v v' ⟨hle, hkept, hreg, hv⟩ hc ↦
      ⟨hle.trans hc.last_le, hc.kept hkept, hc.registered hkept hreg, fun htold ↦
        hc.laidOut hkept hreg htold (by omega) (hv (hc.told htold))⟩
  exact ⟨hreg', hw' htold⟩

/-! ## Sessions -/

/-- A table of the schema has rows of its own, as many as its bound. -/
structure Database.Holds (db : Database) (t : Table) : Prop where
  lineage : t.lineage = none
  columns : t.columns.map (·.id) = upTo t.columns.length
  rows : t.columns ≠ [] → db.Filled t.id t.id t.columns.length ∧ ∃ k, t.rows = .ok k ∧ k ≤ (db.rowsOf t.id).size

theorem start_holds : Loads fun w ↦ Registered w ∧ ∀ p, w.database.Holds (w.catalog.table p) where
  empty {w} hc hd hl _ := by
    have hnone (p : Nat) : w.catalog.table p = default := by rw [hc, table_of_size_le (Nat.zero_le p)]
    refine ⟨⟨fun p hp ↦ ?_, fun id _ ↦ ?_, ?_, ?_, fun p _ ↦ ?_⟩, fun p ↦ ?_⟩
    · rw [hnone] at hp
      rcases hp with hp | ⟨s, hs, -⟩
      · exact absurd rfl hp
      · cases hs
    · rw [hd]
      rfl
    · rw [hd]
      exact nodup_nil
    · rw [hd]
      simp
    · rw [hnone]
      rfl
    · rw [hnone]
      exact ⟨rfl, rfl, absurd rfl⟩
  same {w v} hc hd hl _ _ h := by
    obtain ⟨⟨h₁, h₂, h₃, h₄, h₅⟩, h⟩ := h
    rw [← hc, ← hl] at h₁
    rw [← hd, ← hl] at h₂
    rw [← hd] at h₃
    rw [← hd, ← hc, ← hl] at h₄
    rw [← hc] at h₅
    rw [← hd, ← hc] at h
    exact ⟨⟨h₁, h₂, h₃, h₄, h₅⟩, h⟩
  add {w name columns db} hids _ hadd h := by
    obtain ⟨hreg, h⟩ := h
    have hfree := hreg.free (w.lastTable + 1) (lt_add_one _)
    refine ⟨hreg.enter w.catalog.tables.size (lt_add_one _).le ?_ ?_
      (fun r hr ↦ table_add_of_lt hr) (fun _ ↦ stems_add) ?_ ?_ (fun id hid ↦ ?_) fun hb ↦ ?_, fun p ↦ ?_⟩
    · rw [size_add]
      exact Nat.le_succ _
    · rw [size_add]
      exact Nat.lt_succ_self _
    · rw [table_add_self]
      exact (addTable_ok hadd).2
    · rw [table_add_self]
    · exact rowsOf_addTable_of_ne hadd hid.ne'
    · rw [table_add_self] at hb
      obtain ⟨s, hs, -⟩ := hb
      cases hs
    · rcases eq_or_ne p w.catalog.tables.size with rfl | hne
      · rw [table_add_self]
        refine ⟨rfl, hids, fun hcols ↦ ?_⟩
        obtain ⟨k, hk, hsize, hfilled⟩ := filled_fresh hadd hids hcols hfree
        exact ⟨hfilled, k, hk, hsize.ge⟩
      · rw [table_add_of_ne hne]
        refine ⟨(h p).lineage, (h p).columns, fun hcols ↦ ?_⟩
        have hle := hreg.counted p (.inl hcols)
        have hrows : db.rowsOf (w.catalog.table p).id = w.database.rowsOf (w.catalog.table p).id :=
          rowsOf_addTable_of_ne hadd (by dsimp only; omega)
        rw [Filled, hrows]
        exact (h p).rows hcols

theorem laidOut_of_holds (hreg : Registered w) (h : ∀ p, w.database.Holds (w.catalog.table p)) (hn : w.lastTable < n) :
    LaidOut n w where
  columns p := (h p).columns
  groups p _ hp := by
    obtain ⟨s, hs, -⟩ := hp
    rw [(h p).lineage] at hs
    cases hs
  lays p hp := by
    obtain ⟨hfilled, hrows⟩ := (h p).rows hp
    exact .inr ⟨_, hfilled, .inl hrows, .inl ⟨rfl, fun _ ↦ (hreg.counted p (.inl hp)).trans_lt hn⟩⟩

/-- The database is in order after any number of queries. Every number was handed out once, and the table under it has
this number. If it has columns, they are counted from zero on. It has as many rows as its bound, each with a cell for
each column, and these cells are its own or, for an alias, those of a table of the schema. The exceptions are sorted
tables, which may have fewer rows, and groupings that were projected twice. -/
theorem database_in_order {schema : Value} (h : Encodings schema w) (htold : w.Told) :
    ∃ names, schemaNames schema = .ok names ∧ (w.database.places.map Prod.fst).Nodup ∧
      ∀ id place, (id, place) ∈ w.database.places → id ≤ w.lastTable ∧ (w.catalog.table place).id = id ∧
        (w.catalog.table place).columns.map (·.id) = upTo (w.catalog.table place).columns.length ∧
        ((w.catalog.table place).columns ≠ [] → w.Doubled (w.catalog.table place) ∨
          ((w.catalog.table place).Begins "Sorted" ∨
            ∃ k, (w.catalog.table place).rows = .ok k ∧ k ≤ (w.database.rowsOf id).size) ∧
          (∀ row ∈ w.database.rowsOf id, row.size = (w.catalog.table place).columns.length) ∧
          ∃ base, (base = id ∨ w.Aliases names.length (w.catalog.table place) base) ∧
            ∀ r < (w.database.rowsOf id).size, ∀ c < (w.catalog.table place).columns.length,
              w.database.cell id r c = .ok (some ⟨base, r, c⟩)) := by
  obtain ⟨_, _, _, _, v₀, v, hv, hroute⟩ := h.route
  obtain ⟨names, hnames, hloaded⟩ := start_loaded hv
  obtain ⟨hreg, hholds⟩ := start_holds.start hv
  have hn : (names.length : Int) = v.lastTable + 1 := hloaded.last.symm
  have hstart := start_unmade.start hv
  have hkept := (unmade_kept hstart.1 hstart.2).1
  obtain ⟨hreg', hw⟩ := (hroute Chain Chain.route).laidOut hkept hreg htold hn.le
    (laidOut_of_holds hreg hholds (hn ▸ lt_add_one _))
  refine ⟨names, hnames, hreg'.nodup, fun id place he ↦ ?_⟩
  obtain ⟨-, hid, hle⟩ := hreg'.known _ he
  obtain rfl : (w.catalog.table place).id = id := hid
  refine ⟨hle, rfl, hw.columns place, fun hcols ↦ (hw.lays place hcols).imp_right fun ⟨base, hl⟩ ↦ ?_⟩
  exact ⟨hl.enough.symm, fun row hrow ↦ hl.rows.size hrow, base, hl.base.imp_left And.left, fun r hr c hc ↦
    hl.rows.cell hr hc⟩

/-- `SELECT a FROM t AS x` -/
def selectFromAlias : Node :=
  .query 1 none (.project 2 [.column (.str "a") .null] .null) (.scan (.str "t") (.str "x"))
    .missing .missing .missing .null

def aliasEncoded : Workspace := (exec (Query.table selectFromAlias) { singleTableLoaded with currentQuery := .int 1 }).2

/-- The table `x` is known by the number 1, and is an alias of the first table of the schema. -/
theorem aliasEncoded_aliases : (1, 1) ∈ aliasEncoded.database.places ∧
    aliasEncoded.database.cell 1 0 0 = .ok (some ⟨0, 0, 0⟩) ∧ aliasEncoded.Aliases 1 (aliasEncoded.catalog.table 1) 0 := by
  have hquery : Gives (Query.table selectFromAlias) { singleTableLoaded with currentQuery := .int 1 } 3 aliasEncoded :=
    .of_toOption (by decide +kernel)
  have hplace : (1, 1) ∈ aliasEncoded.database.places := by decide +kernel
  have hcell : aliasEncoded.database.cell 1 0 0 = .ok (some ⟨0, 0, 0⟩) := Outcome.ok_of_toOption (by decide +kernel)
  refine ⟨hplace, hcell, ?_⟩
  obtain ⟨names, hnames, -, horder⟩ := database_in_order (.query (.int 1) (.start singleTable_loads) hquery) (by decide +kernel)
  obtain rfl : names = ["t"] :=
    Except.ok.inj (hnames.symm.trans (Outcome.ok_of_toOption (by decide +kernel)))
  obtain ⟨-, -, -, hlays⟩ := horder 1 1 hplace
  have hcolumns : (aliasEncoded.catalog.table 1).columns.length = 1 := by decide +kernel
  rcases hlays (ne_nil_of_length_pos (by omega)) with hd | ⟨-, -, base, hbase, hcells⟩
  · have hplain : (aliasEncoded.catalog.table 1).mentionsIfAny "Grouped" = false := by decide +kernel
    rw [hd.1] at hplain
    cases hplain
  · have hsize : 0 < (aliasEncoded.database.rowsOf 1).size := by decide +kernel
    obtain rfl : base = 0 := by simpa [hcell, eq_comm] using hcells 0 hsize 0 (by omega)
    exact hbase.resolve_left (by decide)

end Cells

end QueryEquiv
