import QueryEquiv.Proofs.Bags
import QueryEquiv.Proofs.Numbering

/-!
# Tables laid out in cells

A table of the catalog has its cells in the database. They are its own, or those of another table if it is
an alias. A `Sheet` is a table with the cells of its rows, and `Lies` says where the catalog and the
database have it.

Rows that are there are never taken away or changed. So the cells of a table can be looked up at any later time, and
a formula that copies cells is known beforehand.
-/

namespace QueryEquiv

open Formulas Catalog Gives List Operator Results Workspace Shape

variable {x : Cell} {α : Type} {ys : List Cell}

/-- A table with the cells of its rows. -/
structure Sheet extends Shape where
  line : Nat → List Cell

/-- A table that has cells of its own. -/
def Results.Shape.sheet (s : Shape) : Sheet :=
  { s with line := fun row ↦ s.columns.map fun c ↦ ⟨s.id, row, c⟩ }

namespace Interpretation

variable (I : Interpretation)

def value (c : Cell) : Option Int := I.held c.table c.row c.column

/-- What the cells of a row hold. -/
def entry (s : Sheet) (row : Nat) : Record := (s.line row).map I.value

/-- The rows of a table that are there, in order. -/
def entries (s : Sheet) : List Record := (I.rowsThere s.toShape).map (I.entry s)

theorem entry_sheet (s : Shape) (row : Nat) : I.entry s.sheet row = I.record s row := by
  simp [entry, sheet, record, value]

theorem bag_eq_entries (s : Shape) : I.bag s = I.entries s.sheet := by
  simp only [bag, entries, Multiset.map_coe]
  congr 2
  exact funext fun row ↦ (I.entry_sheet s row).symm

theorem value_of_copies {y : Cell} (h : I.Holds (x.copies y)) : I.value y = I.value x := by
  have hnull : I.null y.table y.row y.column = I.null x.table x.row x.column := by
    have := (I.holds_and _).1 h (.eq y.isNull x.isNull) (by simp)
    rw [holds_eq, Cell.isNull, Cell.isNull, eval_null, eval_null] at this
    cases hx : I.null x.table x.row x.column <;> cases hy : I.null y.table y.row y.column <;>
      simp [hx, hy] at this ⊢
  have hval : I.cell y.table y.row y.column = I.cell x.table x.row x.column := by
    simpa [Cell.val] using (I.holds_and _).1 h (.eq y.val x.val) (by simp)
  rw [value, value, held, held, hnull, hval]

theorem map_value_of_zipWith {f : α → Cell → Term} {g : α → Option Int} (hf : ∀ x y, I.Holds (f x y) → I.value y = g x)
    {xs : List α} (hlen : xs.length = ys.length)
    (h : ∀ t ∈ List.zipWith f xs ys, I.Holds t) : ys.map I.value = xs.map g := by
  induction xs generalizing ys with
  | nil => simp [length_eq_zero_iff.1 hlen.symm]
  | cons x xs ih =>
    cases ys with
    | nil => cases hlen
    | cons y ys =>
      rw [zipWith_cons_cons, forall_mem_cons] at h
      rw [map_cons, map_cons, hf x y h.1, ih (Nat.succ.inj hlen) h.2]

theorem map_value_of_copies {xs : List Cell} (hlen : xs.length = ys.length)
    (h : ∀ t ∈ List.zipWith Cell.copies xs ys, I.Holds t) : ys.map I.value = xs.map I.value :=
  I.map_value_of_zipWith (f := Cell.copies) (fun _ _ ↦ I.value_of_copies) hlen h

theorem value_of_isNull (h : I.Holds x.isNull) : I.value x = none := by
  rw [Cell.isNull, holds_null] at h
  simp [value, held, h]

end Interpretation

/-! ## Rows of the database -/

namespace Table

theorem atPosition_natCast (xs : List α) (n : Nat) :
    atPosition xs n = match xs[n]? with | some x => .ok x | none => .error .outOfRange := by
  have h : ¬ (n : Int) < 0 := by omega
  cases hx : xs[n]? with
  | none => simp [atPosition, h, hx]
  | some x => simp [atPosition, h, hx]

theorem atPosition_ok_iff {xs : List α} {n : Nat} {x : α} : atPosition xs n = .ok x ↔ xs[n]? = some x := by
  rw [atPosition_natCast]
  cases xs[n]? <;> simp

end Table

namespace Database

variable {db : Database}

theorem put_eq (k : Int) (a : α) (l : List (Int × α)) : put k a l = Formulas.put k a l := by
  induction l with
  | nil => rfl
  | cons e l ih => rw [put, Formulas.put, ih]

theorem mem_put {k : Int} {a : α} {l : List (Int × α)} {e : Int × α} (h : e ∈ put k a l) : e = (k, a) ∨ e ∈ l := by
  rw [put_eq] at h
  exact Formulas.mem_put h

theorem rowsOf_put (rows : Array (Array (Option Cell))) (places : List (Int × Nat)) (id id' : Int) :
    ({ db with rows := put id rows db.rows, places } : Database).rowsOf id' =
      if id' = id then rows else db.rowsOf id' := by
  simp only [rowsOf, put_eq, lookup_put, beq_iff_eq]
  split <;> rfl

@[simp] theorem rowsOf_touch (t id : Int) : (db.touch t).rowsOf id = db.rowsOf id := by
  unfold touch
  split
  · rfl
  · rename_i h
    simp only [rowsOf, lookup_append]
    cases hl : db.rows.lookup id with
    | some r => rfl
    | none =>
      rw [Option.none_or, lookup_cons, lookup_nil]
      cases id == t <;> rfl

variable {t c : Int} {i : Nat} {x : Option Cell}

theorem touch_of_rowsOf (h : (db.rowsOf t).toList ≠ []) : db.touch t = db := by
  unfold touch
  rw [if_pos]
  cases hl : db.rows.lookup t with
  | some r => rfl
  | none => simp [rowsOf, hl] at h

theorem cell_ok_iff : db.cell t i c = .ok x ↔
      ∃ row, (db.rowsOf t).toList[i]? = some row ∧ Table.atPosition row.toList c = .ok x := by
  unfold cell
  rw [Table.atPosition_natCast]
  cases (db.rowsOf t).toList[i]? with
  | none => simp; split <;> simp
  | some row =>
    simp only [Option.some.injEq, exists_eq_left']
    cases Table.atPosition row.toList c with
    | ok x => simp
    | error e => simp; split <;> simp

/-- Rows that come later do not hide a cell. -/
theorem cell_of_rows_le {db' : Database}
    (h : (db.rowsOf t).toList <+: (db'.rowsOf t).toList) (hx : db.cell t i c = .ok x) : db'.cell t i c = .ok x := by
  obtain ⟨row, hrow, hc⟩ := cell_ok_iff.1 hx
  refine cell_ok_iff.2 ⟨row, ?_, hc⟩
  obtain ⟨rest, hrest⟩ := h
  rw [← hrest, List.getElem?_append_left (List.getElem?_eq_some_iff.1 hrow).1, hrow]

theorem touch_of_cell (h : db.cell t i c = .ok x) : db.touch t = db := by
  obtain ⟨row, hrow, -⟩ := cell_ok_iff.1 h
  exact touch_of_rowsOf (ne_nil_of_mem (mem_of_getElem? hrow))

end Database

/-! ## New rows -/

/-- The numbers of columns that are counted from zero on. -/
def upTo (n : Nat) : List Int := (List.range n).map Int.ofNat

@[simp] theorem length_upTo (n : Nat) : (upTo n).length = n := by simp [upTo]

theorem upTo_succ (n : Nat) : upTo (n + 1) = upTo n ++ [(n : Int)] := by
  simp [upTo, range_succ]

namespace Database

variable {db : Database} {t : Table}

variable {n width : Nat}

theorem setAt_natCast {cells : Array (Option Cell)} (h : n < cells.size) (c : Cell) :
    setAt cells n c = .ok (cells.set! n (some c)) := by
  have h0 : ¬ (n : Int) < 0 := by omega
  have hn : 0 ≤ (n : Int) ∧ (n : Int) < cells.size := by omega
  simp [setAt, h0, hn]

private theorem fill_ok (id row : Int) (width : Nat) (hn : n ≤ width) :
    (upTo n).foldlM (fun cells c ↦ setAt cells c ⟨id, row, c⟩) (Array.replicate width none) =
      .ok ((upTo n).map (fun c ↦ some (⟨id, row, c⟩ : Cell)) ++ List.replicate (width - n) none).toArray := by
  induction n with
  | zero => simp [upTo, pure, Except.pure]
  | succ n ih =>
    have hsplit : List.replicate (width - n) (none : Option Cell) =
        none :: List.replicate (width - (n + 1)) none := by
      rw [← replicate_succ]
      congr 1
      omega
    rw [upTo_succ, foldlM_append, ih (by omega), hsplit]
    change (setAt _ n _ >>= pure) = _
    rw [setAt_natCast (by simp)]
    simp [bind, Except.bind, pure, Except.pure]

/-- A new row of a table whose columns are counted from zero on. -/
theorem freshRow_ok (h : t.columns.map (·.id) = upTo width) (row : Nat) :
    freshRow t row = .ok (t.columns.map fun c ↦ some ⟨t.id, row, c.id⟩).toArray := by
  have hlen : t.columns.length = width := by simpa using congrArg List.length h
  have hfold : freshRow t row =
      (t.columns.map (·.id)).foldlM (fun cells c ↦ setAt cells c ⟨t.id, row, c⟩)
        (Array.replicate width none) := by
    rw [foldlM_map, ← hlen]
    rfl
  have hmap : t.columns.map (fun c ↦ some (⟨t.id, row, c.id⟩ : Cell)) =
      (t.columns.map (·.id)).map fun c ↦ some ⟨t.id, row, c⟩ := by simp
  rw [hfold, hmap, h, fill_ok _ _ _ le_rfl]
  simp

theorem rowsOf_addRows (t : Table) (n row : Nat) (db : Database) (id : Int) :
    (db.rowsOf id).toList <+: ((addRows t n row db).2.rowsOf id).toList := by
  induction n generalizing row db with
  | zero => exact prefix_rfl
  | succ n ih =>
    unfold addRows
    split
    · exact prefix_rfl
    · rename_i cells _
      refine IsPrefix.trans ?_ (ih (row + 1) _)
      split
      · exact prefix_rfl
      · rw [rowsOf_put]
        split
        · rename_i hid
          rw [hid]
          simp
        · exact prefix_rfl

/-- Rows of a new table, whose columns are counted from zero on. -/
theorem addRows_ok (h : t.columns.map (·.id) = upTo width) (n row : Nat) (db : Database) :
    ∃ db', addRows t n row db = (.ok (), db') ∧ (∀ id ≠ t.id, db'.rowsOf id = db.rowsOf id) ∧
      (t.columns ≠ [] → (db'.rowsOf t.id).toList = (db.rowsOf t.id).toList ++
        (List.range' row n).map fun (i : Nat) ↦ (t.columns.map fun c ↦ some (⟨t.id, i, c.id⟩ : Cell)).toArray) := by
  induction n generalizing row db with
  | zero => exact ⟨db, rfl, fun _ _ ↦ rfl, fun _ ↦ by simp⟩
  | succ n ih =>
    unfold addRows
    rw [freshRow_ok h]
    by_cases hcols : t.columns = []
    · obtain ⟨db', hdb, hother, -⟩ := ih (row + 1) db
      exact ⟨db', by simpa [hcols] using hdb, hother, fun hne ↦ absurd hcols hne⟩
    · obtain ⟨db', hdb, hother, hown⟩ := ih (row + 1)
        { db with rows := put t.id ((db.rowsOf t.id).push
            (t.columns.map fun c ↦ some (⟨t.id, row, c.id⟩ : Cell)).toArray) db.rows }
      refine ⟨db', by simpa [hcols] using hdb, fun id hid ↦ ?_, fun hne ↦ ?_⟩
      · rw [hother id hid, rowsOf_put, if_neg hid]
      · rw [hown hne, rowsOf_put, if_pos rfl]
        simp [range'_succ]

theorem rowsOf_addTable {db' : Database} {place : Nat} (h : db.addTable place t = (.ok (), db')) (id : Int) :
    (db.rowsOf id).toList <+: (db'.rowsOf id).toList := by
  obtain ⟨n, db₁, -, hadd, rfl⟩ := addTable_iff.1 h
  have hrows := rowsOf_addRows t n 0 (db.sizing t.id) id
  rwa [hadd] at hrows

/-- A new table, whose columns are counted from zero on, gets cells of its own. -/
theorem addTable_fresh (place : Nat) (h : t.columns.map (·.id) = upTo width)
    (hrows : t.rows = .ok n) (hfree : db.rowsOf t.id = #[]) :
    ∃ db', db.addTable place t = (.ok (), db') ∧ (∀ id ≠ t.id, db'.rowsOf id = db.rowsOf id) ∧
      (t.columns ≠ [] → (db'.rowsOf t.id).size = n) ∧
      ∀ i < n, Forall₂ (fun c x ↦ db'.cell t.id i c = .ok (some x)) (t.columns.map (·.id))
        ((t.columns.map (·.id)).map fun c ↦ ⟨t.id, i, c⟩) := by
  obtain ⟨db', hdb, hother, hown⟩ := addRows_ok h n 0 (db.sizing t.id)
  rw [show (db.sizing t.id).rowsOf t.id = #[] from hfree] at hown
  refine ⟨_, addTable_iff.2 ⟨n, db', hrows, hdb, rfl⟩, hother, fun hne ↦ ?_, fun i hi ↦ ?_⟩
  · change (db'.rowsOf t.id).size = n
    rw [← Array.length_toList, hown hne]
    simp
  · rw [forall₂_map_right_iff, forall₂_same]
    intro c hc
    have hne : t.columns ≠ [] := by
      rintro hnil
      simp [hnil] at hc
    obtain ⟨p, hp, rfl⟩ : ∃ p : Nat, p < width ∧ c = p := by
      rw [h] at hc
      obtain ⟨p, hp, rfl⟩ := mem_map.1 hc
      exact ⟨p, mem_range.1 hp, rfl⟩
    refine cell_ok_iff.2 ⟨(t.columns.map fun c ↦ some (⟨t.id, i, c.id⟩ : Cell)).toArray, ?_, ?_⟩
    · change (db'.rowsOf t.id).toList[i]? = _
      rw [hown hne, nil_append, getElem?_map, getElem?_range' hi]
      simp
    · have hmap : t.columns.map (fun c ↦ some (⟨t.id, i, c.id⟩ : Cell)) =
          (upTo width).map fun c ↦ some ⟨t.id, i, c⟩ := by
        rw [← h, map_map]
        rfl
      rw [hmap, Table.atPosition_ok_iff]
      simp [upTo, hp]

end Database

/-! ## Tables that lie in a workspace -/

variable {t : Table}

theorem Results.Shape.ofTable_ok_iff {s : Shape} :
    ofTable t = .ok s ↔ t.id = s.id ∧ t.rows = .ok s.rows ∧ t.columns.map (·.id) = s.columns := by
  simp only [ofTable, Outcome.bind_ok_iff, Outcome.pure_ok_iff]
  constructor
  · rintro ⟨n, hn, rfl⟩
    exact ⟨rfl, hn, rfl⟩
  · rintro ⟨hid, hn, hcols⟩
    refine ⟨s.rows, hn, ?_⟩
    rw [hid, hcols]

/-- A table of the catalog has its cells in the database. -/
structure Lies (w : Workspace) (place : Nat) (s : Sheet) : Prop where
  entered : place < w.catalog.tables.size
  used : s.id ≤ w.lastTable
  shape : Shape.ofTable (w.catalog.table place) = .ok s.toShape
  cells : ∀ i < s.rows,
    List.Forall₂ (fun c x ↦ w.database.cell s.id i c = .ok (some x)) s.columns (s.line i)

namespace Lies

variable {w w' : Workspace} {place : Nat} {s : Sheet} (h : Lies w place s)
include h

theorem id_eq : (w.catalog.table place).id = s.id := (ofTable_ok_iff.1 h.shape).1

theorem rows_eq : (w.catalog.table place).rows = .ok s.rows := (ofTable_ok_iff.1 h.shape).2.1

theorem columns_eq : (w.catalog.table place).columns.map (·.id) = s.columns :=
  (ofTable_ok_iff.1 h.shape).2.2

theorem length_line {i : Nat} (hi : i < s.rows) : (s.line i).length = s.columns.length :=
  (h.cells i hi).length_eq.symm

end Lies

/-- No rows are there yet for the numbers that are not in use. -/
def Unused (w : Workspace) : Prop := ∀ id, w.lastTable < id → w.database.rowsOf id = #[]

/-! ## Looking up cells -/

section Copies

variable {w : Workspace}

/-- A list is gone through without a change of the workspace. -/
theorem Gives.mapM_of_forall₂ {β : Type} {f : α → Encoding β} {l : List α} {bs : List β}
    (h : Forall₂ (fun a b ↦ Gives (f a) w b w) l bs) : Gives (l.mapM f) w bs w := by
  induction h with
  | nil =>
    rw [mapM_nil]
    exact pure_iff.2 ⟨rfl, rfl⟩
  | cons hab _ ih =>
    rw [mapM_cons]
    exact bind_iff.2 ⟨_, w, hab, bind_iff.2 ⟨_, w, ih, pure_iff.2 ⟨rfl, rfl⟩⟩⟩

theorem Gives.mapM_map {β : Type} {f : α → Encoding β} {g : α → β} {l : List α} (h : ∀ a ∈ l, Gives (f a) w (g a) w) :
    Gives (l.mapM f) w (l.map g) w :=
  .mapM_of_forall₂ (forall₂_map_right_iff.2 (forall₂_same.2 h))

variable {t c : Int} {i : Nat}

theorem cell?_gives {x : Option Cell} (h : w.database.cell t i c = .ok x) : Gives (cell? t i c) w x w := by
  simp only [cell?, bind_iff, modify_iff, get_iff, lift_iff]
  refine ⟨⟨⟩, w, ?_, w, w, ⟨rfl, rfl⟩, h, rfl⟩
  rw [Database.touch_of_cell h]

theorem lt_size_of_cell? {v : Workspace} {x : Option Cell}
    (h : Gives (cell? t i c) w x v) : i < (w.database.rowsOf t).size := by
  simp only [cell?, bind_iff, modify_iff, get_iff, lift_iff] at h
  obtain ⟨_, _, rfl, _, _, ⟨rfl, rfl⟩, hcell, -⟩ := h
  obtain ⟨cells, hget, -⟩ := Database.cell_ok_iff.1 hcell
  rw [Database.rowsOf_touch] at hget
  rw [← Array.length_toList]
  exact (List.getElem?_eq_some_iff.1 hget).1

theorem copyOf_gives {s d : Int} {j : Nat} {y : Cell} (hx : w.database.cell s i c = .ok (some x))
    (hy : w.database.cell t j d = .ok (some y)) : Gives (copyOf (s, i, c) (t, j, d)) w (x.copies y) w := by
  simp only [copyOf, bind_iff]
  exact ⟨_, w, cell?_gives hx, _, w, cell?_gives hy, pure_iff.2 ⟨rfl, rfl⟩⟩

theorem copyRow_gives {s : Int} {j : Nat} {columns : List Int} {xs : List Cell}
    (hx : Forall₂ (fun c x ↦ w.database.cell s i c = .ok (some x)) columns xs)
    (hy : Forall₂ (fun c y ↦ w.database.cell t j c = .ok (some y)) columns ys) :
    Gives (copyRow s t i j columns) w (List.zipWith Cell.copies xs ys) w := by
  refine mapM_of_forall₂ ?_
  induction hx generalizing ys with
  | nil =>
    cases hy
    exact .nil
  | cons hx _ ih =>
    cases hy with
    | cons hy hys => exact .cons (copyOf_gives hx hy) (ih hys)

end Copies

/-! ## New tables -/

section Making

variable {w : Workspace}

variable {width output : Nat} {k : Int}

/-- A table under a number without rows gets cells of its own. -/
theorem makeTable_gives {t : Table} {n : Nat} (hcols : t.columns.map (·.id) = upTo width)
    (hrows : t.rows = .ok n) (hid : t.id ≤ w.lastTable) (hfree : w.database.rowsOf t.id = #[]) : ∃ db : Database,
      Gives (makeTable t) w w.catalog.tables.size { w with catalog := (w.catalog.add t).2, database := db } ∧
      Lies { w with catalog := (w.catalog.add t).2, database := db } w.catalog.tables.size
        (sheet ⟨t.id, n, upTo width⟩) ∧
      (∀ id ≠ t.id, db.rowsOf id = w.database.rowsOf id) ∧ (t.columns ≠ [] → (db.rowsOf t.id).size = n) := by
  obtain ⟨db, hdb, hother, hsize, hcells⟩ := Database.addTable_fresh w.catalog.tables.size hcols hrows hfree
  refine ⟨db, ?_, ⟨by simp, hid, ?_, fun i hi ↦ ?_⟩, hother, hsize⟩
  · simp only [makeTable, bind_iff, enter_gives, addTable_gives_iff, pure_iff]
    exact ⟨_, _, ⟨rfl, rfl⟩, ⟨⟩, _, ⟨db, by rw [table_add_self]; exact hdb, rfl⟩, rfl, rfl⟩
  · rw [table_add_self]
    exact ofTable_ok_iff.2 ⟨rfl, hrows, hcols⟩
  · have := hcells i hi
    rwa [hcols] at this

/-- What a table says of itself beside its number, bound and columns may change. -/
theorem Lies.change {place : Nat} {s : Sheet} (h : Lies w place s) {f : Table → Table}
    (hf : ∀ t, ofTable (f t) = ofTable t) : Lies { w with catalog := w.catalog.modify place f } place s where
  entered := by simpa using h.entered
  used := h.used
  shape := by rw [table_modify_self h.entered, hf, h.shape]
  cells := h.cells

theorem compare_lt_int (k b : Int) : (Value.int k).compare .lt (.int b) = .ok (decide (k < b)) := rfl

/-- A result is cut down if fewer rows are wanted than it has: a copy of its table gets a number and a bound, and stands
for it. -/
theorem cutDown_gives_iff {k : Value} {cut : Option Nat} {w' : Workspace} : Gives (cutDown output k) w cut w' ↔
    k.compare .lt (w.catalog.table output).bound = .ok false ∧ cut = none ∧ w' = w ∨
    k.compare .lt (w.catalog.table output).bound = .ok true ∧
      let c := (w.catalog.copy output).2.modify w.catalog.tables.size ({ · with id := w.lastTable + 1, bound := k })
      ∃ db, w.database.addTable w.catalog.tables.size (c.table w.catalog.tables.size) = (.ok (), db) ∧
        cut = some w.catalog.tables.size ∧
        w' = { w with
          catalog := c
          lastTable := w.lastTable + 1
          database := db
          formulas := { w.formulas with
            fullTable := put (w.lastTable + 1) (w.catalog.table output).id w.formulas.fullTable } } := by
  simp [-bind_pure_comp, cutDown, bind_iff, table_gives, copyTable_gives, newTableId_gives, changeTable_gives,
    addTable_gives_iff, Workspace.changeFormulas, and_assoc, Bool.exists_bool]

theorem cutDown_gives_none {b : Int} (hb : (w.catalog.table output).bound = .int b)
    (hk : b ≤ k) : Gives (cutDown output (.int k)) w none w :=
  cutDown_gives_iff.2 (.inl ⟨by rw [hb, compare_lt_int, decide_eq_false (by omega)], rfl, rfl⟩)

/-- A copy of a table under a new number and with another bound has cells of its own. -/
theorem cut_lies {c : Catalog} (hc : c = (w.catalog.copy output).2.modify w.catalog.tables.size
      ({ · with id := w.lastTable + 1, bound := .int k }))
    (hcols : (w.catalog.table output).columns.map (·.id) = upTo width) (hfree : Unused w) :
    ∃ db, w.database.addTable w.catalog.tables.size (c.table w.catalog.tables.size) = (.ok (), db) ∧
      (∀ id ≠ w.lastTable + 1, db.rowsOf id = w.database.rowsOf id) ∧
      ∀ fs : Formulas, Lies { w with catalog := c, lastTable := w.lastTable + 1, database := db, formulas := fs }
        w.catalog.tables.size (sheet ⟨w.lastTable + 1, k.toNat, upTo width⟩) := by
  have hplace := size_lt_copy w.catalog output
  obtain ⟨as, hlike⟩ := copy_like w.catalog output
  have htable : c.table w.catalog.tables.size =
      { w.catalog.table output with id := w.lastTable + 1, bound := .int k, ancestors := as } := by
    rw [hc, table_modify_self hplace, hlike]
  have hids : (c.table w.catalog.tables.size).columns.map (·.id) = upTo width := by
    rw [htable]
    exact hcols
  have hrows : (c.table w.catalog.tables.size).rows = .ok k.toNat := by
    rw [htable]
    rfl
  have hid : (c.table w.catalog.tables.size).id = w.lastTable + 1 := by rw [htable]
  obtain ⟨db, hdb, hother, -, hcells⟩ := Database.addTable_fresh w.catalog.tables.size hids hrows
    (by rw [hid]; exact hfree _ (by omega))
  rw [hid, hids] at hcells
  rw [hid] at hother
  refine ⟨db, hdb, hother, fun fs ↦ ⟨?_, le_rfl, ofTable_ok_iff.2 ⟨hid, hrows, hids⟩, hcells⟩⟩
  rw [hc]
  simpa using hplace

/-- A table that has more rows than are wanted is cut down to a table with cells of its own. -/
theorem cutDown_gives_some {s : Sheet} {b : Int} (hs : Lies w output s)
    (hcols : s.columns = upTo width) (hb : (w.catalog.table output).bound = .int b) (hk : k < b) (hfree : Unused w) :
    ∃ w', Gives (cutDown output (.int k)) w (some w.catalog.tables.size) w' ∧
      Lies w' w.catalog.tables.size (sheet ⟨w.lastTable + 1, k.toNat, upTo width⟩) ∧
      ∀ id ≠ w.lastTable + 1, w'.database.rowsOf id = w.database.rowsOf id := by
  obtain ⟨db, hdb, hother, hlies⟩ := cut_lies rfl (hs.columns_eq.trans hcols) hfree
  exact ⟨_, cutDown_gives_iff.2 (.inr ⟨by rw [hb, compare_lt_int, decide_eq_true hk], db, hdb, rfl, rfl⟩), hlies _,
    hother⟩

/-- If a result was cut down, the smaller table has cells of its own. -/
theorem cutDown_lies {w' : Workspace} {cut : Option Nat} (hg : Gives (cutDown output (.int k)) w cut w')
    (hcols : (w.catalog.table output).columns.map (·.id) = upTo width) (hfree : Unused w) :
    ∀ c, cut = some c → ∃ t : Shape, Lies w' c t.sheet ∧ t.columns = upTo width ∧ t.rows = k.toNat := by
  rintro c rfl
  obtain ⟨-, hnone, -⟩ | ⟨-, db, hadd, hc, rfl⟩ := cutDown_gives_iff.1 hg
  · cases hnone
  · obtain rfl := Option.some.inj hc
    obtain ⟨db', hdb, -, hlies⟩ := cut_lies (k := k) rfl hcols hfree
    rw [hdb] at hadd
    cases hadd
    exact ⟨_, hlies _, rfl, rfl⟩

end Making

end QueryEquiv
