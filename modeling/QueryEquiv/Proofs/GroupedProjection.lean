import QueryEquiv.Proofs.GroupValues
import QueryEquiv.Proofs.Registry

/-!
# Projections of groups

A grouping and its projection are two formulas on one table. The grouping says by its choices which rows name
groups and which groups are kept; the projection says for each group that is kept what its cells hold. So the
rows of the result that are there are the groups that are kept, in their order, and each cell holds the value
of its target in the group.

The projection finds its cells under the number of the grouping. Even if that was projected before, the first
rows under the number are rows of its own unknowns (`Workspace.Grouping`), which is kept by every change.
-/

namespace QueryEquiv

open Chain Formulas Catalog Interpretation Gives List Workspace Expression Operator Results Project

variable {g i p place : Nat} {I : Interpretation}

/-! ## The rows under the number of a grouping -/

/-- Under a number there are only a grouping and its projections, which all have the same bound. There are no rows
yet, or the first ones are rows of unknowns, one for each group. -/
structure Workspace.Grouping (w : Workspace) (id : Int) (bound : Value) (n : Nat) : Prop where
  counted : id ≤ w.lastTable
  tables : ∀ p, (w.catalog.table p).Used → (w.catalog.table p).id = id →
    (w.catalog.table p).Begins "Grouped" ∧ (w.catalog.table p).bound = bound
  rows : (w.database.rowsOf id = #[] ∧ ∀ p, (w.catalog.table p).id = id → (w.catalog.table p).columns = []) ∨
    ∃ m, (List.range n).map (Database.cellsOf id m) <+: (w.database.rowsOf id).toList

namespace Workspace.Grouping

variable {w₀ w w' : Workspace} {id : Int} {bound : Value} {n : Nat}

theorem of_stems (hw : w.Grouping id bound n) {t : Table} (hs : t.Stems (w.catalog.table p)) (ht : t.Used)
    (hid : t.id = id) : t.Begins "Grouped" ∧ t.bound = bound := by
  obtain ⟨hbegins, hbound⟩ := hw.tables p (hs.used_iff.1 ht) (hs.id ▸ hid)
  have hsorted : ¬ (w.catalog.table p).Begins "Sorted" := hbegins.not_begins
  exact ⟨hs.begins hbegins, (hs.bound.resolve_right hsorted).trans hbound⟩

/-- Tables that stem from those before, and rows that stay. -/
theorem other (hw : w.Grouping id bound n) (hlast : w.lastTable ≤ w'.lastTable)
    (hstems : ∀ q, (w'.catalog.table q).id = id → ∃ p, (w'.catalog.table q).Stems (w.catalog.table p))
    (hrows : w'.database.rowsOf id = w.database.rowsOf id) : w'.Grouping id bound n where
  counted := hw.counted.trans hlast
  tables q hq hid := by
    obtain ⟨p, hs⟩ := hstems q hid
    exact hw.of_stems hs hq hid
  rows := by
    rw [hrows]
    refine hw.rows.imp_left (And.imp_right fun h q hid ↦ ?_)
    obtain ⟨p, hs⟩ := hstems q hid
    exact hs.columns_eq_nil.2 (h p (hs.id ▸ hid))

/-- The grouping is projected, maybe not for the first time. -/
theorem project (hw : w.Grouping id bound n) (hn : ∀ t : Table, t.bound = bound → t.rows = .ok n) {t : Table} {m : Nat}
    {c : Catalog} {db : Database} (henters : Enters w place t c db) (hused : (w.catalog.table p).Used)
    (hid : t.id = (w.catalog.table p).id) (hbound : t.bound = (w.catalog.table p).bound) (hbegins : t.Begins "Grouped")
    (hcolumns : t.columns.map (·.id) = (w.catalog.table p).columns.map (·.id) ++ upTo m) (hkin : (c.table place).Kin t)
    (hself : t.id = id) (hlast : w'.lastTable = w.lastTable) (hcatalog : w'.catalog = c)
    (hdb : w'.database = db) : w'.Grouping id bound n := by
  subst hcatalog hdb
  obtain ⟨-, hbound'⟩ := hw.tables p hused (hid ▸ hself)
  refine ⟨hlast ▸ hw.counted, fun q hq hqid ↦ ?_, ?_⟩
  · rcases eq_or_ne q place with rfl | hne
    · exact ⟨hkin.begins hbegins, hkin.bound.trans (hbound.trans hbound')⟩
    · obtain ⟨p, hs⟩ := henters.stems hne
      exact hw.of_stems hs hq hqid
  · rcases hw.rows with ⟨hnone, hcols⟩ | ⟨m, hm⟩
    · rw [hcols p (hid ▸ hself), map_nil, nil_append] at hcolumns
      obtain ⟨k, hk, hnil, hrows⟩ := Database.addTable_rows henters.added hcolumns
      obtain rfl : k = n := Except.ok.inj (hk.symm.trans (hn t (hbound.trans hbound')))
      rw [hself, hnone] at hnil hrows
      by_cases hempty : t.columns = []
      · refine .inl ⟨hnil hempty, fun q hqid ↦ ?_⟩
        rcases eq_or_ne q place with rfl | hne
        · exact hkin.columns_eq_nil.2 hempty
        · obtain ⟨p, hs⟩ := henters.stems hne
          exact hs.columns_eq_nil.2 (hcols p (hs.id ▸ hqid))
      · exact .inr ⟨m, by rw [hrows hempty]; exact prefix_rfl⟩
    · exact .inr ⟨m, hm.trans (Database.rowsOf_addTable henters.added id)⟩

theorem start {input : Nat} {label : Option String} {keys : List Node} (hreg : Registered w)
    (hmade : Added w place (groupedTable w input label keys) w') : w'.Grouping (w.lastTable + 1) (w.catalog.table input).bound n where
  counted := hmade.last.ge
  tables q hq hid := by
    rcases eq_or_ne q place with rfl | hne
    · rw [hmade.table]
      exact ⟨Table.Begins.of_prefix (groupedTable_begins input label keys) (by decide), rfl⟩
    · obtain ⟨p, hlike⟩ := hmade.like q hne
      have := hreg.counted p (hlike.stems.used_iff.1 hq)
      rw [hlike.stems.id] at hid
      omega
  rows := by
    obtain ⟨u, hid, -, hcols, hadd⟩ := hmade.added
    obtain ⟨_, -, hnil, -⟩ := Database.addTable_rows hadd (hcols.trans rfl : _ = upTo 0)
    rw [hid] at hnil
    refine .inl ⟨(hnil (map_eq_nil_iff.1 hcols)).trans (hreg.free _ (lt_add_one _)), fun q hid ↦ ?_⟩
    rcases eq_or_ne q place with rfl | hne
    · rw [hmade.table]
      rfl
    · obtain ⟨p, hlike⟩ := hmade.like q hne
      by_contra hcols
      have := hreg.counted p (.inl (mt hlike.stems.columns_eq_nil.2 hcols))
      rw [hlike.stems.id] at hid
      omega

theorem cell_eq (hw : w.Grouping id bound n) (hg : g < n) {x : Cell}
    (hx : w.database.cell id g i = .ok (some x)) : x = ⟨id, g, i⟩ := by
  obtain ⟨row, hrow, hi⟩ := Database.cell_ok_iff.1 hx
  rcases hw.rows with ⟨hnone, -⟩ | ⟨m, rest, hm⟩
  · rw [hnone] at hrow
    cases hrow
  · rw [← hm, getElem?_append_left (by simpa using hg), getElem?_map, getElem?_range hg] at hrow
    obtain rfl := Option.some.inj hrow
    rw [Table.atPosition_ok_iff, Database.cellsOf, getElem?_map, Option.map_eq_some_iff] at hi
    obtain ⟨c, hc, hx⟩ := hi
    obtain ⟨hlt, rfl⟩ := List.getElem?_eq_some_iff.1 hc
    cases hx
    simp [upTo]

end Workspace.Grouping

section Keeping

variable {w₀ w w' : Workspace} {id : Int} {bound : Value} {n : Nat}

theorem Change.grouping (h : Change w₀ w w') (hkept : Kept w) (hn : ∀ t : Table, t.bound = bound → t.rows = .ok n)
    (hw : w.Grouping id bound n) : w'.Grouping id bound n := by
  have hle := h.last_le
  have hcounted := hw.counted
  cases h with
  | still h => exact hw.other hle (fun q _ ↦ h.stems q) (h.rows id)
  | @make place t c db fs enters hid _ _ _ table _ =>
    obtain ⟨b, hkin, -⟩ := table
    have hne : id ≠ t.id := by omega
    refine hw.other hle (fun q hq ↦ ?_) (Database.rowsOf_addTable_of_ne enters.added hne)
    rcases eq_or_ne q place with rfl | hqne
    · exact absurd (hq.symm.trans hkin.id) hne
    · exact enters.stems hqne
  | @project place p m source t c db enters grouped hid hbound lineage columns table =>
    by_cases hself : t.id = id
    · exact hw.project hn enters (.inr (hkept.made_of_mentions grouped)) hid hbound
        (.of_append (" and projected from T" ++ toString source) lineage) columns table hself rfl rfl rfl
    · refine hw.other hle (fun q hq ↦ ?_) (Database.rowsOf_addTable_of_ne enters.added (Ne.symm hself))
      rcases eq_or_ne q place with rfl | hqne
      · exact absurd (table.id.symm.trans hq) hself
      · exact enters.stems hqne
  | @share place k t db fs shares =>
    have hid : t.id = w.lastTable + 1 := shares.kin.id
    refine hw.other hle (fun q hq ↦ ⟨q, ?_⟩) ?_
    · have hqne : q ≠ w.catalog.tables.size := by
        rintro rfl
        rw [table_add_self] at hq
        omega
      change ((w.catalog.add t).2.table q).Stems _
      rw [table_add_of_ne hqne]
      exact .refl _
    · exact (shares.shared id).trans (if_neg (by omega))

theorem Chain.grouping (h : Chain w w') (hkept : Kept w) (hn : ∀ t : Table, t.bound = bound → t.rows = .ok n)
    (hw : w.Grouping id bound n) : w'.Grouping id bound n :=
  (h.induct (P := fun v ↦ Kept v ∧ v.Grouping id bound n) ⟨hkept, hw⟩
    fun _ _ hv hc ↦ ⟨hc.kept hv.1, hc.grouping hv.1 hn hv.2⟩).2

end Keeping

/-! ## Targets -/

/-- What the cell in a row and a column of a table holds. -/
def Workspace.columnValue (w : Workspace) (I : Interpretation) (place : Nat) (row column : Int) : Option Int :=
  (w.database.cell (w.catalog.table place).id row column).toOption.join.bind I.value

namespace Operator.Target

/-- The value of a target in a group of rows. A column has its value in the first row. -/
def valueIn (w : Workspace) (I : Interpretation) (place : Nat) (rows : List Nat) : Target → Option Int
  | .column c => Sql.first (rows.map fun (i : Nat) ↦ w.columnValue I place i c)
  | .computed e => e.groupValue (w.group I place rows)

/-- A target is a column, or an expression of columns that are known, literals, aggregates and operators. -/
def Plain (w : Workspace) (place n : Nat) : Target → Prop
  | .column _ => True
  | .computed e => ∀ bare, e.PlainGroup bare n fun i ↦ w.Names place i

end Operator.Target

theorem Keeps.mapM_forall₂ {α β : Type} {P : Workspace → Prop} {f : α → Encoding β} {R : α → β → Prop} {l : List α}
    (h : ∀ a ∈ l, Keeps P (f a) (R a)) : Keeps P (l.mapM f) (Forall₂ R l) := by
  induction l with
  | nil =>
    rw [mapM_nil]
    exact .pure .nil
  | cons a l ih =>
    rw [forall_mem_cons] at h
    rw [mapM_cons]
    exact h.1.bind fun b hb ↦ (ih h.2).bind fun bs hbs ↦ .pure (.cons hb hbs)

namespace Expression

section Mapping

variable {w₀ : Workspace} {place n : Nat}

theorem cell?_undisturbed (t r c : Int) :
    Keeps (Undisturbed w₀ place) (cell? t r c) (w₀.database.cell t r c = .ok ·) := by
  intro w x w' hw hg
  simp only [cell?, bind_iff, modify_iff, get_iff, lift_iff] at hg
  obtain ⟨_, _, rfl, _, _, ⟨rfl, rfl⟩, hcell, rfl⟩ := hg
  have hsame : (w.database.touch t).cell = w₀.database.cell := (Database.cell_touch _ _).trans hw.cell
  exact ⟨⟨hw.tables, hw.finds, hsame, hw.code⟩, by rw [← hsame]; exact hcell⟩

theorem copyOf_undisturbed (source target : Int × Int × Int) :
    Keeps (Undisturbed w₀ place) (copyOf source target) fun t ↦ ∃ x y,
      w₀.database.cell source.1 source.2.1 source.2.2 = .ok (some x) ∧
      w₀.database.cell target.1 target.2.1 target.2.2 = .ok (some y) ∧ t = x.copies y := by
  refine (cell?_undisturbed _ _ _).bind fun x hx ↦ (cell?_undisturbed _ _ _).bind fun y hy ↦ ?_
  split
  · exact .pure ⟨_, _, hx, hy, rfl⟩
  · exact .throw

theorem value_of_holds {x : Cell} {r : Reading} (h : ∀ t ∈ holds x r, I.Holds t) : I.value x = I.read r := by
  simp only [holds, forall_mem_cons, holds_eq] at h
  have hnull : I.Holds x.isNull ↔ I.Holds r.2 := by
    unfold Holds
    rw [h.2.1]
  rw [← I.read_cell, Interpretation.read, Interpretation.read, if_congr hnull rfl rfl, h.1]

theorem holds_isFirstInGroup {id : Int} {group : Nat} {rows : List Nat}
    (h : (List.range n).filter (fun (i : Nat) ↦ I.grouping id i group) = i :: rows) :
    i < n ∧ I.Holds (isFirstInGroup id group i) := by
  have hfirst : (List.range n).find? (fun (i : Nat) ↦ I.grouping id i group) = some i := by
    rw [← head?_filter, h, head?_cons]
  rw [List.find?_range_eq_some] at hfirst
  obtain ⟨hi, hlt, hnone⟩ := hfirst
  refine ⟨mem_range.1 hlt, ?_⟩
  simp only [isFirstInGroup, holds_and, forall_mem_cons, forall_mem_map, mem_range, holds_not, holds_grouping]
  exact ⟨hi, fun e he ↦ by simpa using hnone e he, by simp⟩

section Groups

variable {sub : Subquery} {output members group memo : Nat}

/-- Terms say of a group that has a row that the cell for a target holds its value. -/
def Says (w : Workspace) (output members group n : Nat) (ts : List Term) (e : Target × Nat) : Prop :=
  ∃ x, w.database.cell (w.catalog.table output).id group e.2 = .ok (some x) ∧
    ∀ I : Interpretation, I.groupRows w ⟨output, members, group, none⟩ n ≠ [] → (∀ t ∈ ts, I.Holds t) →
      I.value x = e.1.valueIn w I members (I.groupRows w ⟨output, members, group, none⟩ n)

theorem Says.mono {ts us : List Term} {e : Target × Nat} (h : Says w₀ output members group n ts e) (hsub : ts ⊆ us) :
    Says w₀ output members group n us e := by
  obtain ⟨x, hx, h⟩ := h
  exact ⟨x, hx, fun I hne hI ↦ h I hne fun t ht ↦ hI t (hsub ht)⟩

theorem columnMapping_tells (c : Int) (i : Nat) (hpos : 0 < n) :
    Keeps (Undisturbed w₀ members) ((List.range n).mapM fun (row : Nat) ↦ do
      let copy ← copyOf ((w₀.catalog.table members).id, row, c) ((w₀.catalog.table output).id, group, i)
      return Term.implies (isFirstInGroup (w₀.catalog.table output).id group row) copy)
      (Says w₀ output members group n · (.column c, i)) := by
  refine (Keeps.mapM_forall₂ fun row _ ↦ (copyOf_undisturbed _ _).bind fun copy hcopy ↦
    .pure (Q := fun t ↦ ∃ x y, w₀.database.cell (w₀.catalog.table members).id (row : Nat) c = .ok (some x) ∧
      w₀.database.cell (w₀.catalog.table output).id group i = .ok (some y) ∧
      t = Term.implies (isFirstInGroup (w₀.catalog.table output).id group row) (x.copies y)) ?_).imp
    fun ts hts ↦ ?_
  · obtain ⟨x, y, hx, hy, rfl⟩ := hcopy
    exact ⟨x, y, hx, hy, rfl⟩
  · have hat {row : Nat} (hrow : row < n) : ∃ t ∈ ts, ∃ x y,
        w₀.database.cell (w₀.catalog.table members).id row c = .ok (some x) ∧
        w₀.database.cell (w₀.catalog.table output).id group i = .ok (some y) ∧
        t = .implies (isFirstInGroup (w₀.catalog.table output).id group row) (x.copies y) := by
      have hlt : row < ts.length := by rwa [← hts.length_eq, length_range]
      have h := hts.get (by rwa [length_range]) hlt
      simp only [get_eq_getElem, getElem_range] at h
      exact ⟨_, getElem_mem hlt, h⟩
    obtain ⟨-, -, -, y, -, hy, -⟩ := hat hpos
    refine ⟨y, hy, fun I hne hI ↦ ?_⟩
    obtain ⟨first, rest, hrows⟩ := exists_cons_of_ne_nil hne
    obtain ⟨hlt, hfirst⟩ := holds_isFirstInGroup hrows
    obtain ⟨t, ht, x, y', hx, hy', rfl⟩ := hat hlt
    obtain rfl : y' = y := by simpa [hy'] using hy
    rw [I.value_of_copies ((I.holds_implies _ _).1 (hI _ ht) hfirst), Target.valueIn, hrows, map_cons,
      columnValue, hx]
    rfl

/-- The formula of a group says what the cell for each target holds. -/
theorem groupMapping_tells (hn : (w₀.catalog.table members).rows = .ok n) (hpos : 0 < n)
    (targets : List (Target × Nat)) (hplain : ∀ e ∈ targets, e.1.Plain w₀ members n) :
    Keeps (Undisturbed w₀ members) (groupMapping sub ⟨output, members, group, none⟩
      (w₀.catalog.table output).id group memo n targets)
      fun ts ↦ ∀ e ∈ targets, Says w₀ output members group n ts e := by
  induction targets with
  | nil => exact .pure (by simp)
  | cons target targets ih =>
    obtain ⟨target, i⟩ := target
    rw [forall_mem_cons] at hplain
    have append {ts : List Term} (h : Says w₀ output members group n ts (target, i)) :
        Keeps (Undisturbed w₀ members) (do
          return ts ++ (← groupMapping sub ⟨output, members, group, none⟩ (w₀.catalog.table output).id group
            memo n targets)) fun ts ↦ ∀ e ∈ (target, i) :: targets, Says w₀ output members group n ts e :=
      (ih hplain.2).bind fun rest hr ↦ .pure (forall_mem_cons.2 ⟨h.mono (subset_append_left _ _),
        fun e he ↦ (hr e he).mono (subset_append_right _ _)⟩)
    refine (table_again (fun _ hw ↦ hw.tables) _).bind fun t ht ↦ (cell?_undisturbed _ _ _).bind fun out hout ↦ ?_
    subst ht
    cases target with
    | column c => exact (columnMapping_tells c i hpos).bind fun ts hts ↦ append hts
    | computed e =>
      have he : ∀ bare, e.PlainGroup bare n fun i ↦ w₀.Names members i := hplain.1
      refine (inGroup_reads_all (g := ⟨output, members, group, none⟩) hn hpos he).bind fun r hr ↦ ?_
      dsimp only
      split
      · exact append ⟨_, hout, fun I hne hI ↦ (value_of_holds hI).trans (hr I hne).read⟩
      · exact .throw

end Groups

end Mapping

end Expression

/-! ## The result -/

theorem Lies.undisturbed {w v : Workspace} {s : Sheet} (h : Lies w p s) (hv : Undisturbed w place v)
    (hlast : w.lastTable ≤ v.lastTable) : Lies v p s where
  entered := by rw [hv.tables]; exact h.entered
  used := h.used.trans hlast
  shape := by rw [table_congr hv.tables]; exact h.shape
  cells i hi := by rw [hv.cell]; exact h.cells i hi

section Result

variable {v w' : Workspace} {sub : Subquery} {members output out n : Nat} {cut : Option Nat} {k : Int}
  {label : Option String} {T : List Target} {mappings : List (List Term)} {bound : Value}

/-- The terms of the groups say what the cells for the targets hold. -/
abbrev SaysAll (v : Workspace) (output members n : Nat) (T : List Target) (mappings : List (List Term)) : Prop :=
  List.Forall₂ (fun group ts ↦ ∀ e ∈ T.zipIdx, Says v output members group n ts e) (List.range n) mappings

theorem SaysAll.tells (h : SaysAll v output members n T mappings) (hg : g < n) (hi : i < T.length) :
    ∃ ts, mappings[g]? = some ts ∧ Says v output members g n ts (T[i], i) := by
  have hlt : g < mappings.length := by rwa [← h.length_eq, length_range]
  have hget := h.get (by rwa [length_range]) hlt
  simp only [get_eq_getElem, getElem_range] at hget
  refine ⟨_, getElem?_eq_getElem hlt, hget _ ?_⟩
  rw [mk_mem_zipIdx_iff_getElem?]
  exact getElem?_eq_getElem hi

theorem SaysAll.lies (h : SaysAll v output members n T mappings) (hout : output < v.catalog.tables.size)
    (hrows : (v.catalog.table output).rows = .ok n)
    (hcols : (v.catalog.table output).columns.map (·.id) = upTo T.length)
    (hgrouping : v.Grouping (v.catalog.table output).id bound n) :
    Lies v output (Shape.sheet ⟨(v.catalog.table output).id, n, upTo T.length⟩) where
  entered := hout
  used := hgrouping.counted
  shape := Shape.ofTable_ok_iff.2 ⟨rfl, hrows, hcols⟩
  cells g hg := by
    refine forall₂_map_right_iff.2 (forall₂_same.2 fun c hc ↦ ?_)
    obtain ⟨i, hi, rfl⟩ := mem_map.1 hc
    obtain ⟨ts, -, x, hx, -⟩ := h.tells hg (mem_range.1 hi)
    rw [hgrouping.cell_eq hg hx] at hx
    exact hx

theorem SaysAll.entry (h : SaysAll v output members n T mappings)
    (hgrouping : v.Grouping (v.catalog.table output).id bound n)
    (hI : ∀ t ∈ groupCases (v.catalog.table output).id n mappings, I.Holds t) (hg : g < n)
    (hkept : I.choice (v.catalog.table output).id (n + g : Nat) = 1)
    (hne : I.groupRows v ⟨output, members, g, none⟩ n ≠ []) :
    I.entry (Shape.sheet ⟨(v.catalog.table output).id, n, upTo T.length⟩) g =
      T.map (·.valueIn v I members (I.groupRows v ⟨output, members, g, none⟩ n)) := by
  rw [I.entry_sheet]
  refine ext_getElem (by simp [record]) fun i hi hi' ↦ ?_
  rw [length_map] at hi'
  obtain ⟨ts, hts, x, hx, hvalue⟩ := h.tells hg hi'
  have hcase : I.Holds (groupCase (v.catalog.table output).id n g ts) := by
    refine hI _ (mem_map.2 ⟨(ts, g), ?_, rfl⟩)
    rw [mk_mem_zipIdx_iff_getElem?]
    exact hts
  simp only [groupCase, holds_implies, holds_kept, holds_and, forall_mem_cons] at hcase
  have hvalue := hvalue I hne (hcase hkept).1
  rw [hgrouping.cell_eq hg hx] at hvalue
  rw [getElem_map, ← hvalue]
  simp [record, upTo, value]

/-- A grouping is ready to be projected: its table has its columns, and the smaller table, if there is one, lies in the
database. -/
structure Projectable (v : Workspace) (members output n : Nat) (bound : Value) (width : Nat) (cut : Option Nat)
    (k : Int) : Prop where
  entered : output < v.catalog.tables.size
  members : (v.catalog.table members).rows = .ok n
  rows : (v.catalog.table output).rows = .ok n
  columns : (v.catalog.table output).columns.map (·.id) = upTo width
  grouping : v.Grouping (v.catalog.table output).id bound n
  cut : ∀ c, cut = some c → ∃ t : Shape, Lies v c t.sheet ∧ t.columns = upTo width ∧ t.rows = k.toNat

/-- After groups were projected, the rows of the result that are there are the groups that are kept. They hold the
values of the targets. -/
theorem projectGroups_entries {depth : Nat} (h : Projectable v members output n bound T.length cut k)
    (hplain : ∀ t ∈ T, t.Plain v members n)
    (hg : Gives (projectGroups (Query.nested depth) members output cut (.int k) label T.zipIdx) v out w') :
    ∃ O : Shape, Lies w' out O.sheet ∧ ∀ I : Interpretation, (∀ f ∈ w'.formulas.entries, I.Holds f.term) →
      (∀ g < n, I.choice (v.catalog.table output).id (n + g : Nat) = (!I.deleted (v.catalog.table output).id g).toInt) →
      (∀ g < n, I.deleted (v.catalog.table output).id g = false → I.groupRows v ⟨output, members, g, none⟩ n ≠ []) →
      I.entries O.sheet = ((List.range n).filter fun (g : Nat) ↦ !I.deleted (v.catalog.table output).id g).map
        fun g ↦ T.map (·.valueIn v I members (I.groupRows v ⟨output, members, g, none⟩ n)) := by
  simp only [projectGroups, bind_iff, table_gives, newReader_gives_iff, lift_iff] at hg
  obtain ⟨_, _, ⟨rfl, rfl⟩, _, _, ⟨rfl, rfl⟩, _, _, ⟨rfl, rfl⟩, m, _, ⟨hm, rfl⟩, start, _, ⟨hstart, rfl⟩, mappings, u,
    hmappings, hsettle⟩ := hg
  obtain rfl : m = n := Except.ok.inj (hm.symm.trans h.members)
  obtain rfl : start = m := Except.ok.inj (hstart.symm.trans h.rows)
  have hchain := (Keeps.each (fun (group : Nat) _ ↦ groupMapping_keeps (N := Node.Everywhere _) passage.quiet
    Node.everywhere_hereditary (route.nested depth _) ⟨output, members, group, none⟩ (fun _ h ↦ nomatch h) _ _ _ _
    fun e _ _ ↦ Node.everywhere_true e) (passage.quiet.nextReader _ (refl v)) hmappings).1
  have hv : Undisturbed v members { v with nextReader := v.nextReader + 1 } := ⟨rfl, fun _ _ h ↦ h, rfl, fun _ ↦ rfl⟩
  obtain ⟨hu, hsays⟩ : Undisturbed v members u ∧ SaysAll v output members start T mappings := by
    refine Keeps.mapM_forall₂ (fun group hgroup ↦ ?_) hv hmappings
    have hpos : 0 < start := (Nat.zero_le _).trans_lt (mem_range.1 hgroup)
    exact groupMapping_tells h.members hpos _ fun e he ↦ hplain _ (fst_mem_of_mem_zipIdx he)
  have hlies := hsays.lies h.entered h.rows h.columns h.grouping
  obtain ⟨out', O, ts, hgives, hO, hholds⟩ := settle_gives (w := u) label _ _ _ _
    (hlies.undisturbed hu hchain.last_le) rfl fun c hc ↦ by
      obtain ⟨t, ht, htcols, htrows⟩ := h.cut c hc
      exact ⟨t, ht.undisturbed hu hchain.last_le, htcols, htrows⟩
  obtain ⟨rfl, rfl⟩ := hsettle.unique hgives
  refine ⟨O, ⟨hO.entered, hO.used, hO.shape, hO.cells⟩, fun I hI hchosen hnonempty ↦ ?_⟩
  obtain ⟨hcases, hentries⟩ := hholds I (holds_of_add hI).1
  have hone {g : Nat} (hg : g < start) : I.choice (v.catalog.table output).id (start + g : Nat) = 1 ↔
      I.deleted (v.catalog.table output).id g = false := by
    rw [hchosen g hg]
    cases I.deleted (v.catalog.table output).id g <;> simp
  rw [hentries ⟨fun g hg ↦ ?_, fun g hg ↦ (I.holds_kept _ _).trans (hone hg)⟩]
  · refine map_congr_left fun g hg ↦ ?_
    obtain ⟨hlt, hthere⟩ := mem_filter.1 hg
    have hlt : g < start := mem_range.1 hlt
    have hthere : (!I.deleted (v.catalog.table output).id g) = true := hthere
    have hthere : I.deleted (v.catalog.table output).id g = false := by simpa using hthere
    exact hsays.entry h.grouping (fun t ht ↦ hcases t (mem_append_left _ ht)) hlt ((hone hlt).2 hthere)
      (hnonempty g hlt hthere)
  · rw [I.eval_choice, hchosen g hg]
    cases I.deleted (v.catalog.table output).id g <;> rfl

end Result

/-! ## Groups and their rows -/

namespace Interpretation

section Kinds

variable (I : Interpretation) (input : Int) (keys : GroupBy.Keys)

/-- The rows that are there and have the same keys as a row, in order. -/
def rowsAlike (row : Nat) : List Nat :=
  (List.range keys.length).filter fun (e : Nat) ↦
    !I.deleted input e && decide (I.keyRecord keys e = I.keyRecord keys row)

/-- The groups that a condition is true of, in order. A group is named by its first row. -/
def keptGroups (having : List Reading) : List Nat :=
  (List.range keys.length).filter fun g ↦
    decide ((I.rowsAlike input keys g).head? = some g) && (having[g]?).any fun h ↦ decide (Sql.IsTrue (I.read h))

variable {I input keys}

theorem mem_rowsAlike {e row : Nat} : e ∈ I.rowsAlike input keys row ↔ e ∈ I.alike input keys row := by
  simp [rowsAlike, alike]

theorem head?_rowsAlike : (I.rowsAlike input keys g).head? = some g ↔ I.IsFirst input keys g := by
  rw [rowsAlike, head?_filter, List.find?_range_eq_some]
  constructor
  · rintro ⟨hg, hlt, hnone⟩
    refine ⟨mem_rowsAlike.1 (mem_filter.2 ⟨hlt, hg⟩), fun e he ↦ ?_⟩
    by_contra hlt
    have hnone := hnone e (by omega)
    rw [(mem_filter.1 (mem_rowsAlike.2 he)).2] at hnone
    cases hnone
  · rintro ⟨hg, hleast⟩
    obtain ⟨hlt, hg⟩ := mem_filter.1 (mem_rowsAlike.2 hg)
    refine ⟨hg, hlt, fun e he ↦ ?_⟩
    by_contra hne
    have halike : e ∈ I.alike input keys g :=
      mem_rowsAlike.1 (mem_filter.2 ⟨mem_range.2 (he.trans (mem_range.1 hlt)), by simpa using hne⟩)
    exact absurd (hleast halike) (by omega)

variable {output : Int} {having : List Reading}

theorem Grouped.filter_grouping (h : I.Grouped input output keys having) (hg : I.IsFirst input keys g) :
    (List.range keys.length).filter (fun (t : Nat) ↦ I.grouping output t g) = I.rowsAlike input keys g := by
  refine filter_congr fun t ht ↦ ?_
  rw [Bool.eq_iff_iff, h.member t (mem_range.1 ht) g hg.1.1, Bool.and_eq_true, Bool.not_eq_true', decide_eq_true_eq]
  refine and_congr_right fun _ ↦ ⟨fun hleast ↦ hleast.1.2.2.symm, fun hkeys ↦ ?_⟩
  have hkinds : I.alike input keys t = I.alike input keys g := by rw [alike, alike, hkeys]
  rw [hkinds]
  exact hg

theorem Grouped.filter_deleted (h : I.Grouped input output keys having) (hlen : having.length = keys.length) :
    (List.range keys.length).filter (fun (g : Nat) ↦ !I.deleted output g) = I.keptGroups input keys having := by
  refine filter_congr fun g hg ↦ ?_
  have hg : g < having.length := hlen ▸ mem_range.1 hg
  have hkept := h.kept g _ (getElem?_eq_getElem hg)
  rw [getElem?_eq_getElem hg, Bool.eq_iff_iff]
  simp [hkept, head?_rowsAlike]

end Kinds

end Interpretation

/-! ## Grouping and projecting -/

section Queries

variable {w₀ w₁ w₂ : Workspace} {input groups out tag depth : Nat} {label : Option String} {keys : List Node}
  {having : Node} {targets : Option (List Node)} {ts : List Node} {k : Int}

/-- A projection of a grouping goes on with a copy of its table, and reads the rows from a copy of the table that was
grouped. -/
theorem groupBy_projectable {v₀ : Workspace} {n : Nat} (hin : input < w₀.catalog.tables.size) (hkept : Kept w₀)
    (hreg : Registered w₀) (hn : (w₀.catalog.table input).rows = .ok n)
    (hplaced : Added w₀ groups (groupedTable w₀ input label keys) v₀) (hw₁ : Chain v₀ w₁)
    (hproject : Gives (apply (Query.nested depth) groups tag ts (.int k)) w₁ out w₂) :
    Chain w₁ w₂ ∧ ∃ columns cut l v,
      (∃ u, Gives (readTargets ((w₁.catalog.copy groups).2.table (w₁.catalog.tables.size + 1)) ts)
        { w₁ with catalog := (w₁.catalog.copy groups).2 } columns u) ∧
      Gives (projectGroups (Query.nested depth) (w₁.catalog.tables.size + 1) w₁.catalog.tables.size cut (.int k)
        l (columns.map (·.2.1)).zipIdx) v out w₂ ∧
      (v.catalog.table (w₁.catalog.tables.size + 1)).id = (w₀.catalog.table input).id ∧
      (v.catalog.table w₁.catalog.tables.size).id = w₀.lastTable + 1 ∧
      Projectable v (w₁.catalog.tables.size + 1) w₁.catalog.tables.size n (w₀.catalog.table input).bound
        (columns.map (·.2.1)).length cut k := by
  have hkin := (hw₁.kin hplaced.entered).1
  rw [hplaced.table] at hkin
  obtain ⟨hgrouped, hg⟩ | ⟨hgrouped, -⟩ := project_cases hproject
  swap
  · have hword := hkin.begins (groupedTable_begins ..)
    rw [(hword.of_prefix).mentions] at hgrouped
    cases hgrouped
  refine ⟨?_, ?_⟩
  · obtain ⟨_, _, _, _, _, _, next, clauses, c, _, _, -, -, -, -, -, happlied⟩ :=
      applyToGroups_applied passage.walk (route.nested depth)
        (fun source ↦ Node.innate_true.readsAs (fun t _ ↦ t.everywhere_true) source _) hgrouped hg
    exact (passage.noting (.refl w₁) next (put tag c clauses)).trans (happlied.chain passage.walk)
  obtain ⟨members, columns, as, origin, next, clauses, c, v₁, cut, v₂, hmembers, hread, -, -, hmade, hsize, hother, hgives,
    hcut, hg⟩ := applyToGroups_gives hgrouped hg
  have hcut := hcut.chain
  have hv₁ : Chain w₁ v₁ := (passage.noting (.refl w₁) next (put tag c clauses)).trans hmade.chain
  obtain ⟨hancestors, hlt, hlike⟩ := copy_ancestor w₁.catalog (hplaced.entered.trans_le hw₁.size_le)
    (hin.trans_le (hplaced.chain.trans hw₁).size_le) (hin.trans_le hplaced.new).ne' hkin.ancestors
  obtain rfl : members = w₁.catalog.tables.size + 1 := by
    rw [Project.groupedTable, hancestors] at hmembers
    exact (pure_iff.1 hmembers).1
  have hids : ((w₁.catalog.table groups).columns ++ columns.map (·.1)).map (·.id) =
      upTo (columns.map (·.2.1)).length := by
    have hnone : (w₁.catalog.table groups).columns = [] := map_eq_nil_iff.1 hkin.columns
    rw [hnone, nil_append, (readTargets_gives hread).2, length_map, length_map]
  have hcutLies : ∀ c, cut = some c → ∃ t : Shape, Lies v₂ c t.sheet ∧
      t.columns = upTo (columns.map (·.2.1)).length ∧ t.rows = k.toNat := by
    split at hgives
    · obtain ⟨rfl, rfl⟩ := pure_iff.1 hgives
      simp
    · refine cutDown_lies hgives (by rw [hmade.table]; exact hids) ?_
      exact (((hplaced.chain.trans hw₁).trans hv₁).registered hkept hreg).free
  have hinput := ((hplaced.chain.trans hw₁).kin hin).1
  have hcopy := (hcut.kin (hsize ▸ hlt)).1
  rw [hother _ (Nat.succ_ne_self _)] at hcopy
  have hout := (hcut.kin hmade.entered).1
  rw [hmade.table] at hout
  have hid : (v₂.catalog.table w₁.catalog.tables.size).id = w₀.lastTable + 1 := hout.id.trans hkin.id
  have hbound {t : Table} (ht : t.bound = (w₀.catalog.table input).bound) : t.rows = .ok n := by
    rw [← hn, Table.rows, Table.rows, ht]
  obtain ⟨_, hlike⟩ := hlike
  rw [hlike] at hcopy
  refine ⟨columns, cut, _, v₂, ⟨_, hread⟩, hg, hcopy.id.trans hinput.id, hid,
    { entered := hmade.entered.trans_le hcut.size_le
      members := hbound (hcopy.bound.trans hinput.bound)
      rows := hbound (hout.bound.trans hkin.bound)
      columns := hout.columns.trans hids
      grouping := ?_
      cut := hcutLies }⟩
  rw [hid]
  exact ((hw₁.trans hv₁).trans hcut).grouping (hplaced.chain.kept hkept) (fun _ ↦ hbound)
    (.start hreg hplaced)

/-- A target that is a column, or a count of everything. -/
def Operator.Target.columnOrCount : Target → Bool
  | .column _ => true
  | .computed (.expression (.str name) [flag, e] _) => name == "count" && !flag.truthy && GroupOfRows.isStar e
  | .computed _ => false

theorem Operator.Target.plain_of_columnOrCount {t : Target} (h : t.columnOrCount = true) (v : Workspace)
    (place n : Nat) : t.Plain v place n := by
  unfold columnOrCount at h
  split at h
  · trivial
  · simp only [Bool.and_eq_true, beq_iff_eq, Bool.not_eq_true'] at h
    obtain ⟨⟨rfl, hflag⟩, he⟩ := h
    intro bare
    rw [Node.PlainGroup, if_pos (by decide)]
    exact .inl ⟨rfl, hflag, he⟩
  · cases h

/-- `COUNT(*)` -/
def countAll : Node := .expression (.str "count") [.raw (.bool false), .attr "*"] .null

theorem pairedTable_registered : Registered pairedTable where
  counted p _ := by cases p <;> exact le_refl _
  free id hid := by
    have hne : (id == 0) = false := by
      rw [beq_eq_false_iff_ne]
      exact ne_of_gt hid
    rw [Database.rowsOf, pairedTable, List.lookup, hne]
    rfl
  nodup := by decide
  known := by decide
  bare p hp := by
    obtain ⟨s, hs, -⟩ := hp
    cases p <;> cases hs

theorem Gives.all {α : Type} {x : Encoding α} {w w' : Workspace} {a : α} (h : Gives x w a w') {p : α → Bool}
    (hp : (exec x w).1.toOption.all p = true) : p a = true := by
  have h : exec x w = (.ok a, w') := h
  rw [h] at hp
  exact hp

/-- The two rows, grouped by one column, with a condition on the other. -/
def pairedGroups : Workspace :=
  (exec (GroupBy.apply (Query.nested 3) 0 (some "q") [.attr "a"] countsSeveral (some [.attr "a"])) pairedTable).2

end Queries

end QueryEquiv
