import QueryEquiv.Proofs.Agreement
import QueryEquiv.Proofs.GroupValues

/-!
# Groups of one row

An expression without aggregates and subqueries that is read in a group of a single row agrees with the
same expression read at the row, if no default is null where its value is not: a value with a default is
null at a row if both are, but in a group if the default is (`inGroup_agrees`).

In a group a column is read at all rows of the table, and the first of them that lies in the group is
chosen. Names are looked up over and over on the way, so what is shown first is that look-ups that fail go
on to fail, as well as that names are found again.
-/

namespace QueryEquiv

open Query Catalog Gives List Workspace Expression GroupOfRows Except
open Interpretation (same_respected)

/-! ## Look-ups that are repeated -/

/-- A workspace in which every look-up in a table comes to what it does in another. -/
structure Unaltered (w₀ : Workspace) (place : Nat) (w : Workspace) : Prop where
  tables : w.catalog.tables = w₀.catalog.tables
  answer : ∀ s, w.catalog.answer place s = w₀.catalog.answer place s
  cell : w.database.cell = w₀.database.cell
  code : ∀ s, (w.codes.encode s).1 = (w₀.codes.encode s).1

theorem Unaltered.refl (w : Workspace) (place : Nat) : Unaltered w place w :=
  ⟨rfl, fun _ ↦ rfl, rfl, fun _ ↦ rfl⟩

theorem Unaltered.lookup {w₀ w : Workspace} {place : Nat} {s : String} {col : Column} {d : Catalog}
    (hw : Unaltered w₀ place w) (h : w.catalog.lookup place (.str s) = .ok (col, d)) :
    w₀.catalog.answer place s = .ok col ∧ Unaltered w₀ place { w with catalog := d } := by
  refine ⟨?_, (lookup_tables h).trans hw.tables, fun s' ↦ ?_, hw.cell, hw.code⟩
  · rw [← hw.answer, Catalog.answer, h]
    rfl
  · exact (answer_again h s').trans (hw.answer s')

theorem Unaltered.touch {w₀ w : Workspace} {place : Nat} (hw : Unaltered w₀ place w) (t : Int) :
    Unaltered w₀ place { w with database := w.database.touch t } :=
  ⟨hw.tables, hw.answer, (Database.cell_touch _ t).trans hw.cell, hw.code⟩

theorem Table.atPosition_error {α : Type} {xs : List α} {i : Int} {e : Fault}
    (h : atPosition xs i = .error e) : e = .outOfRange := by
  unfold atPosition at h
  extract_lets j at h
  split at h
  · exact (error.inj h).symm
  · split at h
    · cases h
    · exact (error.inj h).symm

/-- A cell that is missing is no name that is missing. -/
theorem Database.cell_ne_unresolved (db : Database) (t r c : Int) (m : String) :
    db.cell t r c ≠ .error (.unresolved m) := by
  intro h
  unfold cell at h
  split at h
  · split at h
    · cases h
    · rename_i he
      split at h <;> cases h
      cases Table.atPosition_error he
  · rename_i he
    split at h <;> cases h
    cases Table.atPosition_error he

namespace Expression

variable {w₀ w w' : Workspace} {place : Nat} {row : Int} {s : String}

/-- The cell of a table at a row that a name answers to. -/
def IsCell (w : Workspace) (place : Nat) (row : Int) (s : String) (x : Cell) : Prop :=
  ∃ col, w.catalog.answer place s = .ok col ∧
    w.database.cell (w.catalog.table place).id row col.id = .ok (some x)

theorem IsCell.unique {x y : Cell} (hx : IsCell w place row s x) (hy : IsCell w place row s y) : x = y := by
  obtain ⟨col, hcol, hx⟩ := hx
  obtain ⟨col', hcol', hy⟩ := hy
  obtain rfl := ok.inj (hcol.symm.trans hcol')
  exact Option.some.inj (ok.inj (hx.symm.trans hy))

theorem cellReading_unaltered : Keeps (Unaltered w₀ place) (cellReading place row (.str s)) fun a ↦
    ∃ x, IsCell w₀ place row s x ∧ a = (x.val, x.isNull) := by
  intro w a w' hw hg
  obtain ⟨col, d, x, hlookup, hcell, rfl, rfl⟩ := cellReading_gives_iff.1 hg
  obtain ⟨hanswer, hw'⟩ := hw.lookup hlookup
  rw [hw.cell, table_congr hw.tables] at hcell
  exact ⟨hw'.touch _, x, ⟨col, hanswer, hcell⟩, rfl⟩

/-- A look-up that fails leaves everything as it was. -/
theorem exec_column_of_error {name : Value} {e : Fault} (h : w.catalog.lookup place name = .error e) :
    exec (column place name) w = (.error e, w) := by
  unfold column
  rw [exec_bind, exec_get]
  dsimp only
  rw [exec_bind, exec_lift, h]

theorem exec_cell_ne_unresolved {t r c : Int} {e : Fault} (h : exec (cell t r c) w = (.error e, w')) (m : String) :
    e ≠ .unresolved m := by
  rintro rfl
  have hcell? : exec (cell? t r c) w =
      ((w.database.touch t).cell t r c, { w with database := w.database.touch t }) := rfl
  unfold cell at h
  rw [exec_bind, hcell?] at h
  rcases hx : (w.database.touch t).cell t r c with e | _ | x <;> rw [hx] at h
  · obtain rfl : e = .unresolved m := error.inj (Prod.mk.inj h).1
    exact Database.cell_ne_unresolved _ _ _ _ _ hx
  · cases h
  · cases h

/-- A column is not there if looking it up fails, never if its cell is missing. -/
theorem exec_cellReading_unresolved {m : String}
    (h : exec (cellReading place row (.str s)) w = (.error (.unresolved m), w')) :
    w.catalog.answer place s = .error (.unresolved m) ∧ w' = w := by
  unfold cellReading at h
  rw [exec_bind] at h
  cases hl : w.catalog.lookup place (.str s) with
  | error e =>
    rw [exec_column_of_error hl] at h
    cases h
    exact ⟨by rw [answer, hl]; rfl, rfl⟩
  | ok found =>
    have hcol : exec (column place (.str s)) w = (.ok found.1, { w with catalog := found.2 }) :=
      column_gives_iff.2 ⟨found.2, hl, rfl⟩
    rw [hcol] at h
    dsimp only at h
    rw [exec_bind, show exec (table place) { w with catalog := found.2 } = (.ok _, _) from rfl] at h
    dsimp only at h
    rw [exec_bind] at h
    rcases hx : exec (cell _ _ _) _ with ⟨e | x, u⟩ <;> rw [hx] at h
    · cases h
      exact absurd rfl (exec_cell_ne_unresolved hx m)
    · cases h

/-- At a row a name is found, or it is none of the table's columns. -/
theorem cellReading?_unaltered : Keeps (Unaltered w₀ place) (cellReading? place row (.str s)) fun o ↦
    (∃ x, IsCell w₀ place row s x ∧ o = some (x.val, x.isNull)) ∨
      (∃ m, w₀.catalog.answer place s = .error (.unresolved m)) ∧ o = none := by
  intro w o w' hw hg
  obtain hg | ⟨e, v, he, hg⟩ := tryCatch_cases hg
  · obtain ⟨a, u, ha, hg⟩ := bind_iff.1 hg
    obtain ⟨rfl, rfl⟩ := pure_iff.1 hg
    obtain ⟨hu, x, hx, rfl⟩ := cellReading_unaltered hw ha
    exact ⟨hu, .inl ⟨x, hx, rfl⟩⟩
  · rw [exec_bind] at he
    rcases hx : exec (cellReading place row (.str s)) w with ⟨f | a, u⟩ <;> rw [hx] at he <;> cases he
    cases e with
    | unresolved m =>
      obtain ⟨rfl, rfl⟩ := pure_iff.1 hg
      obtain ⟨hanswer, rfl⟩ := exec_cellReading_unresolved hx
      exact ⟨hw, .inr ⟨⟨m, (hw.answer s).symm.trans hanswer⟩, rfl⟩⟩
    | _ => exact absurd hg not_throw

/-- In a group a name is found, or it is none of the table's columns and is looked for among the targets. -/
theorem aliased_cases {g : GroupOfRows} {o : Option Node} (hw : Unaltered w₀ g.members w)
    (h : Gives (g.aliased? (.str s)) w o w') :
    ((∃ col, w₀.catalog.answer g.members s = .ok col) ∧ o = none ∧ Unaltered w₀ g.members w') ∨
      (∃ m, w₀.catalog.answer g.members s = .error (.unresolved m)) ∧
        ∃ ts, g.targets = some ts ∧ Gives (targetNamed (.str s) ts) w o w' := by
  obtain ⟨known, u, hknown, htail⟩ := bind_iff.1 h
  obtain hknown | ⟨e, v, he, hknown⟩ := tryCatch_cases hknown
  · obtain ⟨col, v, hcol, hknown⟩ := bind_iff.1 hknown
    obtain ⟨rfl, rfl⟩ := pure_iff.1 hknown
    obtain ⟨d, hd, rfl⟩ := column_gives_iff.1 hcol
    obtain ⟨hanswer, hu⟩ := hw.lookup hd
    obtain ⟨rfl, rfl⟩ := pure_iff.1 htail
    exact .inl ⟨⟨col, hanswer⟩, rfl, hu⟩
  · rw [exec_bind] at he
    cases hl : w.catalog.lookup g.members (.str s) with
    | ok found =>
      have hcol : exec (column g.members (.str s)) w = (.ok found.1, { w with catalog := found.2 }) :=
        column_gives_iff.2 ⟨found.2, hl, rfl⟩
      rw [hcol] at he
      cases he
    | error f =>
      rw [exec_column_of_error hl] at he
      cases he
      cases e with
      | unresolved m =>
        obtain ⟨rfl, rfl⟩ := pure_iff.1 hknown
        refine .inr ⟨⟨m, ?_⟩, ?_⟩
        · rw [← hw.answer, answer, hl]
          rfl
        · rw [if_neg (by decide)] at htail
          split at htail
          · exact absurd htail not_throw
          · exact ⟨_, by assumption, htail⟩
      | _ => exact absurd hknown not_throw

/-- Which target has a name does not depend on where it is asked. -/
theorem targetNamed_pairs {P : Workspace → Prop} (name : Value) (ts : List Node) :
    Pairs P (targetNamed name ts) (targetNamed name ts) fun o o' ↦ o' = o ∧ ∀ t, o = some t → t ∈ ts := by
  induction ts with
  | nil => exact .pure ⟨rfl, fun _ h ↦ nomatch h⟩
  | cons t ts ih =>
    have halias : Pairs P (aliasOf t) (aliasOf t) Eq := by
      cases t <;> first | exact .pure rfl | exact .throw_left
    refine halias.bind fun a _ ha ↦ ?_
    subst ha
    split
    · exact .pure ⟨rfl, fun u hu ↦ Option.some.inj hu ▸ mem_cons_self⟩
    · intro v o v' w o' w' hv hw ho ho'
      obtain ⟨hP, heq, hmem⟩ := ih hv hw ho ho'
      exact ⟨hP, heq, fun u hu ↦ mem_cons_of_mem _ (hmem u hu)⟩

/-- A constant is coded alike at any time. Times have no reading in a group. -/
theorem constant_pairs {I : Interpretation} (v : Value) :
    Pairs (Unaltered w₀ place) (constant true v) (constant false v) I.Agree := by
  cases v with
  | null => exact .pure same_respected.missing
  | bool b => exact .pure (same_respected.certain ⟨rfl, rfl, rfl⟩)
  | int n => exact .pure (same_respected.certain (same_respected.int _))
  | float x => exact .pure (same_respected.certain (same_respected.int _))
  | str s =>
    have hcode := code_again (P := Unaltered w₀ place) (fun _ hw ↦ hw.code)
      (fun _ _ hw hcode ↦ ⟨hw.tables, hw.answer, hw.cell, hcode⟩) s
    refine (hcode.pairs hcode).bind fun m n hmn ↦ .pure (same_respected.certain ⟨rfl, rfl, ?_⟩)
    rw [hmn.1, hmn.2]
  | date d => exact .pure (same_respected.certain (same_respected.int _))
  | time t => exact .throw_right
  | list _ => exact .throw_left
  | object _ => exact .throw_left
  | inline _ _ _ => exact .throw_left

end Expression

/-! ## The row of a group -/

namespace Interpretation

variable {I : Interpretation} {x : Cell} {c d : Contribution} {cs : List Contribution}

/-- A row brings a cell if it lies in the group. -/
structure Brings (I : Interpretation) (x : Cell) (c : Contribution) : Prop where
  proper : c.val.isPlain = false ∧ c.null.kind = .ok (some .truth)
  value : I.Holds c.flag → I.eval c.val = I.eval x.val
  null : I.Holds c.flag → (I.Holds c.null ↔ I.Holds x.isNull)

theorem holds_flag_firstIn : I.Holds (firstIn c d).flag ↔ I.Holds c.flag ∨ I.Holds d.flag := by
  simp [firstIn]

theorem Brings.firstIn (hc : I.Brings x c) (hd : I.Brings x d) : I.Brings x (firstIn c d) := by
  have hsecond (h : I.Holds (GroupOfRows.firstIn c d).flag) (hcf : ¬ I.Holds c.flag) : I.Holds d.flag :=
    (holds_flag_firstIn.1 h).resolve_left hcf
  refine ⟨⟨rfl, ?_⟩, fun h ↦ ?_, fun h ↦ ?_⟩
  · simp [GroupOfRows.firstIn, Term.kind, hc.proper.2, hd.proper.2, bind, Except.bind, pure, Except.pure]
  · by_cases hcf : I.Holds c.flag
    · simp [GroupOfRows.firstIn, hcf, hc.value hcf]
    · simp [GroupOfRows.firstIn, hcf, hsecond h hcf, hd.value (hsecond h hcf)]
  · by_cases hcf : I.Holds c.flag
    · simp [GroupOfRows.firstIn, hcf, hc.null hcf]
    · simp [GroupOfRows.firstIn, hcf, hsecond h hcf, hd.null (hsecond h hcf)]

theorem Brings.foldl_firstIn (hc : I.Brings x c) (hcs : ∀ d ∈ cs, I.Brings x d) :
    I.Brings x (cs.foldl GroupOfRows.firstIn c) ∧
      (I.Holds (cs.foldl GroupOfRows.firstIn c).flag ↔ ∃ d ∈ c :: cs, I.Holds d.flag) := by
  induction cs generalizing c with
  | nil => exact ⟨hc, by simp⟩
  | cons d cs ih =>
    rw [forall_mem_cons] at hcs
    obtain ⟨hbrings, hflag⟩ := ih (hc.firstIn hcs.1) hcs.2
    refine ⟨hbrings, hflag.trans ?_⟩
    simp [holds_flag_firstIn, or_assoc]

end Interpretation

namespace Expression

variable {I : Interpretation} {w₀ w w' : Workspace} {g : GroupOfRows} {n t : Nat} {s : String}

/-- What rows contribute to a column: their cells, with the conditions that they lie in the group. -/
def AreCells (w : Workspace) (g : GroupOfRows) (s : String) : List Contribution → List Nat → Prop :=
  List.Forall₂ fun c i ↦ ∃ x, IsCell w g.members i s x ∧
    c = ⟨x.val, x.isNull, .grouping (w.catalog.table g.groups).id i g.group⟩

theorem columnCells_unaltered (rows : List Nat) :
    Keeps (Unaltered w₀ g.members) (g.columnCells (.str s) rows) (AreCells w₀ g s · rows) := by
  induction rows with
  | nil => exact .pure .nil
  | cons row rows ih =>
    rw [columnCells_cons]
    refine (contains_again (fun _ hw ↦ hw.tables) g row).bind fun flag hflag ↦ cellReading_unaltered.bind fun a ⟨x, hx, ha⟩ ↦
      ih.bind fun cs hcs ↦ .pure (.cons ⟨x, hx, ?_⟩ hcs)
    rw [ha, hflag]

/-- Of the cells of a column, that of the only row in the group is chosen. -/
theorem agree_foldl_firstIn (hone : I.groupRows w₀ g n = [t]) {x : Cell} (hx : IsCell w₀ g.members t s x)
    {c : Contribution} {cs : List Contribution} (h : AreCells w₀ g s (c :: cs) (List.range n)) :
    I.Agree (x.val, x.isNull) ((cs.foldl GroupOfRows.firstIn c).val, (cs.foldl GroupOfRows.firstIn c).null) := by
  have hrow (i : Nat) : i < n ∧ I.grouping (w₀.catalog.table g.groups).id i g.group = true ↔ i = t := by
    have hmem : i ∈ I.groupRows w₀ g n ↔ i ∈ [t] := by rw [hone]
    simpa [Interpretation.groupRows] using hmem
  have hlen : (c :: cs).length = n := by rw [Forall₂.length_eq h, length_range]
  have hcell (i : Nat) (hi : i < (c :: cs).length) : ∃ x, IsCell w₀ g.members i s x ∧
      (c :: cs)[i] = ⟨x.val, x.isNull, .grouping (w₀.catalog.table g.groups).id i g.group⟩ := by
    simpa using Forall₂.get h hi (by rw [length_range]; omega)
  have hbrings : ∀ d ∈ c :: cs, I.Brings x d := by
    intro d hd
    obtain ⟨i, hi, rfl⟩ := mem_iff_getElem.1 hd
    obtain ⟨y, hy, heq⟩ := hcell i hi
    have hsame (hflag : I.Holds (c :: cs)[i].flag) : y = x := by
      rw [heq, I.holds_grouping] at hflag
      obtain rfl := (hrow i).1 ⟨by omega, hflag⟩
      exact hy.unique hx
    refine ⟨?_, fun hflag ↦ ?_, fun hflag ↦ ?_⟩
    · rw [heq]
      exact ⟨rfl, rfl⟩
    · rw [heq, hsame hflag]
    · rw [heq, hsame hflag]
  have hin : ∃ d ∈ c :: cs, I.Holds d.flag := by
    obtain ⟨ht, hgroup⟩ := (hrow t).2 rfl
    have hlt : t < (c :: cs).length := by omega
    obtain ⟨y, -, heq⟩ := hcell t hlt
    refine ⟨_, getElem_mem hlt, ?_⟩
    rwa [heq, I.holds_grouping]
  obtain ⟨hfold, hflag⟩ := (hbrings c mem_cons_self).foldl_firstIn fun d hd ↦ hbrings d (mem_cons_of_mem _ hd)
  have hflag := hflag.2 hin
  exact ⟨⟨rfl, hfold.proper.1, (hfold.value hflag).symm⟩, ⟨rfl, hfold.proper.2, (hfold.null hflag).symm⟩⟩

variable {sub : Subquery} {memo depth : Nat}

/-- A column is read in a group by its cells, or the target of its name is read. -/
theorem groupColumn_cases (hn : (w₀.catalog.table g.members).rows = .ok n) (hpos : 0 < n)
    (hw : Unaltered w₀ g.members w) {q : Reading}
    (h : Gives ((g.reader sub memo (depth + 1)).column (.str s)) w q w') :
    (∃ c cs, AreCells w₀ g s (c :: cs) (List.range n) ∧ Unaltered w₀ g.members w' ∧
      q = ((cs.foldl firstIn c).val, (cs.foldl firstIn c).null)) ∨
    (∃ m, w₀.catalog.answer g.members s = .error (.unresolved m)) ∧
      ∃ ts e u, g.targets = some ts ∧ Gives (targetNamed (.str s) ts) w (some e) u ∧
        Gives (encode (g.reader sub memo depth) e) u q w' := by
  obtain ⟨tb, _, htb, h⟩ := bind_iff.1 h
  obtain ⟨rfl, rfl⟩ := table_gives.1 htb
  obtain ⟨m, _, hm, h⟩ := bind_iff.1 h
  obtain ⟨hm, rfl⟩ := lift_iff.1 hm
  rw [table_congr hw.tables, hn] at hm
  obtain rfl := ok.inj hm
  rw [if_neg (by simp [List.isEmpty_iff]; omega)] at h
  obtain ⟨target, u, htarget, h⟩ := bind_iff.1 h
  have hcells (hu : Unaltered w₀ g.members u) (htarget : target = none) :
      ∃ c cs, AreCells w₀ g s (c :: cs) (List.range n) ∧ Unaltered w₀ g.members w' ∧
        q = ((cs.foldl firstIn c).val, (cs.foldl firstIn c).null) := by
    subst htarget
    obtain ⟨cs, v, hcs, h⟩ := bind_iff.1 h
    obtain ⟨hv, hcells⟩ := columnCells_unaltered _ hu hcs
    cases cs with
    | nil => exact absurd h not_throw
    | cons c cs =>
      obtain ⟨rfl, rfl⟩ := pure_iff.1 h
      exact ⟨c, cs, hcells, hv, rfl⟩
  obtain ⟨-, hnone, hu⟩ | ⟨hm, ts, hts, hnamed⟩ := aliased_cases hw htarget
  · exact .inl (hcells hu hnone)
  · cases target with
    | none => exact .inl (hcells (targetNamed_pairs _ _ hw hw hnamed hnamed).1.1 rfl)
    | some e => exact .inr ⟨hm, ts, e, u, hts, hnamed, h⟩

variable {outer : Option Int} {reader : Nat}

/-- A column is read alike, if the targets are that it may stand for. -/
theorem column_pairs (hn : (w₀.catalog.table g.members).rows = .ok n) (hone : I.groupRows w₀ g n = [t]) {d d' : Nat}
    (htargets : ∀ ts, g.targets = some ts → ∀ e ∈ ts, Pairs (Unaltered w₀ g.members)
      (encode (atRow sub g.members t outer g.targets reader d) e) (encode (g.reader sub memo d') e) I.Agree) :
    Pairs (Unaltered w₀ g.members) ((atRow sub g.members t outer g.targets reader (d + 1)).column (.str s))
      ((g.reader sub memo (d' + 1)).column (.str s)) I.Agree := by
  intro v a v' w q w' hv hw hrow hgroup
  have hpos : 0 < n := by
    have ht : t ∈ I.groupRows w₀ g n := by rw [hone]; exact mem_singleton_self t
    exact Nat.zero_lt_of_lt (mem_range.1 (mem_filter.1 ht).1)
  obtain ⟨o, u, ho, hrow⟩ := bind_iff.1 hrow
  obtain ⟨hu, ⟨x, hx, rfl⟩ | ⟨⟨m, hm⟩, rfl⟩⟩ := cellReading?_unaltered hv ho
  · obtain ⟨rfl, rfl⟩ := pure_iff.1 hrow
    obtain ⟨c, cs, hcs, hw', rfl⟩ | ⟨⟨m, hm⟩, -⟩ := groupColumn_cases hn hpos hw hgroup
    · exact ⟨⟨hu, hw'⟩, agree_foldl_firstIn hone hx hcs⟩
    · obtain ⟨col, hcol, -⟩ := hx
      cases hcol.symm.trans hm
  · obtain ⟨c, cs, hcs, -⟩ | ⟨-, ts, e, u', hts, hnamed, hgroup⟩ := groupColumn_cases hn hpos hw hgroup
    · obtain ⟨y, ⟨col, hcol, -⟩, -⟩ := Forall₂.get hcs (i := 0) (by simp) (by simpa using hpos)
      cases hcol.symm.trans hm
    · dsimp only at hrow
      split at hrow
      · exact absurd hrow not_throw
      · rename_i ts' hts'
        obtain rfl := Option.some.inj (hts.symm.trans hts')
        obtain ⟨o, u'', hnamed', hrow⟩ := bind_iff.1 hrow
        obtain ⟨⟨hu', hu''⟩, rfl, hmem⟩ := targetNamed_pairs _ _ hw hu hnamed hnamed'
        exact htargets ts hts e (hmem e rfl) hu'' hu' hrow hgroup

/-- A default that is backed by its value at a row, however deep they are read. -/
def BackedAt (I : Interpretation) (w : Workspace) (sub : Subquery) (g : GroupOfRows) (row : Int)
    (outer : Option Int) (reader : Nat) (value default : Node) : Prop :=
  ∀ depth, Backed I (Unaltered w g.members) (encode (atRow sub g.members row outer g.targets reader depth) value)
    (encode (atRow sub g.members row outer g.targets reader depth) default)

/-- In a group of a single row everything is read as at the row. -/
theorem readers_pair (memo : Nat) (hn : (w₀.catalog.table g.members).rows = .ok n) (hone : I.groupRows w₀ g n = [t])
    (htargets : ∀ ts, g.targets = some ts → ∀ e ∈ ts, e.Scalar (BackedAt I w₀ sub g t outer reader)) (d d' : Nat) :
    Reader.Pairs I (Unaltered w₀ g.members) (atRow sub g.members t outer g.targets reader d)
      (g.reader sub memo d') := by
  -- Both readers follow aliases, each as deep as it is allowed to.
  induction d generalizing d' with
  | zero => exact ⟨fun _ ↦ .throw_left, fun _ ↦ .throw_left, fun _ _ _ _ _ _ _ ↦ .throw_left⟩
  | succ d ih =>
    cases d' with
    | zero => exact ⟨fun _ ↦ .throw_right, fun _ ↦ .throw_right, fun _ _ _ _ _ _ _ ↦ .throw_right⟩
    | succ d' =>
      refine ⟨fun s ↦ column_pairs hn hone fun ts hts e he ↦ ?_, constant_pairs, fun op args args' whole hop hargs
        hdefault ↦ function_pairs hargs hop hdefault⟩
      exact encode_pairs (ih d') (fun x y hxy ↦ hxy d) e (htargets ts hts e he)

end Expression

/-- An expression without aggregates and subqueries that is read in a group of a single row agrees with what is
read at the row, if every default is null only where its value is. A value with a default is null at the row
if both are, but in the group it is null if the default is. -/
theorem inGroup_agrees {I : Interpretation} {w w₁ w₂ : Workspace} {sub : Subquery} {g : GroupOfRows} {n t : Nat}
    {outer : Option Int} {reader memo : Nat} {e : Node} {r q : Reading}
    (hn : (w.catalog.table g.members).rows = .ok n) (hone : I.groupRows w g n = [t])
    (htargets : ∀ ts, g.targets = some ts → ∀ e ∈ ts, e.Scalar (BackedAt I w sub g t outer reader))
    (hrow : Gives (numberAtRow sub g.members t outer g.targets reader e) w r w₁)
    (hgroup : Gives (inGroup sub g false memo e) w q w₂) :
    (e.Scalar (BackedAt I w sub g t outer reader) → (I.Holds q.2 ↔ I.Holds r.2) ∧ I.eval q.1 = I.eval r.1) ∧
    ∀ x y rest byname, e = .expression (.str "ifnull") (x :: y :: rest) byname →
      x.Scalar (BackedAt I w sub g t outer reader) → y.Scalar (BackedAt I w sub g t outer reader) →
      ∃ a b v v', Gives (encode (atRow sub g.members t outer g.targets reader aliasDepth) x) w a v ∧
        Gives (encode (atRow sub g.members t outer g.targets reader aliasDepth) y) v b v' ∧
        (I.Holds r.2 ↔ I.Holds a.2 ∧ I.Holds b.2) ∧ (I.Holds q.2 ↔ I.Holds b.2) ∧ I.eval q.1 = I.eval r.1 := by
  have hpair := readers_pair memo hn hone htargets aliasDepth aliasDepth
  have hread (e : Node) (he : e.Scalar (BackedAt I w sub g t outer reader)) :=
    encode_pairs hpair (fun x y hxy ↦ hxy aliasDepth) e he
  have hw := Unaltered.refl w g.members
  refine ⟨fun he ↦ ?_, ?_⟩
  · have hagree := ((hread e he).bind fun a b hab ↦ asNumber_pairs same_respected hab) hw hw hrow hgroup
    exact ⟨hagree.2.2.holds.symm, hagree.2.1.eval.symm⟩
  · rintro x y rest byname rfl hx hy
    obtain ⟨r', v', hifnull, hr⟩ := bind_iff.1 hrow
    obtain ⟨q', _, hifnull', hq⟩ := bind_iff.1 hgroup
    obtain ⟨i, _, hi, hr⟩ := bind_iff.1 hr
    obtain ⟨j, _, hj, hq⟩ := bind_iff.1 hq
    obtain ⟨rfl, -⟩ := pure_iff.1 hr
    obtain ⟨rfl, -⟩ := pure_iff.1 hq
    obtain ⟨a, b, v, ha, hb, -, -, hvalue, -, hrnull, hqnull⟩ :=
      orNext_gives (hread x hx) (hread y hy) hw hw hifnull hifnull'
    refine ⟨a, b, v, v', ha, hb, hrnull, hqnull, ?_⟩
    rw [(I.eval_ensureNumber (lift_iff.1 hi).1).1, (I.eval_ensureNumber (lift_iff.1 hj).1).1, hvalue.eval]

/-- The second row of every table is alone in its group, and the second column is null. -/
def secondAlone : Interpretation :=
  { Interpretation.zero ⟨fun _ ↦ 0, false⟩ with grouping := fun _ i _ ↦ i == 1, null := fun _ _ c ↦ c == 1 }

/-- A literal that is no null is backed by every value. -/
theorem backedAt_lit {I : Interpretation} {w : Workspace} {sub : Subquery} {g : GroupOfRows} {row : Int}
    {outer : Option Int} {reader : Nat} (value : Node) (n : Int) :
    BackedAt I w sub g row outer reader value (.lit (.int n)) := by
  intro depth v a v' u b u' _ _ _ hb hnull
  cases depth with
  | zero => exact absurd hb not_throw
  | succ depth =>
    obtain ⟨rfl, -⟩ := pure_iff.1 hb
    exact absurd hnull I.not_holds_bot

/-- `IFNULL(a / b, 7)` -/
def defaultedQuotient : Node :=
  .expression (.str "ifnull") [.expression (.str "div") [.attr "a", .attr "b"] .null, .lit (.int 7)] .null

/-- `IFNULL(a, b)` -/
def defaultedColumn : Node := .expression (.str "ifnull") [.attr "a", .attr "b"] .null

/-- A quotient with a number for a default is read alike in a group of one row and at the row. A column whose
default is a null is null in the group, but not at the row. -/
theorem pairedTable_inGroup :
    (∃ r q w₁ w₂, Gives (numberAtRow (Query.nested 3) 0 1 none none 0 defaultedQuotient) pairedTable r w₁ ∧
      Gives (inGroup (Query.nested 3) ⟨0, 0, 0, none⟩ false 0 defaultedQuotient) pairedTable q w₂ ∧
      (secondAlone.Holds q.2 ↔ secondAlone.Holds r.2) ∧ secondAlone.eval q.1 = secondAlone.eval r.1) ∧
    ∃ r q w₁ w₂, Gives (numberAtRow (Query.nested 3) 0 1 none none 0 defaultedColumn) pairedTable r w₁ ∧
      Gives (inGroup (Query.nested 3) ⟨0, 0, 0, none⟩ false 0 defaultedColumn) pairedTable q w₂ ∧
      secondAlone.Holds q.2 ∧ ¬ secondAlone.Holds r.2 := by
  have hruns (e : Node) (hrow : (exec (numberAtRow (nested 3) 0 1 none none 0 e) pairedTable).1.toOption.isSome)
      (hgroup : (exec (inGroup (nested 3) ⟨0, 0, 0, none⟩ false 0 e) pairedTable).1.toOption.isSome) :
      ∃ r q w₁ w₂, Gives (numberAtRow (nested 3) 0 1 none none 0 e) pairedTable r w₁ ∧
        Gives (inGroup (nested 3) ⟨0, 0, 0, none⟩ false 0 e) pairedTable q w₂ := by
    obtain ⟨r, hr⟩ := Option.isSome_iff_exists.1 hrow
    obtain ⟨q, hq⟩ := Option.isSome_iff_exists.1 hgroup
    exact ⟨r, q, _, _, .of_toOption hr, .of_toOption hq⟩
  obtain ⟨r, q, w₁, w₂, hr, hq⟩ := hruns defaultedQuotient (by decide +kernel) (by decide +kernel)
  obtain ⟨r', q', w₃, w₄, hr', hq'⟩ := hruns defaultedColumn (by decide +kernel) (by decide +kernel)
  refine ⟨⟨r, q, w₁, w₂, hr, hq, ?_⟩, r', q', w₃, w₄, hr', hq', ?_⟩
  · refine (inGroup_agrees (I := secondAlone) (n := 2) (t := 1) (g := ⟨0, 0, 0, none⟩) rfl (by decide)
      (fun ts hts ↦ absurd hts (by simp)) hr hq).1 ?_
    exact ⟨by simp [Node.aggregateNames], fun _ ↦ backedAt_lit _ 7,
      ⟨by simp [Node.aggregateNames], by simp, ⟨"a", rfl⟩, ⟨"b", rfl⟩, trivial⟩, trivial, trivial⟩
  · obtain ⟨a, b, v, v', ha, hb, hrnull, hqnull, -⟩ := (inGroup_agrees (I := secondAlone) (n := 2) (t := 1)
      (g := ⟨0, 0, 0, none⟩) rfl (by decide) (fun ts hts ↦ absurd hts (by simp)) hr' hq').2 _ _ _ _ rfl
      ⟨"a", rfl⟩ ⟨"b", rfl⟩
    have hfaithful := atRow_faithful (nested 3) pairedTable 0 1 none none 0 199 secondAlone
    obtain ⟨hv, ha⟩ := encode_reads hfaithful (.attr "a") (pairedTable_names (.inl rfl)) (.refl _ _) ha
    obtain ⟨-, hb⟩ := encode_reads hfaithful (.attr "b") (pairedTable_names (.inr rfl)) hv hb
    have hsome : secondAlone.read a ≠ none := by
      rw [ha.read]
      decide +kernel
    have hnone : secondAlone.read b = none := by
      rw [hb.read]
      decide +kernel
    rw [ne_eq, Interpretation.read_eq_none_iff] at hsome
    rw [Interpretation.read_eq_none_iff] at hnone
    rw [hrnull, hqnull]
    exact ⟨hnone, fun h ↦ hsome h.1⟩

end QueryEquiv
