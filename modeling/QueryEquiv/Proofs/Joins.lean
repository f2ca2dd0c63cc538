import QueryEquiv.Proofs.Stages

/-!
# Joins

A join makes a table with the columns of both sides and a row for each pair of rows, one after the other,
reads the condition at every pair, and copies the pair into its row.
-/

namespace QueryEquiv

open Gives List Operator Operator.Join Results Workspace

/-! ## The tables of a join -/

/-- The tables of a join lie in a workspace, and the columns of the result are those of both sides. -/
structure Arranged (w : Workspace) (left right output : Nat) (L R : Sheet) (O : Shape) : Prop where
  left : Lies w left L
  right : Lies w right R
  output : Lies w output O.sheet
  apart : L.id ≠ R.id
  columns : O.columns = upTo (L.columns.length + R.columns.length)

/-- What is noted of the tables of a join. -/
structure Describes (s : Sides) (L R : Sheet) (O : Shape) : Prop where
  left : Shape.ofTable s.left = .ok L.toShape
  right : Shape.ofTable s.right = .ok R.toShape
  output : Shape.ofTable s.output = .ok O
  sources : s.sources = L.columns.map (L.id, ·) ++ R.columns.map (R.id, ·)

section Sides

variable {w v : Workspace} {left right output : Nat} {L R : Sheet} {O : Shape} {s : Sides}

theorem Arranged.later (h : Arranged w left right output L R O) (hv : Chain w v) :
    Arranged v left right output L R O :=
  ⟨hv.lies h.left, hv.lies h.right, hv.lies h.output, h.apart, h.columns⟩

theorem sides_gives (h : Arranged w left right output L R O) :
    ∃ s, Gives (sides left right output) w s w ∧ Describes s L R O := by
  let sources (t : Table) : List (Int × Int) := t.columns.map fun c ↦ (t.id, c.id)
  refine ⟨⟨w.catalog.table left, w.catalog.table right, w.catalog.table output,
    sources (w.catalog.table left) ++ sources (w.catalog.table right)⟩, ?_, h.left.shape, h.right.shape,
    h.output.shape, ?_⟩
  · simp only [sides, bind_iff, table_gives, pure_iff]
    exact ⟨_, w, ⟨rfl, rfl⟩, _, w, ⟨rfl, rfl⟩, _, w, ⟨rfl, rfl⟩, rfl, rfl⟩
  · simp [sources, ← h.left.columns_eq, ← h.right.columns_eq, h.left.id_eq, h.right.id_eq, Function.comp_def]

def cellsFrom (out : Int) (row start count : Nat) : List Cell :=
  (List.range' start count).map fun (c : Nat) ↦ ⟨out, row, c⟩

theorem Arranged.line_output (h : Arranged w left right output L R O) (row : Nat) :
    O.sheet.line row = cellsFrom O.id row 0 (L.columns.length + R.columns.length) := by
  simp [Shape.sheet, h.columns, upTo, cellsFrom, range_eq_range']

theorem Arranged.cell_output (h : Arranged w left right output L R O) {row c : Nat} (hrow : row < O.rows)
    (hc : c < L.columns.length + R.columns.length) : w.database.cell O.id row c = .ok (some ⟨O.id, row, c⟩) := by
  have hcells := forall₂_map_right_iff.1 (h.output.cells row hrow)
  have hmem : (c : Int) ∈ O.columns := by
    rw [h.columns]
    exact mem_map.2 ⟨c, mem_range.2 hc, rfl⟩
  exact forall₂_same.1 hcells c hmem

end Sides

/-! ## Copies into a row of the result -/

section Copies

variable {w : Workspace} {left right output : Nat} {L R : Sheet} {O : Shape} {s : Sides} {out : Int}
  {row : Nat}

theorem mapM_fill_gives {α β : Type} {sources : List α} {xs : List β} {f : α × Nat → Encoding Term}
    {fill : β → Cell → Term} (start : Nat)
    (hx : Forall₂ (fun s x ↦ ∀ p : Nat, w.database.cell out row p = .ok (some ⟨out, row, p⟩) →
      Gives (f (s, p)) w (fill x ⟨out, row, p⟩) w) sources xs)
    (ht : ∀ p < start + sources.length, w.database.cell out row p = .ok (some ⟨out, row, p⟩)) :
    Gives ((sources.zipIdx start).mapM f) w (List.zipWith fill xs (cellsFrom out row start sources.length)) w := by
  refine mapM_of_forall₂ ?_
  induction hx generalizing start with
  | nil => exact .nil
  | cons hx _ ih =>
    refine .cons (hx start (ht start (by simp))) (ih (start + 1) fun p hp ↦ ht p ?_)
    simp only [length_cons]
    omega

theorem fillRow_gives (h : Arranged w left right output L R O) (hs : Describes s L R O) {β : Type} {xs ys : List β}
    {f : (Int × Int) × Nat → Encoding Term} {fill : β → Cell → Term} (hrow : row < O.rows)
    (hl : Forall₂ (fun c x ↦ ∀ p : Nat, w.database.cell O.id row p = .ok (some ⟨O.id, row, p⟩) →
      Gives (f ((L.id, c), p)) w (fill x ⟨O.id, row, p⟩) w) L.columns xs)
    (hr : Forall₂ (fun c x ↦ ∀ p : Nat, w.database.cell O.id row p = .ok (some ⟨O.id, row, p⟩) →
      Gives (f ((R.id, c), p)) w (fill x ⟨O.id, row, p⟩) w) R.columns ys) :
    Gives (s.sources.zipIdx.mapM f) w (List.zipWith fill (xs ++ ys) (O.sheet.line row)) w := by
  have hlen : s.sources.length = L.columns.length + R.columns.length := by simp [hs.sources]
  rw [h.line_output row, ← hlen]
  refine mapM_fill_gives 0 ?_ fun p hp ↦ h.cell_output hrow (by omega)
  rw [hs.sources]
  exact rel_append (forall₂_map_left_iff.2 hl) (forall₂_map_left_iff.2 hr)

theorem pairCopies_gives (h : Arranged w left right output L R O) (hs : Describes s L R O) {i j row : Nat}
    (hi : i < L.rows) (hj : j < R.rows) (hrow : row < O.rows) : Gives (s.pairCopies i j row) w
      (List.zipWith Cell.copies (L.line i ++ R.line j) (O.sheet.line row)) w := by
  rw [Sides.pairCopies, (Shape.ofTable_ok_iff.1 hs.left).1, (Shape.ofTable_ok_iff.1 hs.output).1]
  refine fillRow_gives h hs hrow ((h.left.cells i hi).imp fun c x hx p hp ↦ ?_)
    ((h.right.cells j hj).imp fun c x hx p hp ↦ ?_)
  · exact copyOf_gives (by simpa using hx) hp
  · exact copyOf_gives (by simpa [h.apart.symm] using hx) hp

end Copies

/-! ## Reading the pairs -/

section Reading

variable {w v v' : Workspace} {left right output : Nat} {L R : Sheet} {O : Shape} {s : Sides}
  {read : Nat → Nat → Encoding Reading}

/-- What a join notes of the pair of rows that goes into a row of the result. -/
def joinedRow (L R : Sheet) (O : Shape) (reading : Nat × Nat → Reading) (p : Nat × Nat) (row : Nat) :
    JoinedPair :=
  ⟨p.1, p.2, some (reading p), List.zipWith Cell.copies (L.line p.1 ++ R.line p.2) (O.sheet.line row)⟩

/-- Where the condition can be read at all pairs, one after the other, the pairs are noted with it. -/
theorem readPairs_gives (h : Arranged w left right output L R O) (hs : Describes s L R O)
    (hkeep : ∀ i j, Guards (Chain w) (read i j)) {reading : Nat × Nat → Reading}
    {ps : List (Nat × Nat)} (row : Nat) (hps : ∀ p ∈ ps, p.1 < L.rows ∧ p.2 < R.rows)
    (hrow : row + ps.length ≤ O.rows) (hv : Chain w v)
    (hread : Gives (ps.mapM fun p ↦ read p.1 p.2) v (ps.map reading) v') : Gives (readPairs s (some read) row ps) v
      ((ps.zipIdx row).map fun (p, n) ↦ joinedRow L R O reading p n) v' ∧ Chain w v' := by
  induction ps generalizing row v with
  | nil =>
    rw [mapM_nil, pure_iff] at hread
    obtain ⟨-, rfl⟩ := hread
    exact ⟨pure_iff.2 ⟨rfl, rfl⟩, hv⟩
  | cons p ps ih =>
    simp only [mapM_cons, bind_iff, pure_iff, map_cons, List.cons.injEq] at hread
    obtain ⟨_, u, hp, _, _, hrest, ⟨rfl, rfl⟩, rfl⟩ := hread
    rw [forall_mem_cons] at hps
    rw [length_cons] at hrow
    have hu := (hkeep _ _ hv hp).1
    have hrow' : row + 1 + ps.length ≤ O.rows := by omega
    obtain ⟨hgives, hlast⟩ := ih (row + 1) hps.2 hrow' hu hrest
    refine ⟨?_, hlast⟩
    have hlt : row < O.rows := by omega
    have hcopies := pairCopies_gives (h.later hu) hs hps.1.1 hps.1.2 hlt
    simp only [readPairs, bind_iff, pure_iff]
    exact ⟨_, u, hp, _, u, ⟨rfl, rfl⟩, _, u, hcopies, _, _, hgives, rfl, rfl⟩

end Reading

/-! ## Making the result -/

/-- The tables and the condition of a join are at hand. -/
structure Joinable (w : Workspace) (left right : Nat) (L R : Sheet) (r : Request) (cond : Node) : Prop where
  leftLies : Lies w left L
  rightLies : Lies w right R
  leftBound : (w.catalog.table left).bound = .int L.rows
  rightBound : (w.catalog.table right).bound = .int R.rows
  apart : L.id ≠ R.id
  unused : Unused w
  condition : Gives (Join.condition (w.catalog.table left) (w.catalog.table right) r) w cond w
  text : ∃ text, (cond.complete w.completed).text = .ok text

section Making

variable {w : Workspace} {left right : Nat} {L R : Sheet} {r : Request} {cond : Node} {kind : Join.Kind}
  {total : Nat}

/-- The result of a join has a place, and so has the table that it is cut down to. -/
theorem makeResult_gives (h : Joinable w left right L R r cond) (hkind : Kind.ofName r.kind = .ok kind)
    (htotal : kind.bound (.int L.rows) (.int R.rows) = .ok (.int total)) (k : Int) :
    ∃ (output : Nat) (cut : Option Nat) (O : Shape) (w₁ : Workspace),
      Gives (makeResult left right r (.int k)) w (cond, output, cut) w₁ ∧
      Arranged w₁ left right output L R O ∧ O.rows = total ∧
      (L.columns ++ R.columns ≠ [] → (w₁.database.rowsOf O.id).size = total) ∧
      ∀ c, cut = some c → ∃ C : Shape, Lies w₁ c C.sheet ∧ C.columns = O.columns ∧ C.rows = k.toNat := by
  obtain ⟨text, htext⟩ := h.text
  rw [← h.leftBound, ← h.rightBound] at htotal
  have hwidth : ((w.catalog.table left).columns ++ (w.catalog.table right).columns).length =
      L.columns.length + R.columns.length := by
    simp [← h.leftLies.columns_eq, ← h.rightLies.columns_eq]
  let t : Table :=
    { id := w.lastTable + 1, bound := .int total
      name := .str s!"!{(w.catalog.table left).name.text}_JOIN_{(w.catalog.table right).name.text}!"
      columns := renumbered ((w.catalog.table left).columns ++ (w.catalog.table right).columns)
      ancestors := [.one left, .one right]
      lineage := some s!"Joined from T{(w.catalog.table left).id} and T{(w.catalog.table right).id} on ({text})" }
  have hcols : t.columns.map (·.id) = upTo (L.columns.length + R.columns.length) := by
    rw [← hwidth]
    exact renumbered_ids _
  obtain ⟨db, hmake, hlies, hother, hsize⟩ := makeTable_gives (w := { w with lastTable := w.lastTable + 1 }) hcols
    (by rfl : t.rows = .ok total) le_rfl (h.unused _ (by dsimp only [t]; omega))
  have hcolumns (hne : L.columns ++ R.columns ≠ []) : t.columns ≠ [] := by
    intro hnil
    have hzero : upTo (L.columns.length + R.columns.length) = [] := by rw [← hcols, hnil, map_nil]
    have := congrArg List.length hzero
    rw [length_upTo, ← length_append] at this
    exact hne (length_eq_zero_iff.1 this)
  let f : Table → Table := ({ · with origin := some { label := r.label } })
  let v : Workspace :=
    { w with lastTable := w.lastTable + 1, database := db
             catalog := (w.catalog.add t).2.modify w.catalog.tables.size f }
  let O : Shape := ⟨w.lastTable + 1, total, upTo (L.columns.length + R.columns.length)⟩
  have houtput : Lies v w.catalog.tables.size O.sheet := hlies.change fun _ ↦ rfl
  have hbound : (v.catalog.table w.catalog.tables.size).bound = .int total := by
    rw [show v.catalog = (w.catalog.add t).2.modify w.catalog.tables.size f from rfl,
      Catalog.table_modify_self (by simp), Catalog.table_add_self]
  have hunused : Unused v := fun id hid ↦ by
    have hid : w.lastTable + 1 < id := hid
    exact (hother id (by dsimp only [t]; omega)).trans (h.unused id (by omega))
  have hgives {cut : Option Nat} {w₁ : Workspace}
      (hc : Gives (cutDown w.catalog.tables.size (.int k)) v cut w₁) :
      Gives (makeResult left right r (.int k)) w (cond, w.catalog.tables.size, cut) w₁ := by
    simp only [makeResult, bind_iff, table_gives, newTableId_gives, lift_iff, changeTable_gives,
      pure_iff, Workspace.textOf, get_iff]
    exact ⟨_, w, ⟨rfl, rfl⟩, _, w, ⟨rfl, rfl⟩, _, w, h.condition, _, _, ⟨rfl, rfl⟩, _, _, ⟨hkind, rfl⟩, _, _,
      ⟨htotal, rfl⟩, text, _, ⟨_, _, ⟨rfl, rfl⟩, htext, rfl⟩, _, _, hmake, ⟨⟩, _, rfl, _, _, hc, rfl, rfl⟩
  -- What lay before still does, and the result does after it was cut down.
  have hadded : Added w w.catalog.tables.size (joinedTable w left right r (.int total) text) v :=
    added_of_begins (joinedTable_begins left right r _ text) (by decide) rfl (.inl ⟨_, hcols⟩) hmake
      (u := ⟨⟩) (changeTable_gives.2 rfl)
  have harranged {cut : Option Nat} {w₁ : Workspace}
      (hc : Gives (cutDown w.catalog.tables.size (.int k)) v cut w₁) :
      Arranged w₁ left right w.catalog.tables.size L R O := by
    have hcut := (hadded.cutDown hc (joinedTable_begins left right r _ text) (by decide)).chain
    have hchain := hadded.chain.trans hcut
    exact ⟨hchain.lies h.leftLies, hchain.lies h.rightLies, hcut.lies houtput, h.apart, rfl⟩
  by_cases hk : k < total
  · obtain ⟨w₁, hc, hcut, hrest⟩ := cutDown_gives_some houtput rfl hbound hk hunused
    refine ⟨_, _, O, w₁, hgives hc, harranged hc, rfl, fun hne ↦ ?_, ?_⟩
    · rw [hrest O.id (by dsimp only [O, v]; omega)]
      exact hsize (hcolumns hne)
    · rintro _ ⟨⟩
      exact ⟨_, hcut, rfl, rfl⟩
  · have hc := cutDown_gives_none hbound (not_lt.1 hk)
    refine ⟨_, _, O, v, hgives hc, harranged hc, rfl, fun hne ↦ hsize (hcolumns hne), ?_⟩
    intro c hcut
    cases hcut

end Making

/-! ## The pairs and their readings -/

/-- After the result of a join was made, the condition can be read at all pairs, one after the other. -/
def Reads (sub : Expression.Subquery) (w : Workspace) (left right : Nat) (L R : Sheet) (r : Request)
    (k : Value) (cond : Node) (reading : Nat × Nat → Reading) (w₂ w₃ : Workspace) : Prop :=
  ∃ x w₁ reader, Gives (makeResult left right r k) w x w₁ ∧ Gives newReader w₁ reader w₂ ∧
    Gives ((Sides.pairs L.rows R.rows).mapM fun p ↦
        Expression.truthAtPair sub left right p.1 p.2 reader cond) w₂
      ((Sides.pairs L.rows R.rows).map reading) w₃

theorem mem_pairs {m n : Nat} {p : Nat × Nat} : p ∈ Sides.pairs m n ↔ p.1 < m ∧ p.2 < n := by
  obtain ⟨i, j⟩ := p
  simp [Sides.pairs]

theorem newReader_gives {v v' : Workspace} {reader : Nat} (h : Gives newReader v reader v') : Chain v v' :=
  (Chain.passage.quiet.newReader_keeps (Chain.refl v) h).1

/-- All pairs with what a left join notes of them. -/
def joinedRows (L R : Sheet) (O : Shape) (reading : Nat × Nat → Reading) : List JoinedPair :=
  (Sides.pairs L.rows R.rows).zipIdx.map fun (p, n) ↦ joinedRow L R O reading p n

section Rows

variable {L R : Sheet} {O : Shape} {reading : Nat × Nat → Reading} {i n : Nat}

theorem length_joinedRows : (joinedRows L R O reading).length = L.rows * R.rows := by
  simp [joinedRows, length_pairs]

theorem mem_zipIdx_joinedRows {q : JoinedPair} : (q, n) ∈ (joinedRows L R O reading).zipIdx ↔
      ∃ p, (Sides.pairs L.rows R.rows)[n]? = some p ∧ q = joinedRow L R O reading p n := by
  rw [mk_mem_zipIdx_iff_getElem?, joinedRows, getElem?_map, getElem?_zipIdx]
  cases (Sides.pairs L.rows R.rows)[n]? <;> simp [eq_comm]

/-- The positions of the pairs with a row of the left table. -/
theorem mem_pairsOf : n ∈ pairsOf (joinedRows L R O reading) i ↔
    ∃ j, (Sides.pairs L.rows R.rows)[n]? = some (i, j) := by
  rw [pairsOf, mem_map]
  constructor
  · rintro ⟨⟨q, m⟩, hq, rfl⟩
    obtain ⟨hmem, hi⟩ := mem_filter.1 hq
    obtain ⟨p, hp, rfl⟩ := mem_zipIdx_joinedRows.1 hmem
    obtain rfl : p.1 = i := by simpa [joinedRow] using hi
    exact ⟨p.2, hp⟩
  · rintro ⟨j, hj⟩
    exact ⟨(joinedRow L R O reading (i, j) n, n),
      mem_filter.2 ⟨mem_zipIdx_joinedRows.2 ⟨_, hj, rfl⟩, by simp [joinedRow]⟩, rfl⟩

end Rows

end QueryEquiv
