import QueryEquiv.Proofs.ChangesQueries
import QueryEquiv.Proofs.Joins

/-!
# Outer joins

The result of a left join has a row for each pair of rows and, behind them, one for each row of the left
table. In an interpretation of its formulas the rows that are there are the pairs that meet the condition
and the left rows without a partner, padded with nulls.

A right join is a left join with the sides exchanged. Its result, though, has as many extra rows as the left
table has rows, where as many are needed as the right table has.
-/

namespace QueryEquiv

open Database Interpretation Gives List Operator Operator.Join Results Workspace Shape

/-! ## What an outer join is -/

namespace Interpretation

variable {i row : Nat} {α β : Type} {v : Workspace}

variable (I : Interpretation)

/-- A condition is true: it is neither null nor false. -/
def met (v : Reading) : Bool := decide (I.Holds v.1) && !decide (I.Holds v.2)

/-- The pairs of rows that meet a condition, one after the other. -/
def matching (left right : Sheet) (cond : Nat → Nat → Bool) : List Record :=
  (I.rowsThere left.toShape).flatMap fun i ↦
    ((I.rowsThere right.toShape).filter (cond i)).map fun j ↦ I.entry left i ++ I.entry right j

/-- The rows of the left table that have no partner, with nulls in the columns of the right one. -/
def unmatched (left right : Sheet) (cond : Nat → Nat → Bool) : List Record :=
  ((I.rowsThere left.toShape).filter fun i ↦ !(I.rowsThere right.toShape).any (cond i)).map fun i ↦
    I.entry left i ++ List.replicate right.columns.length none

/-- The left outer join: the pairs that meet the condition, and the rows of the left table without a partner. -/
def leftOuter (left right : Sheet) (cond : Nat → Nat → Bool) : Multiset Record :=
  I.matching left right cond + I.unmatched left right cond

/-- The right outer join, where the columns of the right table come first: the pairs that meet the condition,
and the rows of the right table without a partner. -/
def rightOuter (left right : Sheet) (cond : Nat → Nat → Bool) : Multiset Record :=
  I.matching right left (fun j i ↦ cond i j) + I.unmatched right left fun j i ↦ cond i j

end Interpretation

/-! ## Copies into the extra rows -/

section Extras

variable {w : Workspace} {left right output : Nat} {L R : Sheet} {O : Shape} {s : Sides} {out : Int}
  {row : Nat}

/-- A column is filled with a copy of a cell, or with a null. -/
def fill (source : Option Cell) (target : Cell) : Term := source.elim target.isNull (·.copies target)

/-- The cells of a row and, behind them, nulls. -/
def padded (xs : List Cell) (count : Nat) : List (Option Cell) := xs.map some ++ List.replicate count none

/-- A row of the left table goes into a row of the result, padded with nulls. -/
theorem extraCopies_gives (h : Arranged w left right output L R O) (hs : Describes s L R O) (hi : i < L.rows)
    (hrow : row < O.rows) : Gives (s.extraCopies s.left.id i row) w
      (List.zipWith fill (padded (L.line i) R.columns.length) (O.sheet.line row)) w := by
  rw [Sides.extraCopies, (ofTable_ok_iff.1 hs.left).1, (ofTable_ok_iff.1 hs.output).1]
  refine fillRow_gives h hs hrow (forall₂_map_right_iff.2 ((h.left.cells i hi).imp fun c x hx p hp ↦ ?_)) ?_
  · refine bind_iff.2 ⟨_, w, cell?_gives hp, ?_⟩
    simp only [beq_self_eq_true, if_true]
    exact copyOf_gives hx hp
  · rw [← map_const', forall₂_map_right_iff, forall₂_same]
    refine fun c _ p hp ↦ bind_iff.2 ⟨_, w, cell?_gives hp, ?_⟩
    simp only [beq_eq_false_iff_ne.2 h.apart.symm, Bool.false_eq_true, if_false]
    exact pure_iff.2 ⟨rfl, rfl⟩

theorem extras_gives (h : Arranged w left right output L R O) (hs : Describes s L R O)
    (joined : List JoinedPair) {rows : List Nat} (hrows : ∀ i ∈ rows, i < L.rows ∧ joined.length + i < O.rows) :
    Gives (extras s joined rows) w (rows.flatMap fun i ↦ extraCases L.id O.id (pairsOf joined i) i (joined.length + i)
        (List.zipWith fill (padded (L.line i) R.columns.length) (O.sheet.line (joined.length + i)))) w := by
  have hleft : s.left.id = L.id := (ofTable_ok_iff.1 hs.left).1
  have hout : s.output.id = O.id := (ofTable_ok_iff.1 hs.output).1
  induction rows with
  | nil => exact pure_iff.2 ⟨rfl, rfl⟩
  | cons i rows ih =>
    rw [forall_mem_cons] at hrows
    have hcopies := extraCopies_gives h hs hrows.1.1 hrows.1.2
    simp only [extras, bind_iff, pure_iff]
    refine ⟨_, w, hcopies, _, w, ih hrows.2, ?_, rfl⟩
    rw [flatMap_cons, hleft, hout]

end Extras

/-! ## What the formulas say -/

namespace Interpretation

variable {I : Interpretation} {L R : Sheet} {O : Shape} {reading : Nat × Nat → Reading}

theorem value_of_fill {source : Option Cell} {target : Cell} (h : I.Holds (fill source target)) :
    I.value target = source.bind I.value := by
  cases source with
  | none => exact I.value_of_isNull h
  | some x => exact I.value_of_copies h

/-- A row of the result that stands for a pair: it is there if both rows are and meet the condition, and
its choice says so. -/
structure Paired (I : Interpretation) (L R : Sheet) (O : Shape) (reading : Nat × Nat → Reading)
    (p : Nat × Nat) (row : Nat) : Prop where
  there : I.deleted O.id row = false ↔
    I.deleted L.id p.1 = false ∧ I.deleted R.id p.2 = false ∧ I.met (reading p) = true
  choice : I.choice O.id row = 0 ↔ I.deleted O.id row = true
  entry : I.deleted O.id row = false → I.entry O.sheet row = I.entry L p.1 ++ I.entry R p.2

theorem paired_of_cases {p : Nat × Nat} (hlen : (L.line p.1 ++ R.line p.2).length = (O.sheet.line row).length)
    (hcases : ∀ t ∈ pairCases L.id R.id O.id row (joinedRow L R O reading p row), I.Holds t)
    (hdecided : I.Holds (decided O.id row)) : I.Paired L R O reading p row := by
  simp only [pairCases, joinedRow, holds_implies, kept, dropped, absent, unmet, holds_and,
    holds_or_cons, holds_eq, eval_choice, eval_one, eval_zero, holds_present, holds_deleted, holds_not,
    decided, cons_append, nil_append, mem_cons, not_mem_nil, or_false, exists_eq_or_imp,
    exists_eq_left, forall_eq_or_imp, forall_eq] at hcases hdecided
  obtain ⟨hkept, hdropped⟩ := hcases
  have hmet : I.met (reading p) = true ↔ ¬ I.Holds (reading p).2 ∧ I.Holds (reading p).1 := by
    simp [met, and_comm]
  obtain hone | hzero := hdecided
  · obtain ⟨hl, hr, hcond, hcopies, hthere⟩ := hkept hone
    refine ⟨iff_of_true hthere ⟨hl, hr, hmet.2 hcond⟩, ?_, fun _ ↦ ?_⟩
    · simp [hone, hthere]
    · rw [entry, map_value_of_copies I hlen hcopies, map_append]
      rfl
  · obtain ⟨hfails, hgone⟩ := hdropped hzero
    refine ⟨iff_of_false (by simp [hgone]) ?_, iff_of_true hzero hgone, fun h ↦ by simp [hgone] at h⟩
    rw [hmet]
    rintro ⟨hl, hr, hcond⟩
    simp [hl, hr, hcond] at hfails

/-- An extra row of the result: it is there if its left row is and has no partner. -/
structure Alone (I : Interpretation) (L R : Sheet) (O : Shape) (reading : Nat × Nat → Reading)
    (i row : Nat) : Prop where
  there : I.deleted O.id row = false ↔ I.deleted L.id i = false ∧
    ∀ j < R.rows, I.deleted R.id j = false → I.met (reading (i, j)) = false
  entry : I.deleted O.id row = false →
    I.entry O.sheet row = I.entry L i ++ List.replicate R.columns.length none

theorem alone_of_cases {bits : List Nat}
    (hlen : (padded (L.line i) R.columns.length).length = (O.sheet.line row).length)
    (hcases : ∀ t ∈ extraCases L.id O.id bits i row
      (List.zipWith fill (padded (L.line i) R.columns.length) (O.sheet.line row)), I.Holds t)
    (hpartner : ∀ b ∈ bits, ∃ j < R.rows, I.Paired L R O reading (i, j) b)
    (hpairs : ∀ j < R.rows, ∃ b ∈ bits, I.Paired L R O reading (i, j) b) : I.Alone L R O reading i row := by
  simp only [extraCases, holds_implies, holds_and, holds_or_cons, holds_present, absent, holds_deleted, dropped,
    holds_eq, eval_choice, eval_zero, mem_cons, not_mem_nil, or_false, exists_eq_or_imp,
    exists_eq_left, forall_eq_or_imp, forall_eq, forall_mem_map] at hcases
  obtain ⟨hthere, hgone⟩ := hcases
  cases hl : I.deleted L.id i with
  | true =>
    have hrow := hgone (.inl hl)
    exact ⟨by simp [hrow, hl], by simp [hrow]⟩
  | false =>
    by_cases hbits : ∀ b ∈ bits, I.choice O.id (b : Nat) = 0
    · obtain ⟨hfill, hrow⟩ := hthere ⟨hl, hbits⟩
      refine ⟨iff_of_true hrow ⟨hl, fun j hj hr ↦ ?_⟩, fun _ ↦ ?_⟩
      · obtain ⟨b, hb, hp⟩ := hpairs j hj
        have hdropped := hp.choice.1 (hbits b hb)
        by_contra hmet
        rw [hp.there.2 ⟨hl, hr, by simpa using hmet⟩] at hdropped
        cases hdropped
      · rw [entry, I.map_value_of_zipWith (f := fill) (fun _ _ ↦ value_of_fill) hlen hfill, padded, map_append, map_map, map_replicate]
        rfl
    · -- A pair with the left row was kept.
      push Not at hbits
      obtain ⟨b, hb, hchoice⟩ := hbits
      have hor : I.Holds (.or (bits.map fun (b : Nat) ↦ .ne (.choice O.id b) .zero)) := by
        rw [holds_or]
        exact .inl ⟨_, mem_map_of_mem hb, by simpa using hchoice⟩
      have hrow := hgone (.inr ⟨hl, hor⟩)
      refine ⟨iff_of_false (by simp [hrow]) fun hnone ↦ ?_, by simp [hrow]⟩
      obtain ⟨j, hj, hp⟩ := hpartner b hb
      have hkept : I.deleted O.id b = false := by simpa using fun h ↦ hchoice (hp.choice.2 h)
      obtain ⟨-, hr, hmet⟩ := hp.there.1 hkept
      rw [hnone.2 j hj hr] at hmet
      cases hmet

/-- Going through the numbers of the members of a list is going through the list. -/
private theorem filter_map_range {l : List α} {p : Nat → Bool} {q : α → Bool} {f : Nat → β} {g : α → β}
    (h : ∀ n a, l[n]? = some a → p n = q a ∧ (q a = true → f n = g a)) :
    ((List.range l.length).filter p).map f = (l.filter q).map g := by
  induction l using reverseRecOn with
  | nil => rfl
  | append_singleton l a ih =>
    have hlast := h l.length a (by simp)
    have hinit := ih fun n b hb ↦ h n b (by
      rw [List.getElem?_append_left (List.getElem?_eq_some_iff.1 hb).1, hb])
    rw [length_append, length_singleton, range_succ, filter_append, filter_append, map_append, map_append, hinit]
    congr 1
    cases hq : q a with
    | true => simp [hlast.1, hq, hlast.2 hq]
    | false => simp [hlast.1, hq]

private theorem filter_map_congr {l : List α} {p q : α → Bool} {f g : α → β}
    (h : ∀ a ∈ l, p a = q a ∧ (q a = true → f a = g a)) : (l.filter p).map f = (l.filter q).map g := by
  rw [filter_congr fun a ha ↦ (h a ha).1]
  exact map_congr_left fun a ha ↦ (h a (mem_of_mem_filter ha)).2 (of_mem_filter ha)

private theorem flatMap_filter' (l : List α) (p : α → Bool) (f : α → List β) :
    (l.filter p).flatMap f = l.flatMap fun a ↦ if p a then f a else [] := by
  induction l with
  | nil => rfl
  | cons a l ih => cases h : p a <;> simp [h, ih]

theorem rowsThere_eq (I : Interpretation) (s : Shape) :
    I.rowsThere s = (List.range s.rows).filter fun (row : Nat) ↦ !I.deleted s.id row := rfl

/-- The pairs that are there and meet the condition, taken from all pairs. -/
theorem matching_eq (I : Interpretation) (L R : Sheet) (cond : Nat → Nat → Bool) : I.matching L R cond =
      ((Sides.pairs L.rows R.rows).filter fun p ↦ !I.deleted L.id p.1 && (!I.deleted R.id p.2 && cond p.1 p.2)).map
          fun p ↦ I.entry L p.1 ++ I.entry R p.2 := by
  rw [matching, I.rowsThere_eq L.toShape, flatMap_filter', Sides.pairs, filter_flatMap, map_flatMap]
  refine flatMap_congr fun i _ ↦ ?_
  rw [filter_map, map_map]
  cases hl : I.deleted L.id i with
  | true => simp [Function.comp_def, hl]
  | false =>
    rw [rowsThere, filter_filter]
    simp [Function.comp_def, hl, Bool.and_comm]

/-- The rows of the result of a left join that are there: the pairs that meet the condition, the left rows
without a partner, and what is in rows that no formula speaks of. -/
theorem entries_outer (hpaired : ∀ n p, (Sides.pairs L.rows R.rows)[n]? = some p → I.Paired L R O reading p n)
    (halone : ∀ i < L.rows, I.Alone L R O reading i ((Sides.pairs L.rows R.rows).length + i))
    (hrows : (Sides.pairs L.rows R.rows).length + L.rows ≤ O.rows) :
    ∃ rest : List Record, rest.length ≤ O.rows - ((Sides.pairs L.rows R.rows).length + L.rows) ∧
      I.entries O.sheet = I.matching L R (fun i j ↦ I.met (reading (i, j))) ++
        I.unmatched L R (fun i j ↦ I.met (reading (i, j))) ++ rest := by
  obtain ⟨more, hmore⟩ := Nat.exists_eq_add_of_le hrows
  set n := (Sides.pairs L.rows R.rows).length with hn
  refine ⟨(((List.range more).map (n + L.rows + ·)).filter fun row ↦ !I.deleted O.id (row : Nat)).map
    (I.entry O.sheet), ?_, ?_⟩
  · rw [length_map]
    refine (length_filter_le _ _).trans ?_
    simp
    omega
  · have hO : O.sheet.rows = n + L.rows + more := hmore
    rw [entries, rowsThere, hO, range_add, range_add, filter_append, filter_append, map_append, map_append]
    refine congrArg (· ++ _) (congrArg₂ (· ++ ·) ?_ ?_)
    · rw [matching_eq, hn]
      refine filter_map_range fun m p hp ↦ ?_
      have h := hpaired m p hp
      have hq : (!I.deleted L.id p.1 && (!I.deleted R.id p.2 && I.met (reading p))) = true ↔
          I.deleted O.id m = false := by simp [h.there]
      refine ⟨?_, fun hp ↦ h.entry (hq.1 hp)⟩
      rw [Bool.eq_iff_iff, hq]
      simp [sheet]
    · rw [filter_map, map_map, unmatched, I.rowsThere_eq L.toShape, filter_filter]
      refine filter_map_congr fun i hi ↦ ?_
      have h := halone i (mem_range.1 hi)
      have hq : ((!(I.rowsThere R.toShape).any fun j ↦ I.met (reading (i, j))) && !I.deleted L.id i) = true ↔
          I.deleted O.id (n + i : Nat) = false := by
        rw [h.there]
        simp [mem_rowsThere, and_comm]
      refine ⟨?_, fun hp ↦ h.entry (hq.1 hp)⟩
      rw [Bool.eq_iff_iff, hq]
      simp [sheet]

end Interpretation

/-! ## Left and right joins -/

section Joins

variable {w w₂ w₃ : Workspace} {left right : Nat} {L R : Sheet} {r : Request} {cond : Node}
  {reading : Nat × Nat → Reading} {kind : Join.Kind} {total : Nat} {k : Int}

/-- The formulas for the extra rows of a left join. -/
def extraFormulas (L R : Sheet) (O : Shape) (reading : Nat × Nat → Reading) : List Term :=
  (List.range L.rows).flatMap fun i ↦ extraCases L.id O.id (pairsOf (joinedRows L R O reading) i) i
    ((joinedRows L R O reading).length + i) (List.zipWith fill (padded (L.line i) R.columns.length)
      (O.sheet.line ((joinedRows L R O reading).length + i)))

/-- What the formulas of a left join say of the rows of its result. -/
theorem entries_leftJoin {w : Workspace} {output : Nat} {I : Interpretation}
    (h : Arranged w left right output L R O) (hroom : L.rows * R.rows + L.rows ≤ O.rows)
    (hcases : ∀ t ∈ cases L.id R.id O.id (joinedRows L R O reading), I.Holds t)
    (hdecided : ∀ t ∈ allDecided O.id (joinedRows L R O reading).length, I.Holds t)
    (hextras : ∀ t ∈ extraFormulas L R O reading, I.Holds t) :
    ∃ rest : List Record, rest.length ≤ O.rows - (L.rows * R.rows + L.rows) ∧
      I.entries O.sheet = I.matching L R (fun i j ↦ I.met (reading (i, j))) ++
        I.unmatched L R (fun i j ↦ I.met (reading (i, j))) ++ rest := by
  simp only [extraFormulas, length_joinedRows] at hdecided hextras
  have hline (row : Nat) : (O.sheet.line row).length = L.columns.length + R.columns.length := by
    simp [sheet, h.columns]
  have hpaired (n : Nat) (p : Nat × Nat) (hp : (Sides.pairs L.rows R.rows)[n]? = some p) :
      I.Paired L R O reading p n := by
    obtain ⟨hl, hr⟩ := mem_pairs.1 (mem_of_getElem? hp)
    have hn : n < L.rows * R.rows := by
      simpa [length_pairs] using (List.getElem?_eq_some_iff.1 hp).1
    refine paired_of_cases ?_ (fun t ht ↦ hcases t ?_) (hdecided _ ?_)
    · rw [length_append, h.left.length_line hl, h.right.length_line hr, hline]
    · exact mem_flatMap.2 ⟨_, mem_zipIdx_joinedRows.2 ⟨p, hp, rfl⟩, ht⟩
    · exact mem_map.2 ⟨n, mem_range.2 hn, rfl⟩
  have halone (i : Nat) (hi : i < L.rows) : I.Alone L R O reading i (L.rows * R.rows + i) := by
    refine alone_of_cases ?_
      (fun t ht ↦ hextras t (mem_flatMap.2 ⟨i, mem_range.2 hi, ht⟩)) (fun b hb ↦ ?_) fun j hj ↦ ?_
    · rw [hline, padded, length_append, length_map, length_replicate, h.left.length_line hi]
    · obtain ⟨j, hj⟩ := mem_pairsOf.1 hb
      exact ⟨j, (mem_pairs.1 (mem_of_getElem? hj)).2, hpaired b _ hj⟩
    · obtain ⟨n, hn, hget⟩ := getElem_of_mem (mem_pairs.2 ⟨hi, hj⟩ : (i, j) ∈ Sides.pairs L.rows R.rows)
      have hget := getElem?_eq_some_iff.2 ⟨hn, hget⟩
      exact ⟨n, mem_pairsOf.2 ⟨j, hget⟩, hpaired n _ hget⟩
  rw [← length_pairs] at halone hroom ⊢
  exact entries_outer hpaired halone hroom

/-- A row that is not there cannot be filled. -/
theorem extraCopies_fails {s : Sides} {O : Shape} {v' : Workspace} {side : Int} {ts : List Term}
    (hs : Describes s L R O) (hrows : (v.database.rowsOf O.id).size ≤ row)
    (hcols : L.columns ++ R.columns ≠ []) : ¬ Gives (s.extraCopies side i row) v ts v' := by
  intro hg
  have hne : s.sources ≠ [] := by
    rw [hs.sources]
    simpa using hcols
  rw [Sides.extraCopies] at hg
  cases hsources : s.sources with
  | nil => exact hne hsources
  | cons x xs =>
    rw [hsources, zipIdx_cons, mapM_cons] at hg
    simp only [bind_iff] at hg
    obtain ⟨_, _, ⟨_, _, hcell, -⟩, -⟩ := hg
    have := lt_size_of_cell? hcell
    rw [(ofTable_ok_iff.1 hs.output).1] at this
    omega

theorem size_quiet (id : Int) (n : Nat) : Quiet fun v ↦ (v.database.rowsOf id).size = n where
  catalog h _ := h
  touch _ h := by rwa [rowsOf_touch]
  codes _ h := h
  approximations _ h := h
  subqueries _ h := h
  nextReader _ h := h

/-- The extra rows of a left join do not fit if one of them is beyond the rows of the result. -/
theorem extras_fails {s : Sides} {O : Shape} {joined : List JoinedPair} {rows : List Nat} {n : Nat}
    (hs : Describes s L R O) (hcols : L.columns ++ R.columns ≠ []) (hi : i ∈ rows) (hn : n ≤ joined.length + i)
    {v' : Workspace} {ts : List Term}
    (hv : (v.database.rowsOf O.id).size = n) : ¬ Gives (extras s joined rows) v ts v' := by
  induction rows generalizing v ts v' with
  | nil => cases hi
  | cons j rows ih =>
    intro hg
    simp only [extras, bind_iff] at hg
    obtain ⟨_, u, hcopies, _, _, hrest, -⟩ := hg
    obtain rfl | hi := mem_cons.1 hi
    · exact extraCopies_fails hs (hv.trans_le hn) hcols hcopies
    · have hu := (extraCopies_keeps (size_quiet O.id n) s _ _ _ hv hcopies).1
      exact ih hi hu hrest

/-- A computation goes on from what its first step gives. -/
theorem Gives.bind_iff_of {x : Encoding α} {f : α → Encoding β} {u w' : Workspace} {a : α} {b : β}
    (h : Gives x u a v) : Gives (x >>= f) u b w' ↔ Gives (f a) v b w' := by
  rw [bind_iff]
  constructor
  · rintro ⟨_, _, hx, hf⟩
    obtain ⟨rfl, rfl⟩ := h.unique hx
    exact hf
  · exact fun hf ↦ ⟨a, v, h, hf⟩

theorem nested_chain (depth : Nat) (v : Workspace) (o : Option Int) (n : Node) :
    Guards (Chain v) (Query.nested depth o n) :=
  Chain.route.nested depth v o n (Node.everywhere_of_forall (fun _ ↦ trivial) n)

section Join

variable {depth : Nat} (h : Joinable w left right L R r cond) (hkind : Kind.ofName r.kind = .ok kind)
  (htotal : kind.bound (.int L.rows) (.int R.rows) = .ok (.int total))
  (hread : Reads (Query.nested depth) w left right L R r (.int k) cond reading w₂ w₃)
include h hkind htotal hread

theorem leftJoin_iff (hroom : L.rows * R.rows ≤ total) : ∃ (output : Nat) (cut : Option Nat) (O : Shape) (s : Sides),
      Arranged w₃ left right output L R O ∧ O.rows = total ∧ Describes s L R O ∧
      (L.columns ++ R.columns ≠ [] → O.id ≤ w₂.lastTable ∧ (w₂.database.rowsOf O.id).size = total) ∧
      (∀ c, cut = some c → ∃ C : Shape, Lies w₃ c C.sheet ∧ C.columns = O.columns ∧ C.rows = k.toNat) ∧
      ∀ out w', Gives (leftJoin (Query.nested depth) left right r (.int k)) w out w' ↔ Gives (do
          let more ← extras s (joinedRows L R O reading) (List.range L.rows)
          settle output cut (.int k) r.label (presence O.id) (present O.id)
            (cases L.id R.id O.id (joinedRows L R O reading))
            (allDecided O.id (joinedRows L R O reading).length ++ more)) w₃ out w' := by
  obtain ⟨output, cut, O, w₁, hmake, harr, rfl, hsize, hcut⟩ := makeResult_gives h hkind htotal k
  obtain ⟨x, w₁', reader, hmake', hreader, hreads⟩ := hread
  obtain ⟨rfl, rfl⟩ := hmake.unique hmake'
  obtain ⟨s, hsides, hs⟩ := sides_gives harr
  have hnew := newReader_gives hreader
  have harr₂ := harr.later hnew
  have hkeep (i j : Nat) : Guards (Chain w₂) (Expression.truthAtPair (Query.nested depth) left right i j reader cond) :=
    (Expression.truthAtPair_keeps (p := fun _ ↦ True) (N := fun _ ↦ True) Chain.passage.quiet .always
      ⟨fun _ _ ↦ trivial, fun _ _ ↦ ⟨trivial, trivial⟩, fun _ ↦ trivial, fun _ _ ↦ trivial⟩
      (fun o n _ ↦ nested_chain depth w₂ o n) left right i j reader trivial).imp fun _ _ ↦ trivial
  obtain ⟨hpairs, hlast⟩ := readPairs_gives harr₂ hs hkeep 0 (fun p hp ↦ mem_pairs.1 hp)
    (by rw [length_pairs]; omega) (Chain.refl w₂) hreads
  refine ⟨output, cut, O, s, harr₂.later hlast, rfl, hs, fun hne ↦ ⟨harr₂.output.used, ?_⟩, fun c hc ↦ ?_,
    fun out w' ↦ ?_⟩
  · exact ((size_quiet O.id O.rows).newReader_keeps (hsize hne) hreader).1
  · obtain ⟨C, hC, hcols⟩ := hcut c hc
    exact ⟨C, (hnew.trans hlast).lies hC, hcols⟩
  · obtain ⟨hl, hlrows, -⟩ := ofTable_ok_iff.1 hs.left
    obtain ⟨hr, hrrows, -⟩ := ofTable_ok_iff.1 hs.right
    rw [leftJoin, bind_iff_of hmake, bind_iff_of hsides, bind_iff_of hreader,
      bind_iff_of (lift_iff.2 ⟨hlrows, rfl⟩), bind_iff_of (lift_iff.2 ⟨hrrows, rfl⟩),
      bind_iff_of hpairs, hl, hr, (ofTable_ok_iff.1 hs.output).1]
    rfl

/-- A left join succeeds if its result has room for the pairs and for the rows of the left table. The rows of
the result that are there are those of the outer join, and what is in the rows beyond. -/
theorem leftJoin_gives (hroom : L.rows * R.rows + L.rows ≤ total) :
    ∃ (out : Nat) (w' : Workspace) (s : Shape) (ts : List (Term × Option String)),
      Gives (leftJoin (Query.nested depth) left right r (.int k)) w out w' ∧
      ofTable (w'.catalog.table out) = .ok s ∧ w'.formulas = w₃.formulas.add ts ∧
      ∀ I : Interpretation, (∀ t ∈ ts, I.Holds t.1) →
        ∃ rest : List Record, rest.length ≤ total - (L.rows * R.rows + L.rows) ∧
          I.entries s.sheet = I.matching L R (fun i j ↦ I.met (reading (i, j))) ++
            I.unmatched L R (fun i j ↦ I.met (reading (i, j))) ++ rest := by
  obtain ⟨output, cut, O, s, harr, rfl, hs, -, hcut, hiff⟩ := leftJoin_iff h hkind htotal hread (by omega)
  have hrange : ∀ i ∈ List.range L.rows, i < L.rows ∧ (joinedRows L R O reading).length + i < O.rows := by
    intro i hi
    rw [mem_range] at hi
    rw [length_joinedRows]
    omega
  obtain ⟨out, t, ts, hsettle, ht, hholds⟩ := settle_gives r.label (presence O.id) (present O.id)
    (cases L.id R.id O.id (joinedRows L R O reading))
    (allDecided O.id (joinedRows L R O reading).length ++ extraFormulas L R O reading) harr.output harr.columns hcut
  refine ⟨out, { w₃ with formulas := w₃.formulas.add ts }, t, ts, (hiff out _).2 ?_, ht.shape, rfl, fun I hI ↦ ?_⟩
  · exact (bind_iff_of (extras_gives harr hs _ hrange)).2 hsettle
  · obtain ⟨hformulas, hentries⟩ := hholds I hI
    simp only [mem_append, or_imp, forall_and] at hformulas
    rw [hentries (I.weighs_presence O)]
    exact entries_leftJoin harr hroom hformulas.1 hformulas.2.1 hformulas.2.2

theorem leftJoin_fails (hroom : L.rows * R.rows ≤ total) (hfull : total < L.rows * R.rows + L.rows)
    (hcols : L.columns ++ R.columns ≠ [])
    (hrows : ∀ id ≤ w₂.lastTable, w₃.database.rowsOf id = w₂.database.rowsOf id) (out : Nat) (w' : Workspace) :
    ¬ Gives (leftJoin (Query.nested depth) left right r (.int k)) w out w' := by
  obtain ⟨output, cut, O, s, harr, rfl, hs, hsize, hcut, hiff⟩ := leftJoin_iff h hkind htotal hread hroom
  obtain ⟨hused, hsize⟩ := hsize hcols
  rw [← hrows _ hused] at hsize
  rw [hiff, bind_iff]
  rintro ⟨_, _, hextras, -⟩
  refine extras_fails hs hcols (mem_range.2 (by omega : O.rows - L.rows * R.rows < L.rows)) ?_ hsize hextras
  rw [length_joinedRows]
  omega

end Join

theorem bound_left (m n : Nat) : Kind.bound .left (.int m) (.int n) = .ok (.int (m * n + m : Nat)) := by
  push_cast
  rfl

theorem bound_right (m n : Nat) : Kind.bound .right (.int m) (.int n) = .ok (.int (m * n + n : Nat)) := by
  push_cast
  rfl

/-- A left join of two tables, where the condition can be read at all pairs, succeeds. In every interpretation of the
formulas that it adds, the rows of its result that are there are those of the left outer join. -/
theorem leftJoin_bag {depth : Nat} (h : Joinable w left right L R r cond) (hkind : Kind.ofName r.kind = .ok .left)
    (hread : Reads (Query.nested depth) w left right L R r (.int k) cond reading w₂ w₃) :
    ∃ (out : Nat) (w' : Workspace) (s : Shape) (ts : List (Term × Option String)),
      Gives (Query.joinBy (Query.nested depth) .left left right r (.int k)) w out w' ∧
      Shape.ofTable (w'.catalog.table out) = .ok s ∧ w'.formulas = w₃.formulas.add ts ∧
      ∀ I : Interpretation, (∀ t ∈ ts, I.Holds t.1) →
        I.bag s = I.leftOuter L R fun i j ↦ I.met (reading (i, j)) := by
  obtain ⟨out, w', s, ts, hgives, hshape, hadded, hentries⟩ :=
    leftJoin_gives h hkind (bound_left L.rows R.rows) hread le_rfl
  refine ⟨out, w', s, ts, hgives, hshape, hadded, fun I hI ↦ ?_⟩
  obtain ⟨rest, hrest, heq⟩ := hentries I hI
  -- There is a row for every pair and for every left row, and no other.
  obtain rfl : rest = [] := length_eq_zero_iff.1 (by omega)
  rw [I.bag_eq_entries, heq, append_nil, leftOuter, Multiset.coe_add]

/-- A right join of two tables, where the condition can be read at all pairs. If the right table has no more
rows than the left one, the join succeeds, and in every interpretation of the formulas the rows of its result
that are there are those of the right outer join together with at most as many others as the left table has
rows more. If the right table has more rows, the join fails, unless reading the condition adds rows. -/
theorem rightJoin_bag {depth : Nat} (h : Joinable w right left R L r cond)
    (hkind : Kind.ofName r.kind = .ok .right)
    (hread : Reads (Query.nested depth) w right left R L r (.int k) cond reading w₂ w₃) :
    (R.rows ≤ L.rows → ∃ (out : Nat) (w' : Workspace) (s : Shape),
      Gives (Query.joinBy (Query.nested depth) .right left right r (.int k)) w out w' ∧
      Shape.ofTable (w'.catalog.table out) = .ok s ∧
      ∀ I : Interpretation, (∀ f ∈ w'.formulas.entries, I.Holds f.term) →
        ∃ rest : Multiset Record, rest.card ≤ L.rows - R.rows ∧
          I.bag s = I.rightOuter L R (fun i j ↦ I.met (reading (j, i))) + rest) ∧
    (L.rows < R.rows → L.columns ++ R.columns ≠ [] →
      (∀ id ≤ w₂.lastTable, w₃.database.rowsOf id = w₂.database.rowsOf id) → ∀ out w',
        ¬ Gives (Query.joinBy (Query.nested depth) .right left right r (.int k)) w out w') := by
  have htotal := bound_right R.rows L.rows
  refine ⟨fun hle ↦ ?_, fun hlt hcols hrows ↦ ?_⟩
  · obtain ⟨out, w', s, ts, hgives, hshape, hadded, hentries⟩ :=
      leftJoin_gives h hkind htotal hread (by omega)
    refine ⟨out, w', s, hgives, hshape, fun I hI ↦ ?_⟩
    obtain ⟨rest, hrest, heq⟩ := hentries I (Formulas.holds_of_add (hadded ▸ hI)).1
    refine ⟨rest, ?_, ?_⟩
    · rw [Multiset.coe_card]
      omega
    · rw [I.bag_eq_entries, heq, rightOuter, Multiset.coe_add, Multiset.coe_add]
  · refine leftJoin_fails h hkind htotal hread (by omega) (by omega) ?_ hrows
    simpa [and_comm] using hcols

end Joins

/-- Different members of a list can be given any values. -/
private theorem exists_map_eq [DecidableEq α] [Inhabited β] {ps : List α} {rs : List β} (hps : ps.Nodup)
    (hlen : rs.length = ps.length) : ∃ f : α → β, ps.map f = rs := by
  refine ⟨fun p ↦ (rs[ps.idxOf p]?).getD default, ext_getElem (by simpa using hlen.symm) fun n h₁ h₂ ↦ ?_⟩
  rw [getElem_map, hps.idxOf_getElem, getElem?_eq_getElem h₂, Option.getD_some]

theorem exists_reads {sub : Expression.Subquery} {w w₁ w₂ : Workspace} {left right : Nat} {L R : Sheet} {r : Request}
    {k : Value} {cond : Node} {x : Node × Nat × Option Nat} {reader : Nat}
    (hmake : Gives (makeResult left right r k) w x w₁) (hreader : Gives newReader w₁ reader w₂)
    (hlen : ((exec ((Sides.pairs L.rows R.rows).mapM fun p ↦
      Expression.truthAtPair sub left right p.1 p.2 reader cond) w₂).1.toOption).map List.length =
        some (L.rows * R.rows)) : ∃ reading, Reads sub w left right L R r k cond reading w₂
      (exec ((Sides.pairs L.rows R.rows).mapM fun p ↦
        Expression.truthAtPair sub left right p.1 p.2 reader cond) w₂).2 := by
  obtain ⟨rs, hrs, hlen⟩ := Option.map_eq_some_iff.1 hlen
  have : Inhabited Reading := ⟨(.zero, .zero)⟩
  have hnodup : (Sides.pairs L.rows R.rows).Nodup := nodup_range.product nodup_range
  obtain ⟨reading, rfl⟩ := exists_map_eq hnodup (hlen.trans (length_pairs _ _).symm)
  exact ⟨reading, x, w₁, reader, hmake, hreader, .of_toOption hrs⟩

/-- A table with room for two rows, and one with room for one. -/
def unevenSides : Workspace where
  catalog := { tables := #[
    { id := 0, name := .str "a", bound := .int 2, columns := [.computed 0 (.str "x") .null] },
    { id := 1, name := .str "b", bound := .int 1, columns := [.computed 0 (.str "y") .null] }] }
  database := { rows := [(0, #[#[some ⟨0, 0, 0⟩], #[some ⟨0, 1, 0⟩]]), (1, #[#[some ⟨1, 0, 0⟩]])] }
  lastTable := 1

def wideSide : Sheet := Shape.sheet ⟨0, 2, [0]⟩

def narrowSide : Sheet := Shape.sheet ⟨1, 1, [0]⟩

/-- The right join on the equality of the two columns. -/
def onEqual : Request where
  label := some "join$1"
  kind := .str "right join"
  cond := .expression (.str "eq") [.attr "x", .attr "y"] .null
  shared := .missing

def leftOnEqual : Request := { onEqual with kind := .str "left join" }

theorem wideSide_lies : Lies unevenSides 0 wideSide := by
  refine ⟨by decide, by decide, rfl, fun i hi ↦ ?_⟩
  obtain rfl | rfl : i = 0 ∨ i = 1 := by
    change i < 2 at hi
    omega
  · exact .cons rfl .nil
  · exact .cons rfl .nil

theorem narrowSide_lies : Lies unevenSides 1 narrowSide := by
  refine ⟨by decide, by decide, rfl, fun i hi ↦ ?_⟩
  obtain rfl : i = 0 := by
    change i < 1 at hi
    omega
  exact .cons rfl .nil

theorem unevenSides_unused : Unused unevenSides := fun id hid ↦ by
  have hid : 1 < id := hid
  have hwide : (id == 0) = false := beq_eq_false_iff_ne.2 (by omega)
  have hnarrow : (id == 1) = false := beq_eq_false_iff_ne.2 (by omega)
  simp [rowsOf, unevenSides, List.lookup, hwide, hnarrow]

/-- Where the result of a join of the two tables is made. -/
def joinMade (r : Request) (left right : Nat) : Workspace := (exec (makeResult left right r (.int 2)) unevenSides).2

def joinReady (r : Request) (left right : Nat) : Workspace := (exec newReader (joinMade r left right)).2

def joinRead (r : Request) (left right : Nat) (L R : Sheet) : Encoding (List Reading) :=
  (Sides.pairs L.rows R.rows).mapM fun p ↦ Expression.truthAtPair (Query.nested 3) left right p.1 p.2 0 r.cond

theorem joinRead_reads (r : Request) (left right : Nat) (L R : Sheet)
    (hmake : (exec (makeResult left right r (.int 2)) unevenSides).1.toOption.isSome)
    (hreader : (exec newReader (joinMade r left right)).1.toOption = some 0)
    (hlen : (exec (joinRead r left right L R) (joinReady r left right)).1.toOption.map List.length =
      some (L.rows * R.rows)) : ∃ reading, Reads (Query.nested 3) unevenSides left right L R r (.int 2) r.cond reading
      (joinReady r left right) (exec (joinRead r left right L R) (joinReady r left right)).2 := by
  obtain ⟨x, hx⟩ := Option.isSome_iff_exists.1 hmake
  exact exists_reads (.of_toOption hx) (.of_toOption hreader) hlen

/-- The left join of the wide table with the narrow one, whose result is cut down from four rows to two. -/
theorem unevenSides_leftJoin :
    ∃ (reading : Nat × Nat → Reading) (out : Nat) (w' : Workspace) (s : Shape) (ts : List (Term × Option String)),
      Gives (Query.joinBy (Query.nested 3) .left 0 1 leftOnEqual (.int 2)) unevenSides out w' ∧
      Shape.ofTable (w'.catalog.table out) = .ok s ∧
      w'.formulas = (exec (joinRead leftOnEqual 0 1 wideSide narrowSide) (joinReady leftOnEqual 0 1)).2.formulas.add ts ∧
      ∀ I : Interpretation, (∀ t ∈ ts, I.Holds t.1) →
        I.bag s = I.leftOuter wideSide narrowSide fun i j ↦ I.met (reading (i, j)) := by
  have hsides : Joinable unevenSides 0 1 wideSide narrowSide leftOnEqual leftOnEqual.cond :=
    ⟨wideSide_lies, narrowSide_lies, rfl, rfl, by decide, unevenSides_unused, rfl, _, rfl⟩
  obtain ⟨reading, hread⟩ := joinRead_reads leftOnEqual 0 1 wideSide narrowSide (by decide +kernel)
    (by decide +kernel) (by decide +kernel)
  exact ⟨reading, leftJoin_bag hsides rfl hread⟩

/-- The right join of a table with a smaller one is made, and that with a larger one fails. -/
theorem unevenSides_rightJoin :
    (∃ (reading : Nat × Nat → Reading) (out : Nat) (w' : Workspace) (s : Shape),
      Gives (Query.joinBy (Query.nested 3) .right 0 1 onEqual (.int 2)) unevenSides out w' ∧
      Shape.ofTable (w'.catalog.table out) = .ok s ∧
      ∀ I : Interpretation, (∀ f ∈ w'.formulas.entries, I.Holds f.term) →
        ∃ rest : Multiset Record, rest.card ≤ 1 ∧
          I.bag s = I.rightOuter wideSide narrowSide (fun i j ↦ I.met (reading (j, i))) + rest) ∧
    ∀ out w', ¬ Gives (Query.joinBy (Query.nested 3) .right 1 0 onEqual (.int 2)) unevenSides out w' := by
  have hsmall : Joinable unevenSides 1 0 narrowSide wideSide onEqual onEqual.cond :=
    ⟨narrowSide_lies, wideSide_lies, rfl, rfl, by decide, unevenSides_unused, rfl, _, rfl⟩
  have hlarge : Joinable unevenSides 0 1 wideSide narrowSide onEqual onEqual.cond :=
    ⟨wideSide_lies, narrowSide_lies, rfl, rfl, by decide, unevenSides_unused, rfl, _, rfl⟩
  constructor
  · obtain ⟨reading, hread⟩ := joinRead_reads onEqual 1 0 narrowSide wideSide (by decide +kernel) (by decide +kernel)
      (by decide +kernel)
    obtain ⟨hgives, -⟩ := rightJoin_bag hsmall rfl hread
    exact ⟨reading, hgives (by decide)⟩
  · obtain ⟨reading, hread⟩ := joinRead_reads onEqual 0 1 wideSide narrowSide (by decide +kernel) (by decide +kernel)
      (by decide +kernel)
    have hsame : (exec (joinRead onEqual 0 1 wideSide narrowSide) (joinReady onEqual 0 1)).2.database.rows =
        (joinReady onEqual 0 1).database.rows := by decide +kernel
    obtain ⟨-, hfails⟩ := rightJoin_bag hlarge rfl hread
    refine hfails (by decide) (by decide) fun id _ ↦ ?_
    rw [rowsOf, rowsOf, hsame]

end QueryEquiv
