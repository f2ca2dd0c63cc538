import QueryEquiv.Proofs.OuterJoins
import QueryEquiv.Proofs.Stages

/-!
# Results without duplicates

An elimination of duplicates goes through the rows from the first to the last, and compares a row with the
earlier rows that it has kept. So the rows that it keeps are the first of their kinds (`deduplicated_of_holds`),
and each record of the table is in the result once (`Deduplicated.bag_eq`). Conversely the rows can always be
chosen so (`exists_deduplicated`).

Rows are compared in the columns that are counted from zero on, so the table has to have these columns.
-/

namespace QueryEquiv

open List Operator Operator.Distinct Results Workspace Shape

/-- The rows of a table are copied to another one, each to its place. -/
def Results.Shape.copiesTo (s t : Shape) : List (List Term) :=
  (List.range s.rows).map fun row ↦ List.zipWith Cell.copies (s.sheet.line row) (t.sheet.line row)

namespace Interpretation

variable (I : Interpretation)

abbrev There (s : Shape) (row : Nat) : Prop := I.deleted s.id row = false

/-- A table has the rows of another one that are the first of their kinds, each in its place. -/
structure Deduplicated (s t : Shape) : Prop where
  there : ∀ row < s.rows, I.There t row ↔ I.There s row ∧ ∀ e < row, I.There s e → I.record s e ≠ I.record s row
  record : ∀ row < s.rows, I.There t row → I.record t row = I.record s row

variable {I} {s t : Shape} {width row : Nat}

/-- Each record of the table is in the result, and it is there once. -/
theorem Deduplicated.bag_eq (h : I.Deduplicated s t) (hrows : t.rows = s.rows) : I.bag t = (I.bag s).dedup := by
  have hmem {row : Nat} : row ∈ I.rowsThere t ↔ row < s.rows ∧ FirstOf (I.There s) (I.record s) row := by
    rw [mem_rowsThere, hrows]
    exact and_congr_right (h.there row)
  have hrecord {row : Nat} (hrow : row ∈ I.rowsThere t) : I.record t row = I.record s row := by
    rw [mem_rowsThere, hrows] at hrow
    exact h.record row hrow.1 hrow.2
  refine (Multiset.Nodup.ext (Multiset.Nodup.map_on (fun i hi j hj hij ↦ ?_) ?_) (Multiset.nodup_dedup _)).2 fun a ↦ ?_
  · -- Of two rows with the same record the later one is not the first of its kind.
    rw [hrecord hi, hrecord hj] at hij
    obtain ⟨-, hi, hifirst⟩ := hmem.1 hi
    obtain ⟨-, hj, hjfirst⟩ := hmem.1 hj
    rcases lt_trichotomy i j with hlt | heq | hlt
    · exact absurd hij (hjfirst i hlt hi)
    · exact heq
    · exact absurd hij.symm (hifirst j hlt hj)
  · exact Multiset.coe_nodup.2 (nodup_range.filter _)
  · rw [Multiset.mem_dedup, bag, Multiset.mem_map, Multiset.mem_map]
    constructor
    · rintro ⟨row, hrow, rfl⟩
      obtain ⟨hlt, hthere, -⟩ := hmem.1 hrow
      exact ⟨row, I.mem_rowsThere.2 ⟨hlt, hthere⟩, (hrecord hrow).symm⟩
    · rintro ⟨row, hrow, rfl⟩
      obtain ⟨hlt, hthere⟩ := I.mem_rowsThere.1 hrow
      obtain ⟨g, hg, hfirst, hsame⟩ : ∃ g ≤ row, FirstOf (I.There s) (I.record s) g ∧ _ := exists_firstOf hthere
      have hgmem := hmem.2 ⟨hg.trans_lt hlt, hfirst⟩
      exact ⟨g, hgmem, (hrecord hgmem).trans hsame⟩

/-! ## What the formula says -/

theorem holds_sameRow (hcols : s.columns = upTo width) (i j : Nat) :
    I.Holds (Distinct.sameRow s.id width i j) ↔ I.record s i = I.record s j := by
  rw [record, record, hcols, upTo, map_map, map_map, map_inj_left, Distinct.sameRow, holds_and, forall_mem_map]
  refine forall₂_congr fun c _ ↦ ?_
  exact I.holds_sameCell (s.id, i, c) (s.id, j, c)

/-- A row is kept if no row that was kept before has the same record. -/
theorem holds_rowCases (hcols : s.columns = upTo width) {copies : List Term} :
    (∀ c ∈ rowCases s.id t.id width row copies, I.Holds c) ↔
      (I.choice t.id row = 1 → I.There s row ∧ (∀ e < row, I.There t e → I.record s e ≠ I.record s row) ∧
        (∀ c ∈ copies, I.Holds c) ∧ I.There t row) ∧
      (I.choice t.id row = 0 → (I.deleted s.id row = true ∨ I.There s row ∧
        ∃ e < row, I.There t e ∧ I.record s e = I.record s row) ∧ I.deleted t.id row = true) := by
  have hearlier (e : Nat) : I.Holds (.and [present t.id e, Distinct.sameRow s.id width row e]) ↔
      I.There t e ∧ I.record s e = I.record s row := by
    rw [holds_and₂, holds_present, holds_sameRow hcols, @eq_comm _ (I.record s e)]
  rw [rowCases, holds_cases]
  refine and_congr (imp_congr_right fun _ ↦ ?_) (imp_congr_right fun _ ↦ ?_)
  · rw [forall_mem_cons, forall_mem_cons, forall_mem_cons, forall_mem_singleton, holds_present,
      holds_and, holds_present]
    refine and_congr_right' (and_congr_left' ((holds_noEarlier _ _).trans (forall₂_congr fun e _ ↦ ?_)))
    rw [hearlier, not_and]
  · rw [forall_mem_cons, forall_mem_singleton, holds_absent, holds_or₂, holds_absent, holds_and₂, holds_present]
    refine and_congr_left' ?_
    exact or_congr_right (and_congr_right' ((holds_earlier _ _).trans (exists_congr fun e ↦ by rw [hearlier])))

theorem holds_distinct_iff (s t : Shape) : I.Holds (formula s.id t.id width (s.copiesTo t)) ↔
      (∀ row < s.rows, ∀ c ∈ rowCases s.id t.id width row
        (List.zipWith Cell.copies (s.sheet.line row) (t.sheet.line row)), I.Holds c) ∧
      ∀ b < s.rows, I.choice t.id (b : Nat) = 1 ∨ I.choice t.id (b : Nat) = 0 := by
  rw [formula, holds_and, forall_mem_append, forall_mem_flatMap, forall_mem_zipIdx, holds_allDecided]
  refine and_congr ⟨fun h row hrow ↦ h row _ (by simp [copiesTo, hrow]), fun h i cs hcs ↦ ?_⟩ ?_
  · obtain ⟨hlt, rfl⟩ := List.getElem?_eq_some_iff.1 hcs
    simpa [copiesTo] using h i (by simpa [copiesTo] using hlt)
  · simp [copiesTo]

theorem deduplicated_of_holds (hs : s.columns = upTo width) (ht : t.columns = s.columns)
    (h : I.Holds (formula s.id t.id width (s.copiesTo t))) : I.Deduplicated s t := by
  obtain ⟨hcases, hdecided⟩ := (holds_distinct_iff s t).1 h
  constructor
  · intro row hrow
    refine kept_iff_firstOf (fun row hrow ↦ ?_) hrow
    obtain ⟨hkept, hdropped⟩ := (holds_rowCases hs).1 (hcases row hrow)
    rcases hdecided row hrow with hone | hzero
    · obtain ⟨hthere, hnew, -, hout⟩ := hkept hone
      exact iff_of_true hout ⟨hthere, hnew⟩
    · obtain ⟨hreason, hout⟩ := hdropped hzero
      refine iff_of_false (by simp [There, hout]) fun ⟨hthere, hnew⟩ ↦ ?_
      obtain habsent | ⟨-, e, he, hkept, hsame⟩ := hreason
      · simp [There, habsent] at hthere
      · exact hnew e he hkept hsame
  · intro row hrow hthere
    obtain ⟨hkept, hdropped⟩ := (holds_rowCases hs).1 (hcases row hrow)
    rcases hdecided row hrow with hone | hzero
    · rw [← entry_sheet, ← entry_sheet]
      exact I.map_value_of_copies (by simp [sheet, ht]) (hkept hone).2.2.1
    · simp [There, (hdropped hzero).2] at hthere

open Classical in
/-- Whatever the rows of the table are, those that are first of their kinds can be kept. -/
theorem exists_deduplicated (hs : s.columns = upTo width) (ht : t.columns = s.columns) (hne : s.id ≠ t.id)
    (I : Interpretation) : ∃ J, I.AgreeOn (Term.Off t.id) J ∧ J.Holds (formula s.id t.id width (s.copiesTo t)) := by
  set first := FirstOf (I.There s) (I.record s)
  set J := I.laid s.id t.id fun row ↦ if first row then some row else none
  have hrecord : J.record s = I.record s := record_laid_of_ne hne
  have hinput (row : Nat) : J.deleted s.id row = I.deleted s.id row := deleted_laid_of_ne hne _
  have hthere (row : Nat) : J.There t row ↔ first row := by
    rw [There, deleted_laid]
    split <;> simp [*]
  have hchoice (row : Nat) : J.choice t.id row = if first row then 1 else 0 := by
    rw [choice_laid]
    split <;> rfl
  refine ⟨J, agreeOn_laid, (holds_distinct_iff s t).2 ⟨fun row _ ↦ (holds_rowCases hs).2 ?_, fun row _ ↦ ?_⟩⟩
  · simp only [hrecord, hthere, There, hinput, hchoice]
    by_cases hfirst : first row
    · refine ⟨fun _ ↦ ⟨hfirst.1, (firstOf_iff.1 hfirst).2, ?_, hfirst⟩, by simp [hfirst]⟩
      rw [sheet, sheet, ht]
      exact copies_laid hne (if_pos hfirst) _
    · refine ⟨by simp [hfirst], fun _ ↦ ⟨?_, by rw [← Bool.not_eq_false, ← There, hthere]; exact hfirst⟩⟩
      change ¬ FirstOf _ _ row at hfirst
      rw [firstOf_iff] at hfirst
      push Not at hfirst
      cases hrow : I.deleted s.id row with
      | true => exact .inl rfl
      | false => exact .inr ⟨rfl, hfirst hrow⟩
  · rw [hchoice]
    split <;> simp

end Interpretation

/-! ## The operator -/

/-- An elimination of duplicates from a table whose columns are counted from zero on adds a formula under the label
of its clause. Wherever it holds, a row of the result is there just if the row of the table is there and no earlier
row that is there has the same record, and it is a copy of that row; so the result has each record of the table
once. And any interpretation can be changed in the result so that the formula holds. -/
theorem distinct_dedup {input out width : Nat} {origin : Origin} {w w' : Workspace} {s : Shape}
    (hrun : Gives (Distinct.apply input origin) w out w') (hs : Lies w input s.sheet)
    (hcols : s.columns = upTo width) (hfree : Unused w) :
    ∃ (t : Shape) (label : Option String) (fs : Formulas) (f : Term),
      t = ⟨w.lastTable + 1, s.rows, s.columns⟩ ∧ Lies w' out t.sheet ∧ origin.distinct = some label ∧
      w'.formulas = fs.append f label ∧
      (∀ I : Interpretation, I.Holds f → I.Deduplicated s t ∧ I.bag t = (I.bag s).dedup) ∧
      ∀ I : Interpretation, ∃ J, I.AgreeOn (Term.Off t.id) J ∧ J.Holds f := by
  obtain ⟨label, rows, copies, v, u, hlabel, hrows, hcopies, hmade, -, rfl⟩ := distinct_gives Chain.passage.walk hrun
  obtain ⟨n, hn, hout, -⟩ := hmade.lies (hs.columns_eq.trans hcols) hfree
  obtain rfl : rows = s.rows := Except.ok.inj (hrows.symm.trans hs.rows_eq)
  obtain rfl : n = s.rows := Except.ok.inj (hn.symm.trans hs.rows_eq)
  rw [← hcols] at hout
  have hin := hmade.chain.lies hs
  have hcopied (row : Nat) (hrow : row ∈ List.range s.rows) :=
    copyRow_gives (hin.cells row (mem_range.1 hrow)) (hout.cells row (mem_range.1 hrow))
  obtain ⟨rfl, rfl⟩ := hcopies.unique (Gives.mapM_map (by rw [hs.id_eq, hs.columns_eq]; exact hcopied))
  have hwidth : (w.catalog.table input).columns.length = width := by
    simpa using congrArg List.length (hs.columns_eq.trans hcols)
  have hne : s.id ≠ w.lastTable + 1 := (hs.used.trans_lt (lt_add_one _)).ne
  rw [hs.id_eq, hwidth]
  refine ⟨⟨w.lastTable + 1, s.rows, s.columns⟩, label, _, _, rfl, ⟨hout.entered, hout.used, hout.shape, hout.cells⟩, hlabel,
    rfl, fun I hI ↦ ?_, Interpretation.exists_deduplicated hcols rfl hne⟩
  have h : I.Deduplicated s ⟨w.lastTable + 1, s.rows, s.columns⟩ := Interpretation.deduplicated_of_holds hcols rfl hI
  exact ⟨h, h.bag_eq rfl⟩

/-- Of two rows with one column the second is dropped if it repeats the first. -/
theorem wideSide_distinct : ∃ w' fs f, Gives (Distinct.apply 0 { distinct := some none }) unevenSides 2 w' ∧
    w'.formulas = Formulas.append fs f none ∧
    (∀ I : Interpretation, I.Holds f → I.bag ⟨2, 2, [0]⟩ = (I.bag ⟨0, 2, [0]⟩).dedup) ∧
    ∀ I : Interpretation, ∃ J, I.AgreeOn (Term.Off 2) J ∧ J.Holds f := by
  have hrun : (exec (Distinct.apply 0 { distinct := some none }) unevenSides).1.toOption = some 2 := by decide +kernel
  obtain ⟨_, _, fs, f, rfl, -, hlabel, hformulas, hholds, hexists⟩ :=
    distinct_dedup (s := ⟨0, 2, [0]⟩) (.of_toOption hrun) wideSide_lies (rfl : _ = upTo 1) unevenSides_unused
  obtain rfl := Option.some.inj hlabel
  exact ⟨_, fs, f, .of_toOption hrun, hformulas, fun I hI ↦ (hholds I hI).2, hexists⟩

end QueryEquiv
