import QueryEquiv.Proofs.Sheets

/-!
# Cutting down results

A result that may have more rows than are wanted is cut down to a smaller table. In an interpretation of
the formulas the smaller table has the rows that are there, in the same order (`Compacted`): a row goes
into the slot whose number is the number of rows before it, and slots behind the last row stay empty.
-/

namespace QueryEquiv

open Gives List Operator Results Workspace

/-- A member of a filtered range has as many members before it as its position says. -/
private theorem countP_range_of_filter {p : Nat → Bool} {n s r : Nat}
    (h : ((List.range n).filter p)[s]? = some r) : r < n ∧ p r = true ∧ (List.range r).countP p = s := by
  induction n with
  | zero => simp at h
  | succ n ih =>
    rw [range_succ, filter_append] at h
    by_cases hs : s < ((List.range n).filter p).length
    · rw [getElem?_append_left hs] at h
      obtain ⟨hr, hp, hc⟩ := ih h
      exact ⟨by omega, hp, hc⟩
    · rw [getElem?_append_right (by omega)] at h
      -- Only the last number of the range is left.
      obtain ⟨hmem, hp⟩ := mem_filter.1 (mem_of_getElem? h)
      obtain rfl := mem_singleton.1 hmem
      have hzero : s - ((List.range r).filter p).length = 0 := by
        have := (List.getElem?_eq_some_iff.1 h).1
        simpa [hp] using this
      refine ⟨by omega, hp, ?_⟩
      rw [countP_eq_length_filter]
      omega

private theorem filter_lt_range {m n : Nat} (h : m ≤ n) :
    (List.range n).filter (fun i ↦ decide (i < m)) = List.range m := by
  obtain ⟨d, rfl⟩ := Nat.exists_eq_add_of_le h
  rw [range_add, filter_append, filter_eq_self.2 (by simp),
    filter_eq_nil_iff.2 (by simp), append_nil]

namespace Interpretation

variable (I : Interpretation)

/-- The terms that count the rows of a table say which rows are there. -/
structure Weighs (s : Shape) (weight counts : Nat → Term) : Prop where
  weight : ∀ row < s.rows, I.eval (weight row) = if I.deleted s.id row then 0 else 1
  counts : ∀ row < s.rows, I.Holds (counts row) ↔ I.deleted s.id row = false

theorem weighs_presence (s : Shape) : I.Weighs s (presence s.id) (present s.id) where
  weight row _ := by simp [presence]
  counts row _ := I.holds_present s.id row

variable {I}

theorem Weighs.eval_sum {s : Shape} {weight counts : Nat → Term} (h : I.Weighs s weight counts) {n : Nat}
    (hn : n ≤ s.rows) :
    I.eval (.sum ((List.range n).map weight)) = (List.range n).countP fun (row : Nat) ↦ !I.deleted s.id row := by
  rw [Interpretation.eval_sum]
  induction n with
  | zero => rfl
  | succ n ih =>
    rw [range_succ, map_append, map_append, sum_append, ih (by omega),
      countP_append]
    simp [h.weight n (by omega)]
    cases I.deleted s.id n <;> simp

variable (I) in
/-- A table has the rows of another one that are there, in order and before any other row. They are no more than
wanted. -/
structure Compacted (full cut : Sheet) (k : Int) : Prop where
  fits : ((I.rowsThere full.toShape).length : Int) ≤ k
  there : I.rowsThere cut.toShape = List.range (I.rowsThere full.toShape).length
  entries : I.entries cut = I.entries full

end Interpretation

/-- The rows of a table are moved into a smaller one. -/
structure Operator.Compaction.Moves (c : Compaction) (s t : Sheet) (weight counts : Nat → Term) : Prop where
  cut : c.cut = t.id
  rows : c.rows = s.rows
  slots : c.slots = t.rows
  weighs : c.weight = weight
  chosen : c.counts = counts
  copies : ∀ slot < t.rows, ∀ row < s.rows, c.copies slot row = List.zipWith Cell.copies (s.line row) (t.line slot)
  length : ∀ slot < t.rows, ∀ row < s.rows, (s.line row).length = (t.line slot).length

namespace Interpretation

variable {I : Interpretation} {c : Compaction} {full cut : Sheet} {k : Int} {weight counts : Nat → Term}

theorem eval_compaction_size (hc : c.Moves full cut weight counts) (hw : I.Weighs full.toShape weight counts) :
    I.eval c.size = (I.rowsThere full.toShape).length := by
  rw [Compaction.size, hc.rows, hc.weighs, hw.eval_sum le_rfl, rowsThere, countP_eq_length_filter]

/-- A table that another one is cut down to has the rows that are there, in order. -/
theorem compacted_of_cases (hc : c.Moves full cut weight counts) (hw : I.Weighs full.toShape weight counts)
    (hk : cut.rows = k.toNat) (hfits : I.Holds (c.fits (.int k))) (hcases : ∀ t ∈ c.cases, I.Holds t) :
    I.Compacted full cut k := by
  have hsize := eval_compaction_size hc hw
  rw [Compaction.fits, holds_le, hsize, eval_int] at hfits
  have hfit : (I.rowsThere full.toShape).length ≤ cut.rows := by omega
  -- What the formulas say of a slot.
  have hslot (slot : Nat) (hs : slot < cut.rows) :
      ((I.rowsThere full.toShape).length ≥ slot + 1 → I.deleted cut.id slot = false ∧
        ∀ row < full.rows, I.deleted full.id row = false →
          (List.range row).countP (fun (r : Nat) ↦ !I.deleted full.id r) = slot →
          I.entry cut slot = I.entry full row) ∧
      (¬ (I.rowsThere full.toShape).length ≥ slot + 1 → I.deleted cut.id slot = true) := by
    have hmem (t : Term) (ht : t ∈ c.slotCases slot) : I.Holds t :=
      hcases t (mem_flatMap.2 ⟨slot, by simpa [hc.slots] using hs, ht⟩)
    simp only [Compaction.slotCases, forall_mem_cons, holds_implies, holds_not, holds_ge, hsize,
      eval_nat, holds_and, hc.cut, holds_present, forall_mem_map, mem_range, hc.rows,
      Compaction.moves, holds_eq, hc.chosen] at hmem
    obtain ⟨hfilled, hempty, -⟩ := hmem
    refine ⟨fun h ↦ ?_, fun h ↦ ?_⟩
    · obtain ⟨hthere, hmoves, -⟩ := hfilled (by omega)
      refine ⟨hthere, fun row hrow hpresent hrank ↦ I.map_value_of_copies (hc.length slot hs row hrow) ?_⟩
      rw [← hc.copies slot hs row hrow]
      refine hmoves row hrow ⟨(hw.counts row hrow).2 hpresent, ?_, by simp⟩
      rw [Compaction.rank, hc.weighs, hw.eval_sum hrow.le, hrank]
    · have := hempty (by omega)
      simpa [absent] using this
  have hthere : I.rowsThere cut.toShape = List.range (I.rowsThere full.toShape).length := by
    rw [rowsThere, ← filter_lt_range hfit]
    refine filter_congr fun slot hs ↦ ?_
    obtain ⟨h₁, h₂⟩ := hslot slot (mem_range.1 hs)
    by_cases hlt : slot < (I.rowsThere full.toShape).length
    · simp [(h₁ hlt).1, hlt]
    · simp [h₂ hlt, hlt]
  refine ⟨hfits, hthere, ?_⟩
  rw [entries, entries, hthere]
  refine ext_getElem (by simp) fun slot h₁ h₂ ↦ ?_
  rw [length_map] at h₂
  obtain ⟨hrow, hp, hrank⟩ := countP_range_of_filter
    (getElem?_eq_getElem h₂ : (I.rowsThere full.toShape)[slot]? = _)
  rw [getElem_map, getElem_map, getElem_range]
  exact ((hslot slot (h₂.trans_le hfit)).1 h₂).2 _ hrow (by simpa using hp) hrank

end Interpretation

/-! ## Rows that are put into a table -/

/-- Leaves that are not of a table. -/
def Term.Off (id : Int) : Term → Prop
  | .cell t _ _ | .null t _ _ | .deleted t _ | .choice t _ => t ≠ id
  | _ => True

namespace Interpretation

/-- The interpretation in which rows of a table are copies of rows of another one, and the others are not there. -/
def laid (I : Interpretation) (source id : Int) (origin : Nat → Option Nat) : Interpretation :=
  { I with
    cell := fun t row c ↦ if t = id then I.cell source ((origin row.toNat).getD 0 : Nat) c else I.cell t row c
    null := fun t row c ↦ if t = id then I.null source ((origin row.toNat).getD 0 : Nat) c else I.null t row c
    deleted := fun t row ↦ if t = id then (origin row.toNat).isNone else I.deleted t row
    choice := fun t b ↦ if t = id then (origin b.toNat).isSome.toInt else I.choice t b }

variable {I : Interpretation} {source id : Int} {origin : Nat → Option Nat}

theorem agreeOn_laid : AgreeOn (Term.Off id) I (I.laid source id origin) := by
  refine ⟨rfl, rfl, fun t ht hoff ↦ ?_⟩
  cases t with
  | cell | choice => exact (if_neg hoff).symm
  | null | deleted => exact congrArg Bool.toInt (if_neg hoff).symm
  | grouping | belongs | size => rfl
  | _ => exact ht.elim

@[simp] theorem deleted_laid (row : Nat) : (I.laid source id origin).deleted id row = (origin row).isNone := if_pos rfl

@[simp] theorem choice_laid (row : Nat) : (I.laid source id origin).choice id row = (origin row).isSome.toInt :=
  if_pos rfl

theorem deleted_laid_of_ne {t : Int} (h : t ≠ id) (row : Int) :
    (I.laid source id origin).deleted t row = I.deleted t row := if_neg h

theorem record_laid_of_ne {s : Shape} (h : s.id ≠ id) : (I.laid source id origin).record s = I.record s := by
  funext row
  exact map_congr_left fun c _ ↦ by simp [held, laid, h]

theorem copies_laid (h : source ≠ id) {row r : Nat} (hr : origin row = some r) (columns : List Int) :
    ∀ t ∈ List.zipWith Cell.copies (columns.map fun c ↦ ⟨source, r, c⟩) (columns.map fun c ↦ ⟨id, row, c⟩),
      (I.laid source id origin).Holds t := by
  rw [zipWith_map_left, zipWith_map_right, zipWith_self, forall_mem_map]
  intro c _
  simp [Cell.copies, Cell.val, Cell.isNull, laid, h, hr]

end Interpretation

/-! ## Formulas that are added -/

namespace Formulas

/-- Under every label, formulas say what others say under it. -/
def Extends (gs fs : Formulas) : Prop :=
  ∀ (I : Interpretation) (l : String), (∀ f ∈ gs.entries, f.label = l → I.Holds f.term) →
    ∀ f ∈ fs.entries, f.label = l → I.Holds f.term

variable {fs gs hs : Formulas} {t : Term} {label : Option String} {I : Interpretation}

theorem Extends.of_entries (h : gs.entries = fs.entries) : gs.Extends fs := by
  intro I l hl
  rwa [h] at hl

theorem Extends.refl (fs : Formulas) : fs.Extends fs := .of_entries rfl

theorem Extends.trans (h : gs.Extends fs) (g : hs.Extends gs) : hs.Extends fs :=
  fun I l hl ↦ h I l (g I l hl)

theorem Extends.holds (h : gs.Extends fs) (hI : ∀ f ∈ gs.entries, I.Holds f.term) :
    ∀ f ∈ fs.entries, I.Holds f.term :=
  fun f hf ↦ h I f.label (fun g hg _ ↦ hI g hg) f hf rfl

/-- What is added under a label is said under it, with what was said there before. -/
theorem holds_under_append (h : ∀ f ∈ (fs.append t label).entries, f.label = fs.target label → I.Holds f.term) :
    I.Holds t ∧ ∀ f, fs.entries.find? (·.label == fs.target label) = some f → I.Holds f.term := by
  rw [entries_append] at h
  have hself := h _ (mem_replace_self _ _) rfl
  rw [find?] at hself
  cases hfind : fs.entries.find? (·.label == fs.target label) with
  | none =>
    rw [hfind] at hself
    exact ⟨hself, by simp⟩
  | some old =>
    rw [hfind] at hself
    have hboth : I.Holds old.term ∧ I.Holds t := by simpa using hself
    refine ⟨hboth.2, ?_⟩
    rintro f ⟨⟩
    exact hboth.1

theorem extends_append (fs : Formulas) (t : Term) (label : Option String) : (fs.append t label).Extends fs := by
  intro I l h f hf hfl
  have hmem := mem_replace (f := ⟨fs.target label, (fs.find? (fs.target label)).elim t (.and [·, t]), fs.nextStamp⟩) hf
  rw [← entries_append] at hmem
  obtain hmem | hfind := hmem
  · exact h f hmem hfl
  · have hlabel : f.label = fs.target label := by simpa using List.find?_some hfind
    refine (holds_under_append (fun g hg hgl ↦ h g hg ?_)).2 f hfind
    rw [hgl, ← hlabel, hfl]

/-- An interpretation of formulas to which one was added satisfies it and the others. -/
theorem holds_of_append (h : ∀ f ∈ (fs.append t label).entries, I.Holds f.term) :
    I.Holds t ∧ ∀ f ∈ fs.entries, I.Holds f.term :=
  ⟨(holds_under_append fun f hf _ ↦ h f hf).1, (extends_append fs t label).holds h⟩

def add (fs : Formulas) (ts : List (Term × Option String)) : Formulas := ts.foldl (fun fs t ↦ fs.append t.1 t.2) fs

theorem holds_of_add {ts : List (Term × Option String)}
    (h : ∀ f ∈ (fs.add ts).entries, I.Holds f.term) : (∀ t ∈ ts, I.Holds t.1) ∧ ∀ f ∈ fs.entries, I.Holds f.term := by
  induction ts generalizing fs with
  | nil => exact ⟨forall_mem_nil _, h⟩
  | cons t ts ih =>
    obtain ⟨hts, hrest⟩ := ih h
    obtain ⟨ht, hfs⟩ := holds_of_append hrest
    exact ⟨forall_mem_cons.2 ⟨ht, hts⟩, hfs⟩

end Formulas

/-! ## Settling the result of an operator -/

section Settle

variable {w : Workspace} {output : Nat} {k : Int} {label : Option String} {weight counts : Nat → Term}
  {cases others : List Term}

theorem compactionCopies_gives {full cut : Table} {width : Nat} {s t : Sheet}
    (hfull : full.columns.length = width) (hs : s.columns = upTo width) (ht : t.columns = upTo width)
    (hcells : ∀ i < s.rows, Forall₂ (fun c x ↦ w.database.cell full.id i c = .ok (some x)) s.columns (s.line i))
    (hcut : ∀ i < t.rows, Forall₂ (fun c x ↦ w.database.cell cut.id i c = .ok (some x)) t.columns (t.line i)) :
    Gives (compactionCopies full cut s.rows t.rows) w
      ((List.range t.rows).map fun slot ↦ (List.range s.rows).map fun row ↦
        List.zipWith Cell.copies (s.line row) (t.line slot)) w := by
  refine mapM_map fun slot hslot ↦ mapM_map fun row hrow ↦ ?_
  have h₁ := hcells row (mem_range.1 hrow)
  have h₂ := hcut slot (mem_range.1 hslot)
  rw [hs] at h₁
  rw [ht] at h₂
  rw [hfull]
  exact copyRow_gives h₁ h₂

/-- A result that is cut down is settled by two formulas: that there is room, and one that holds how the rows are
moved. -/
theorem settle_gives_some {cut width : Nat} {s t : Sheet} (hs : Lies w output s) (ht : Lies w cut t)
    (hscols : s.columns = upTo width) (htcols : t.columns = upTo width) :
    ∃ c : Compaction, c.Moves s t weight counts ∧
      Gives (settle output (some cut) (.int k) label weight counts cases others) w cut
        { w with formulas := w.formulas.add [(c.fits (.int k), some s!"size_{s.id}"),
          (.and (cases ++ c.cases ++ others), label)] } := by
  have hwidth : (w.catalog.table output).columns.length = width := by
    simpa [hscols] using congrArg List.length hs.columns_eq
  obtain ⟨copies, hcopies, hgives⟩ : ∃ copies : List (List (List Term)),
      (∀ slot < t.rows, ∀ row < s.rows, ((copies[slot]?.getD [])[row]?).getD [] =
        List.zipWith Cell.copies (s.line row) (t.line slot)) ∧
      ∀ fs, Gives (compactionCopies (w.catalog.table output) (w.catalog.table cut) s.rows t.rows)
        { w with formulas := fs } copies { w with formulas := fs } := by
    refine ⟨_, ?_, fun fs ↦ compactionCopies_gives hwidth hscols htcols ?_ ?_⟩
    · intro slot hslot row hrow
      simp [hslot, hrow]
    · rw [hs.id_eq]
      exact hs.cells
    · rw [ht.id_eq]
      exact ht.cells
  refine ⟨{ full := (w.catalog.table output).id, cut := (w.catalog.table cut).id, rows := s.rows, slots := t.rows
            weight, counts, copies := fun slot row ↦ ((copies[slot]?.getD [])[row]?).getD [] },
    ⟨ht.id_eq, rfl, rfl, rfl, rfl, hcopies, fun slot hslot row hrow ↦ ?_⟩, ?_⟩
  · rw [hs.length_line hrow, ht.length_line hslot, hscols, htcols]
  · rw [← hs.id_eq]
    simp only [settle, bind_iff, table_gives, lift_iff, Workspace.append, modify_iff, pure_iff]
    exact ⟨_, w, ⟨rfl, rfl⟩, _, w, ⟨rfl, rfl⟩, _, w, ⟨hs.rows_eq, rfl⟩, _, w, ⟨ht.rows_eq, rfl⟩, ⟨⟩, _, rfl, _, _,
      hgives _, ⟨⟩, _, rfl, trivial, rfl⟩

/-- After the result of an operator is settled, the rows that are there are those of the table that has a row
for every case, whether that is cut down or not. -/
theorem settle_gives (label : Option String) (weight counts : Nat → Term) (cases others : List Term)
    {cut : Option Nat} {width : Nat} {s : Shape} (hs : Lies w output s.sheet) (hcols : s.columns = upTo width)
    (hcut : ∀ c, cut = some c → ∃ t : Shape, Lies w c t.sheet ∧ t.columns = s.columns ∧ t.rows = k.toNat) :
    ∃ (out : Nat) (t : Shape) (ts : List (Term × Option String)),
      Gives (settle output cut (.int k) label weight counts cases others) w out
        { w with formulas := w.formulas.add ts } ∧ Lies w out t.sheet ∧
      ∀ I : Interpretation, (∀ t ∈ ts, I.Holds t.1) → (∀ t ∈ cases ++ others, I.Holds t) ∧
        (I.Weighs s weight counts → I.entries t.sheet = I.entries s.sheet) := by
  cases cut with
  | none =>
    refine ⟨output, s, [(.and (cases ++ others), label)], ?_, hs, fun I hI ↦ ⟨?_, fun _ ↦ rfl⟩⟩
    · simp only [settle, bind_iff, Workspace.append, modify_iff, pure_iff]
      exact ⟨⟨⟩, _, rfl, trivial, rfl⟩
    · exact (I.holds_and _).1 (hI _ (mem_singleton_self _))
  | some cut =>
    obtain ⟨t, ht, htcols, hk⟩ := hcut cut rfl
    obtain ⟨c, hc, hgives⟩ := settle_gives_some hs ht hcols (htcols.trans hcols)
    refine ⟨cut, t, _, hgives, ht, fun I hI ↦ ?_⟩
    simp only [forall_mem_cons, Interpretation.holds_and, mem_append, or_imp, forall_and] at hI ⊢
    obtain ⟨hfits, ⟨⟨hcases, hmoves⟩, hothers⟩, -⟩ := hI
    exact ⟨⟨hcases, hothers⟩, fun hw ↦ (Interpretation.compacted_of_cases hc hw hk hfits hmoves).entries⟩

end Settle

end QueryEquiv
