import QueryEquiv.Proofs.OuterJoins
import QueryEquiv.Proofs.ScalarQueries

/-!
# The rows of projections

A projection of a table that is not grouped has a row for each row of the table, or a single row if it has an
aggregate. Which of the two is found out from the texts of the targets: a target that is an expression is taken for an
aggregate if there is a call of one anywhere in its text, be it in a nested query or in a literal
(`Workspace.callsAggregate`). So these texts alone say how many rows are there (`applyToRows_length`).
-/

namespace QueryEquiv

open Interpretation List Operator Results Workspace Expression

/-- The targets of a projection as they are read: copies, in which every star is replaced by columns. -/
def Operator.Project.spelledOut (columns : List Column) (targets : List Node) : Encoding (List Node) := do
  (← copied targets).flatMapM fun t ↦ expandStar columns t

section Rows

variable {w w' : Workspace} {out : Nat} {I : Interpretation}

/-- The aggregates among the columns of a projection are told by the texts of the targets. -/
theorem readTargets_aggregates {source : Table} {targets : List Node} {cs : List (Column × Target × Bool)}
    (hg : Gives (Project.readTargets source targets) w cs w') :
    ∃ ns, Gives (Project.spelledOut source.columns targets) w ns w' ∧ cs.any (·.2.2) = ns.any w'.callsAggregate := by
  obtain ⟨us, v, hcopied, hg⟩ := Gives.bind_iff.1 hg
  obtain ⟨ns, u, hns, hg⟩ := Gives.bind_iff.1 hg
  obtain ⟨rfl, -, -, hflags⟩ := targetColumns_keeps source 0 ns rfl hg
  refine ⟨ns, Gives.bind_iff.2 ⟨us, v, hcopied, hns⟩, ?_⟩
  rw [← Function.id_comp fun c : Column × Target × Bool ↦ c.2.2, ← any_map, hflags, any_map]
  rfl

/-- Rows that are counted by their choices: a row that is kept is there, and one that is dropped is not. -/
theorem weighs_choices {α : Type} {s : Shape} {l : List α} {f : α × Nat → List Term} (hlen : l.length = s.rows)
    (hf : ∀ x, ∃ xs ys, .implies (kept s.id x.2) (.and xs) ∈ f x ∧ present s.id x.2 ∈ xs ∧
      .implies (dropped s.id x.2) (.and ys) ∈ f x ∧ absent s.id x.2 ∈ ys)
    (h : ∀ u ∈ l.zipIdx.flatMap f ++ allDecided s.id s.rows, I.Holds u) :
    I.Weighs s (.choice s.id ·) (kept s.id) := by
  have hrow (row : Nat) (hlt : row < s.rows) : I.choice s.id row = 1 ∧ I.deleted s.id row = false ∨
      I.choice s.id row = 0 ∧ I.deleted s.id row = true := by
    obtain ⟨xs, ys, hkept, hthere, hdropped, hgone⟩ := hf (l[row], row)
    rw [← hlen] at h hlt
    obtain ⟨hcases, hdecided⟩ := holds_rowCases h hlt
    have hkept := hcases _ hkept
    have hdropped := hcases _ hdropped
    rw [holds_implies, holds_and] at hkept hdropped
    refine hdecided.imp (fun hone ↦ ⟨?_, ?_⟩) fun hzero ↦ ⟨?_, ?_⟩
    · exact (I.holds_kept _ _).1 hone
    · exact (I.holds_present _ _).1 (hkept hone _ hthere)
    · exact (I.holds_dropped _ _).1 hzero
    · exact (I.holds_absent _ _).1 (hdropped hzero _ hgone)
  refine ⟨fun row hlt ↦ ?_, fun row hlt ↦ ?_⟩
  · rcases hrow row hlt with ⟨hchoice, hdeleted⟩ | ⟨hchoice, hdeleted⟩ <;> simp [hchoice, hdeleted]
  · rw [holds_kept]
    rcases hrow row hlt with ⟨hchoice, hdeleted⟩ | ⟨hchoice, hdeleted⟩ <;> simp [hchoice, hdeleted]

/-- A result that is settled has the rows of the table with a row for every case, whether that is cut down or not. -/
theorem Settled.entries {t : Table} {k : Int} {label : Option String} {weight counts : Nat → Term}
    {cases others : List Term} {n width : Nat} (h : Settled Chain w t (.int k) label weight counts cases others out w')
    (hcols : t.columns.map (·.id) = upTo width) (hn : t.rows = .ok n) (hfree : Unused w) :
    ∃ s : Shape, Lies w' out s.sheet ∧ ∀ I : Interpretation, (∀ f ∈ w'.formulas.entries, I.Holds f.term) →
      (∀ u ∈ cases ++ others, I.Holds u) ∧ (I.Weighs ⟨w.lastTable + 1, n, upTo width⟩ weight counts →
        I.entries s.sheet = I.entries (Shape.sheet ⟨w.lastTable + 1, n, upTo width⟩)) := by
  cases h with
  | intro made cuts cutDown reads settles =>
    obtain ⟨m, hm, hfull, hfree⟩ := made.lies hcols hfree
    obtain rfl : m = n := Except.ok.inj (hm.symm.trans hn)
    rw [made.id] at hfull
    have hcut := cutDown_lies cuts (by rw [made.table]; exact hcols) hfree
    obtain ⟨_, s, ts, hgives, hs, hholds⟩ := settle_gives label weight counts cases others
      ((cutDown.chain.trans reads).lies hfull) rfl fun c hc ↦ (hcut c hc).imp fun _ h ↦ ⟨reads.lies h.1, h.2⟩
    obtain ⟨rfl, rfl⟩ := settles.unique hgives
    exact ⟨s, ⟨hs.entered, hs.used, hs.shape, hs.cells⟩, fun I hI ↦ hholds I (Formulas.holds_of_add hI).1⟩

variable {input tag depth : Nat} {targets : List Node} {k : Int}

/-- A projection of a table that is not grouped has a single row if a target is an expression with a call of an
aggregate somewhere in its text. Otherwise it has as many rows as the table. -/
theorem applyToRows_length (hrun : Gives (Project.applyToRows (Query.nested depth) input tag targets (.int k)) w out w')
    (hinput : input < w.catalog.tables.size) (hfree : Unused w) :
    ∃ ns v s t, Gives (Project.spelledOut (w.catalog.table input).columns targets)
        { w with lastTable := w.lastTable + 1 } ns v ∧
      Shape.ofTable (w.catalog.table input) = .ok s ∧ Shape.ofTable (w'.catalog.table out) = .ok t ∧
      ∀ I : Interpretation, (∀ f ∈ w'.formulas.entries, I.Holds f.term) →
        (I.rowsThere t).length = if ns.any v.callsAggregate then 1 else (I.rowsThere s).length := by
  obtain ⟨columns, source, c, next, clauses, db, cut, v, hread, -, hadd, hcut, hg⟩ := applyToRows_gives hrun
  obtain ⟨-, hids⟩ := readTargets_gives hread
  obtain ⟨ns, hns, hflags⟩ := readTargets_aggregates hread
  obtain ⟨n, hn⟩ : ∃ n, (w.catalog.table input).rows = .ok n := (Database.addTable_ok hadd).1
  have hmade := withProjected_added (w := w.noting next clauses) c hids hadd
  refine ⟨ns, { w with lastTable := w.lastTable + 1 }.noting next clauses,
    ⟨(w.catalog.table input).id, n, (w.catalog.table input).columns.map (·.id)⟩, ?_⟩
  rw [← hflags]
  rcases hsingle : columns.any (·.2.2)
  · rw [hsingle] at hcut hg
    have hid := ((hmade.chain.trans (hmade.cutDown hcut ((labelled_kin c _).begins (projectedTable_begins ..))
      (by decide)).chain).kin hinput).1.id
    obtain ⟨rows, mappings, hrows, hlen, h⟩ := projectRows_settled Chain.passage.walk (Chain.route.nested depth)
      (fun e _ _ ↦ e.everywhere_true) hmade ((labelled_kin c _).begins (projectedTable_begins ..)) (by decide) hcut hg
    obtain rfl : rows = n := Except.ok.inj (hrows.symm.trans hn)
    rw [hid] at h
    obtain ⟨t, ht, hentries⟩ := h.entries hids hrows hfree
    refine ⟨t, hns, Shape.ofTable_ok_iff.2 ⟨rfl, hn, rfl⟩, ht.shape, fun I hI ↦ ?_⟩
    obtain ⟨hholds, hsame⟩ := hentries I hI
    have hsame := hsame (weighs_choices hlen (fun x ↦ ⟨_, _, .head _, by simp, .tail _ (.head _), by simp⟩) hholds)
    have hlength := congrArg List.length hsame
    rw [entries, entries, length_map, length_map] at hlength
    refine hlength.trans (congrArg List.length (filter_congr fun row hrow ↦ ?_))
    rw [← hlen] at hholds
    exact congrArg not (deleted_of_projection hholds row (hlen ▸ mem_range.1 hrow))
  · rw [hsingle] at hcut hg
    obtain ⟨rfl, rfl⟩ := Gives.pure_iff.1 hcut
    obtain ⟨rfl, -, hrows, hthere⟩ := projectRows_single hg hmade.entered
    refine ⟨⟨_, 1, _⟩, hns, Shape.ofTable_ok_iff.2 ⟨rfl, hn, rfl⟩, Shape.ofTable_ok_iff.2 ⟨rfl, hrows, rfl⟩, fun I hI ↦ ?_⟩
    simp [rowsThere, hthere I hI]

/-- The comparison of a column with the text `count(`. -/
def equalsText : Node := .expression (.str "eq") [.attr "x", .lit (.str "count(")] (.str "y")

/-- Though there is no aggregate, the comparison has a single row. -/
theorem equalsText_length :
    ∃ out w' t, Gives (Project.applyToRows (Query.nested 3) 0 1 [equalsText] (.int 1)) unevenSides out w' ∧
      Shape.ofTable (w'.catalog.table out) = .ok t ∧
      ∀ I : Interpretation, (∀ f ∈ w'.formulas.entries, I.Holds f.term) → (I.rowsThere t).length = 1 := by
  have hout : (exec (Project.applyToRows (Query.nested 3) 0 1 [equalsText] (.int 1)) unevenSides).1.toOption = some 2 := by
    decide +kernel
  have hspelled : (exec (Project.spelledOut (unevenSides.catalog.table 0).columns [equalsText])
      { unevenSides with lastTable := 2 }).1.toOption = some [equalsText] := by cbv
  obtain ⟨ns, v, s, t, hns, -, ht, hlength⟩ := applyToRows_length (.of_toOption hout) (by decide) unevenSides_unused
  obtain ⟨rfl, rfl⟩ := hns.unique (.of_toOption hspelled)
  refine ⟨2, _, t, .of_toOption hout, ht, fun I hI ↦ (hlength I hI).trans (if_pos ?_)⟩
  cbv

end Rows

end QueryEquiv
