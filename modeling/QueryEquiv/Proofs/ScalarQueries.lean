import QueryEquiv.Proofs.ChangesQueries
import QueryEquiv.Proofs.Naming
import QueryEquiv.Proofs.Outputs

/-!
# Queries as operands

A query inside an expression stands for the value in the first of its rows that are there, and for null if
there is none. It is read at row 0 of its table, whether that row is there or not (`scalar_read`). So the value is
right wherever row 0 is there.

A projection with an aggregate and without groups has one row, which always is there. A result that is cut down
has the rows that are there in front, so row 0 is there if any is. In all other cases the rows stay where they
are: row 0 of the result is there if row 0 of the table that was projected is.
-/

namespace QueryEquiv

open Chain Query Table Formulas Catalog Interpretation Gives List Workspace Expression Operator Results

/-! ## The first row -/

/-- What a projection makes of the first row of its result. -/
inductive FirstRow where
  /-- It always is there. -/
  | always
  /-- It is there if any row is. -/
  | ifAny
  /-- It is there if the first row of another table is. -/
  | asIn (source : Int)

/-- The first row of a projection: of groups or not, with an aggregate or not, cut down or not. -/
def FirstRow.ofProjection (grouped aggregate shrinks : Bool) (source : Int) : FirstRow :=
  if aggregate then if grouped then .asIn source else .always
  else if shrinks then .ifAny else .asIn source

namespace Interpretation

variable (I : Interpretation)

/-- What a table with so many rows stands for as an operand. -/
def scalar (t : Int) (n : Nat) : Option Int :=
  ((List.range n).find? fun (i : Nat) ↦ !I.deleted t i).bind fun (i : Nat) ↦ I.read (.cell t i 0, .null t i 0)

/-- A table with so many rows has a first row as is said. -/
def Opens (t : Int) (n : Nat) : FirstRow → Prop
  | .always => 0 < n ∧ I.deleted t 0 = false
  | .ifAny => ∀ i < n, I.deleted t (i : Nat) = false → I.deleted t 0 = false
  | .asIn s => 0 < n → I.deleted t 0 = I.deleted s 0

variable {I}

/-- Where the first row is there, it is what the table stands for. -/
theorem scalar_of_first {t : Int} {n : Nat} (hn : 0 < n) (h : I.deleted t 0 = false) :
    I.scalar t n = I.read (Reading.firstCell t) := by
  obtain ⟨n, rfl⟩ := Nat.exists_eq_succ_of_ne_zero hn.ne'
  rw [scalar, range_succ_eq_map, List.find?_cons_of_pos (by simpa using h)]
  rfl

/-- If only rows are there that are there in another table, and the first rows agree, the other table may be looked
at. -/
theorem Opens.mono {s t : Int} {n : Nat} {f : FirstRow} (h : I.Opens s n f)
    (hsub : ∀ i < n, I.deleted t (i : Nat) = false → I.deleted s i = false)
    (hfirst : 0 < n → I.deleted t 0 = I.deleted s 0) : I.Opens t n f := by
  cases f with
  | always => exact ⟨h.1, (hfirst h.1).trans h.2⟩
  | ifAny =>
    intro i hi hthere
    rw [hfirst (by omega)]
    exact h i hi (hsub i hi hthere)
  | asIn source => exact fun hn ↦ (hfirst hn).trans (h hn)

end Interpretation

/-! ## What the formulas say of the first row -/

section Formulas

variable {I : Interpretation} {s t : Int} {n : Nat}

/-- What formulas say that have cases for every row and decide about every row. -/
theorem holds_rowCases {α : Type} {cases : α × Nat → List Term} {rows : List α}
    (h : ∀ u ∈ rows.zipIdx.flatMap cases ++ allDecided t rows.length, I.Holds u) {row : Nat}
    (hrow : row < rows.length) :
    (∀ u ∈ cases (rows[row], row), I.Holds u) ∧ (I.Holds (kept t row) ∨ I.Holds (dropped t row)) := by
  refine ⟨fun u hu ↦ h u (mem_append_left _ (mem_flatMap.2 ⟨_, ?_, hu⟩)), ?_⟩
  · rw [mem_zipIdx_iff_getElem?]
    exact getElem?_eq_getElem hrow
  · have hdecided := h (decided t row) (mem_append_right _ (mem_map_of_mem (mem_range.2 hrow)))
    simpa only [decided, holds_or_cons, mem_cons, not_mem_nil, or_false, exists_eq_or_imp,
      exists_eq_left] using hdecided

/-- A row of a projection in place is there if the row of the source is. -/
theorem deleted_of_projection {mappings : List (List Term)}
    (h : ∀ u ∈ Project.cases s t mappings ++ allDecided t mappings.length, I.Holds u) (row : Nat)
    (hrow : row < mappings.length) : I.deleted t row = I.deleted s row := by
  obtain ⟨hcases, hdecided⟩ := holds_rowCases h hrow
  simp only [Project.rowCases, forall_mem_cons, holds_implies, holds_and, holds_present, holds_absent] at hcases
  obtain hk | hd := hdecided
  · obtain ⟨hsource, -, htarget, -⟩ := hcases.1 hk
    rw [hsource, htarget]
  · obtain ⟨hsource, htarget, -⟩ := hcases.2.1 hd
    rw [hsource, htarget]

/-- A row without duplicates is there only if the row of the source is. The first row is no duplicate. -/
theorem deleted_of_distinct {width : Nat} {copies : List (List Term)}
    (h : I.Holds (Distinct.formula s t width copies)) (row : Nat) (hrow : row < copies.length) :
    (I.deleted t row = false → I.deleted s row = false) ∧ (row = 0 → I.deleted t row = I.deleted s row) := by
  obtain ⟨hcases, hdecided⟩ := holds_rowCases ((I.holds_and _).1 h) hrow
  simp only [Distinct.rowCases, forall_mem_cons, holds_implies, holds_and, holds_present, holds_absent] at hcases
  obtain hk | hd := hdecided
  · obtain ⟨hsource, -, -, htarget, -⟩ := hcases.1 hk
    rw [hsource, htarget]
    exact ⟨id, fun _ ↦ rfl⟩
  · obtain ⟨hsource, htarget, -⟩ := hcases.2.1 hd
    rw [htarget]
    refine ⟨fun hfalse ↦ (by cases hfalse), ?_⟩
    rintro rfl
    simpa [holds_absent] using hsource

/-- If a slot of a table that a result is cut down to is filled, the first one is. -/
theorem opens_of_compaction {c : Compaction} (h : ∀ u ∈ c.cases, I.Holds u) : I.Opens c.cut c.slots .ifAny := by
  intro slot hslot hthere
  have hcases (slot : Nat) (hslot : slot < c.slots) (u : Term) (hu : u ∈ c.slotCases slot) : I.Holds u :=
    h u (mem_flatMap.2 ⟨slot, mem_range.2 hslot, hu⟩)
  have hempty := hcases slot hslot
  have hfilled := hcases 0 (by omega)
  simp only [Compaction.slotCases, forall_mem_cons, holds_implies, holds_not,
    holds_ge, eval_nat, holds_and, holds_present, holds_absent] at hempty hfilled
  refine (hfilled.1 ?_).1
  by_contra hlt
  rw [hempty.2.1 (by push_cast at hlt ⊢; omega)] at hthere
  cases hthere

end Formulas

/-! ## Projections -/

/-- The table at a place has a first row as is said, wherever the formulas hold. -/
def Workspace.Opens (w : Workspace) (place : Nat) (f : FirstRow) : Prop :=
  ∃ n, (w.catalog.table place).rows = .ok n ∧ ∀ I : Interpretation, (∀ f ∈ w.formulas.entries, I.Holds f.term) →
    I.Opens (w.catalog.table place).id n f

section Projections

variable {w w' : Workspace} {output out depth : Nat} {cut : Option Nat} {k : Value} {label : Option String}

variable {place input : Nat} {targets : List (Target × Nat)} {tag : Nat}

theorem Workspace.Opens.chain {f : FirstRow} (h : w.Opens place f) (hw : Chain w w')
    (hplace : place < w.catalog.tables.size) : w'.Opens place f := by
  obtain ⟨n, hn, hopens⟩ := h
  have hkin := (hw.kin hplace).1
  refine ⟨n, hkin.rows_eq.trans hn, fun I hI ↦ ?_⟩
  rw [hkin.id]
  exact hopens I (hw.extends_formulas.holds hI)

/-- After a result is settled, its cases hold. If it is cut down, the first row is there if any is. -/
theorem settle_opens {weight counts : Nat → Term} {cases others : List Term}
    (hg : Gives (settle output cut k label weight counts cases others) w out w') :
    out = cut.getD output ∧ Chain w w' ∧ (∀ c < w.catalog.tables.size, cut = some c → w'.Opens c .ifAny) ∧
      ∀ I : Interpretation, (∀ f ∈ w'.formulas.entries, I.Holds f.term) → ∀ u ∈ cases ++ others, I.Holds u := by
  obtain ⟨rfl, u, cs, hchain, hw'⟩ := settle_passes passage.walk hg
  have hchain : Chain w w' := hw' ▸ hchain.append _ _
  refine ⟨rfl, hchain, ?_⟩
  cases cut with
  | none =>
    simp only [settle, bind_iff, Workspace.append, modify_iff, pure_iff] at hg
    obtain ⟨_, _, rfl, -, rfl⟩ := hg
    exact ⟨by simp, fun I hI ↦ (I.holds_and _).1 (holds_of_append hI).1⟩
  | some c =>
    simp only [settle, bind_iff, table_gives, lift_iff] at hg
    obtain ⟨_, _, ⟨rfl, rfl⟩, _, _, ⟨rfl, rfl⟩, rows, _, ⟨-, rfl⟩, slots, w, ⟨hslots, rfl⟩, _, v, -, copies, u,
      -, _, _, happend, hg⟩ := hg
    obtain ⟨-, rfl⟩ := pure_iff.1 hg
    have hholds {I : Interpretation} (hI : ∀ f ∈ w'.formulas.entries, I.Holds f.term) := by
      rw [modify_iff.1 happend] at hI
      exact (I.holds_and _).1 (holds_of_append hI).1
    refine ⟨?_, fun I hI u hu ↦ hholds hI u ?_⟩
    · rintro _ hc ⟨⟩
      have hkin := (hchain.kin hc).1
      refine ⟨slots, hkin.rows_eq.trans hslots, fun I hI ↦ ?_⟩
      rw [hkin.id]
      exact opens_of_compaction fun u hu ↦ hholds hI u (mem_append_left _ (mem_append_right _ hu))
    · rw [append_assoc, mem_append]
      exact (mem_append.1 hu).imp_right fun hu ↦ mem_append_right _ hu

/-- A projection with a row for each row leaves the rows where they are, unless it is cut down. -/
theorem projectRows_opens
    (hg : Gives (Project.projectRows (nested depth) input output cut k label targets false) w out w')
    (hout : cut.getD output < w.catalog.tables.size) : out = cut.getD output ∧ Chain w w' ∧
      w'.Opens out (if cut.isSome then .ifAny else .asIn (w.catalog.table input).id) := by
  obtain ⟨rows, mappings, u, hrows, hlength, hread, hsettle⟩ :=
    projectRows_gives passage.walk (route.nested depth) (fun e _ _ ↦ e.everywhere_true) hg
  obtain ⟨rfl, hsettled, hcut, hcases⟩ := settle_opens hsettle
  refine ⟨rfl, hread.trans hsettled, ?_⟩
  cases cut with
  | some c => exact hcut c (hout.trans_le hread.size_le) rfl
  | none =>
    have hkin := ((hread.trans hsettled).kin hout).1
    refine ⟨rows, hkin.rows_eq.trans hrows, fun I hI hpos ↦ ?_⟩
    rw [hkin.id]
    refine deleted_of_projection (fun u hu ↦ hcases I hI u ?_) 0 (hlength ▸ hpos)
    rw [hlength] at hu
    exact hu

theorem projectRows_single
    (hg : Gives (Project.projectRows (nested depth) input output cut k label targets true) w out w')
    (hout : output < w.catalog.tables.size) : out = output ∧ Chain { w with
      nextReader := w.nextReader + 1
      catalog := w.catalog.modify output ({ · with bound := .int 1 }) } w' ∧ (w'.catalog.table out).rows = .ok 1 ∧
      ∀ I : Interpretation, (∀ f ∈ w'.formulas.entries, I.Holds f.term) →
        I.deleted (w'.catalog.table out).id 0 = false := by
  obtain ⟨rfl, -, mapping, u, hread, hw'⟩ :=
    projectRows_gives_single passage.walk (route.nested depth) (fun e _ _ ↦ e.everywhere_true) hg
  have hchain := hw' ▸ hread.append (Project.singleRow (w.catalog.table out).id mapping) label
  have hkin := (hchain.kin (p := out) (by simpa using hout)).1
  rw [show table _ out = _ from table_modify_self hout] at hkin
  refine ⟨rfl, hchain, hkin.rows_eq.trans rfl, fun I hI ↦ ?_⟩
  rw [hw'] at hI
  have hrow := (holds_of_append hI).1
  rw [Project.singleRow, holds_and] at hrow
  rw [hkin.id]
  exact (I.holds_present _ 0).1 (hrow _ (by simp))

/-- A projection of groups leaves the groups where they are, unless it is cut down. -/
theorem projectGroups_opens {members : Nat}
    (hg : Gives (Project.projectGroups (nested depth) members output cut k label targets) w out w')
    (hout : cut.getD output < w.catalog.tables.size) : out = cut.getD output ∧ Chain w w' ∧
      w'.Opens out (if cut.isSome then .ifAny else .asIn (w.catalog.table output).id) := by
  obtain ⟨start, mappings, u, hstart, hread, hsettle⟩ :=
    projectGroups_gives passage.walk (route.nested depth) (fun e _ _ ↦ e.everywhere_true) hg
  obtain ⟨rfl, hsettled, hcut, -⟩ := settle_opens hsettle
  refine ⟨rfl, hread.trans hsettled, ?_⟩
  cases cut with
  | some c => exact hcut c (hout.trans_le hread.size_le) rfl
  | none =>
    have hkin := ((hread.trans hsettled).kin hout).1
    refine ⟨start, hkin.rows_eq.trans hstart, fun I _ _ ↦ ?_⟩
    rw [hkin.id]
    rfl

theorem cutDown_isSome (hg : Gives (cutDown output k) w cut w') :
    k.compare .lt (w.catalog.table output).bound = .ok cut.isSome := by
  obtain ⟨hb, rfl, -⟩ | ⟨hb, _, -, rfl, -⟩ := cutDown_gives_iff.1 hg
  · exact hb
  · exact hb

/-- A table tells of itself that it is no table of the schema. -/
def Table.Unscanned (t : Table) : Prop := ∃ l, t.lineage = some l ∧ 'S' ∉ l.toList

theorem Table.Kin.unscanned {t u : Table} (h : t.Kin u) (hu : u.Unscanned) : t.Unscanned := by
  obtain ⟨l, hl, hS⟩ := hu
  exact ⟨l, h.lineage_eq hl, hS⟩

theorem Table.unscanned_of_lineage {t : Table} (word : String) (source : Int)
    (h : t.lineage = some (word ++ toString source)) (hword : 'S' ∉ word.toList) : t.Unscanned := by
  refine ⟨_, h, ?_⟩
  rw [String.toList_append, mem_append, not_or]
  exact ⟨hword, notMem_toString (by decide) source⟩

/-- What is known of the result of a projection: of its targets, of whether it is cut down, and of its first row. -/
structure Projects (w : Workspace) (input : Nat) (targets : List Node) (k : Value) (grouped : Bool) (out : Nat)
    (w' : Workspace) (columns : List (Column × Target × Bool)) (shrinks : Bool) : Prop where
  targets : ∃ v source v', Gives (Project.readTargets source targets) v columns v'
  smaller : columns.any (·.2.2) = false → k.compare .lt (w.catalog.table input).bound = .ok shrinks
  entered : out < w'.catalog.tables.size
  unscanned : (w'.catalog.table out).Unscanned
  opens : w'.Opens out (.ofProjection grouped (columns.any (·.2.2)) shrinks (w.catalog.table input).id)

theorem applyToRows_projects {targets : List Node} (hinput : input < w.catalog.tables.size)
    (hg : Gives (Project.applyToRows (nested depth) input tag targets k) w out w') :
    ∃ columns shrinks, Projects w input targets k false out w' columns shrinks := by
  obtain ⟨columns, source, c, next, clauses, db, cut, v, hread, -, hadd, hcut, hg⟩ := applyToRows_gives hg
  obtain ⟨-, hids⟩ := readTargets_gives hread
  have hmade := withProjected_added (w := w.noting next clauses) c hids hadd
  rcases hsingle : columns.any (·.2.2)
  · rw [hsingle] at hcut hg
    have hcutDown := hmade.cutDown hcut ((labelled_kin c _).begins (projectedTable_begins ..)) (by decide)
    have hshrinks := cutDown_isSome hcut
    rw [hmade.table] at hshrinks
    obtain ⟨rfl, hchain, hopens⟩ := projectRows_opens hg hcutDown.entered
    have hinput := ((hmade.chain.trans hcutDown.chain).kin hinput).1
    refine ⟨columns, cut.isSome, ⟨_, _, _, hread⟩, fun _ ↦ hshrinks, hcutDown.entered.trans_le hchain.size_le, ?_, ?_⟩
    · refine (hchain.kin hcutDown.entered).1.unscanned
        (unscanned_of_lineage "Projected from T" source ?_ (by decide))
      rw [hcutDown.lineage, hmade.table]
      rfl
    · rw [hinput.id] at hopens
      rw [hsingle]
      exact hopens
  · rw [hsingle] at hcut hg
    obtain ⟨rfl, rfl⟩ := pure_iff.1 hcut
    have hentered := hmade.entered
    obtain ⟨rfl, hchain, hrows, hthere⟩ := projectRows_single hg hentered
    have hkin := (hchain.kin (p := w.catalog.tables.size) (by simpa using hentered)).1
    rw [show table _ w.catalog.tables.size = _ from table_modify_self hentered, hmade.table] at hkin
    refine ⟨columns, false, ⟨_, _, _, hread⟩, fun h ↦ absurd h (by simp [hsingle]), ?_, ?_, ?_⟩
    · exact (by simpa using hentered : w.catalog.tables.size < _).trans_le hchain.size_le
    · exact hkin.unscanned (unscanned_of_lineage "Projected from T" source rfl (by decide))
    · rw [hsingle]
      exact ⟨1, hrows, fun I hI ↦ ⟨Nat.one_pos, hthere I hI⟩⟩

theorem applyToGroups_projects {targets : List Node}
    (hgrouped : (w.catalog.table place).mentionsIfAny "Grouped from" = true)
    (hg : Gives (Project.applyToGroups (nested depth) w.catalog.tables.size tag targets k)
      { w with catalog := (w.catalog.copy place).2 } out w') :
    ∃ columns shrinks, Projects w place targets k true out w' columns shrinks := by
  obtain ⟨members, columns, as, _, _, _, _, v₁, cut, v₂, -, hread, -, -, hmade, -, -, hcut, hcutDown, hg⟩ :=
    applyToGroups_gives hgrouped hg
  obtain ⟨rfl, hchain, hopens⟩ := projectGroups_opens hg hcutDown.entered
  have hid : (v₂.catalog.table w.catalog.tables.size).id = (w.catalog.table place).id := by
    rw [(hcutDown.chain.kin hmade.entered).1.id, hmade.table]
    rfl
  refine ⟨columns, cut.isSome, ⟨_, _, _, hread⟩, fun hnone ↦ ?_, hcutDown.entered.trans_le hchain.size_le, ?_, ?_⟩
  · rw [hnone] at hcut
    have := cutDown_isSome hcut
    rw [hmade.table] at this
    exact this
  · refine (hchain.kin hcutDown.entered).1.unscanned (unscanned_of_lineage "Grouped and projected from T"
      ((w.catalog.copy place).2.table members).id ?_ (by decide))
    rw [hcutDown.lineage, hmade.table]
    rfl
  · rw [hid] at hopens
    unfold FirstRow.ofProjection
    split
    · rw [if_pos ‹_›] at hcut
      obtain ⟨rfl, -⟩ := pure_iff.1 hcut
      exact hopens
    · exact hopens

theorem project_projects {targets : List Node}
    (hg : Gives (Project.apply (nested depth) place tag targets k) w out w') :
    ∃ columns shrinks, Projects w place targets k ((w.catalog.table place).mentionsIfAny "Grouped from") out w'
      columns shrinks := by
  obtain ⟨hgrouped, hg⟩ | ⟨hgrouped, hg⟩ := project_cases hg
  · rw [hgrouped]
    exact applyToGroups_projects hgrouped hg
  · rw [hgrouped]
    obtain ⟨columns, shrinks, h⟩ := applyToRows_projects (size_lt_copy w.catalog place) hg
    obtain ⟨as, hlike⟩ := copy_like w.catalog place
    have hsmaller := h.smaller
    have hopens := h.opens
    rw [show table _ w.catalog.tables.size = _ from hlike] at hsmaller hopens
    exact ⟨columns, shrinks, h.targets, hsmaller, h.entered, h.unscanned, hopens⟩

/-- Without duplicates the first row is as before. -/
theorem distinct_opens {origin : Origin} {f : FirstRow} (hf : w.Opens input f)
    (hg : Gives (Distinct.apply input origin) w out w') :
    out < w'.catalog.tables.size ∧ (w'.catalog.table out).Unscanned ∧ w'.Opens out f := by
  obtain ⟨label, rows, copies, v, u, -, hrows, hcopies, hmade, hread, hw'⟩ := distinct_gives passage.walk hg
  have hlength : rows = copies.length := by simpa using (forall₂_of_mapM hcopies).length_eq
  have hlast : Chain v w' := hw' ▸ hread.append _ _
  have hkin := (hlast.kin hmade.entered).1
  rw [hmade.table] at hkin
  refine ⟨hmade.entered.trans_le hlast.size_le, ?_, rows, hkin.rows_eq.trans hrows, fun I hI ↦ ?_⟩
  · exact hkin.unscanned
      (unscanned_of_lineage "Duplicate eliminated from T" (w.catalog.table input).id rfl (by decide))
  · obtain ⟨n, hn, hopens⟩ := hf
    obtain rfl : n = rows := Except.ok.inj (hn.symm.trans hrows)
    have hformula := (holds_of_append (hw' ▸ hI)).1
    rw [hkin.id]
    refine (hopens I ((hmade.chain.trans hlast).extends_formulas.holds hI)).mono (fun i hi ↦ ?_) fun hpos ↦ ?_
    · exact (deleted_of_distinct hformula i (hlength ▸ hi)).1
    · exact (deleted_of_distinct hformula 0 (hlength ▸ hpos)).2 rfl

/-- The targets of a query, each result once if duplicates are to be eliminated. -/
theorem select_projects {targets : List Node} {distinct : Value}
    (hg : Gives (select (nested depth) place tag targets distinct k) w out w') :
    ∃ columns shrinks, Projects w place targets k ((w.catalog.table place).mentionsIfAny "Grouped from") out w'
      columns shrinks := by
  obtain ⟨output, v, hproject, hg⟩ := bind_iff.1 hg
  obtain ⟨columns, shrinks, h⟩ := project_projects hproject
  split at hg
  · obtain ⟨_, _, hclause, hg⟩ := bind_iff.1 hg
    obtain ⟨rfl, rfl⟩ := clause_gives.1 hclause
    obtain ⟨hentered, hunscanned, hopens⟩ := distinct_opens h.opens hg
    exact ⟨columns, shrinks, h.targets, h.smaller, hentered, hunscanned, hopens⟩
  · obtain ⟨rfl, rfl⟩ := pure_iff.1 hg
    exact ⟨columns, shrinks, h⟩

theorem aliasIfAny_unscanned {byname : Value} (hplace : (w.catalog.table place).Unscanned)
    (hg : Gives (aliasIfAny place byname) w out w') : out = place ∧ Chain w w' := by
  have hchain : Chain w w' :=
    ((route.enduring w).aliasIfAny_keeps (F := fun _ ↦ True) (n := .scan .null byname) trivial place (.refl w) hg).1
  refine ⟨?_, hchain⟩
  unfold aliasIfAny at hg
  split at hg
  · exact (pure_iff.1 hg).1
  · obtain ⟨l, hl, hS⟩ := hplace
    simp only [aliasTable, bind_iff, table_gives, lift_iff] at hg
    obtain ⟨_, _, ⟨rfl, rfl⟩, b, w, ⟨hb, rfl⟩, hg⟩ := hg
    rw [mentions_eq_false hl 'S' (by decide) hS] at hb
    cases hb
    simp only [Bool.false_eq_true, if_false, bind_iff, pure_iff] at hg
    obtain ⟨_, _, -, _, _, -, _, _, -, rfl, -⟩ := hg
    rfl

end Projections

/-! ## Queries -/

section Queries

variable {sub : Subquery} {tag root : Nat} {withs : Option (List (Value × Node))} {targets : List Node}
  {distinct byname : Value} {source wh group order : Node}

/-- The last step of a query is the selection of its targets, and maybe an alias. -/
def Selects (sub : Subquery) (root : Nat) (targets : List Node) (distinct byname : Value) (r : Nat)
    (w' : Workspace) : Prop :=
  ∃ v label k place out u, Gives (Query.sized root) v (label, k) v ∧
    Gives (Query.select sub place root targets distinct k) v out u ∧ Gives (aliasIfAny out byname) u r w'

theorem projectStep_selects : Steps (fun _ _ ↦ True) (do
      let output ← projectStep sub root targets distinct
      let output ← aliasIfAny output byname
      set (some output)
      return output) fun r _ ↦ Selects sub root targets distinct byname r := by
  have sized : Steps (fun _ _ ↦ True) (liftM (sized root)) fun r _ w ↦ Gives (sized root) w r w :=
    .lift fun _ w r w' _ hg ↦ by
      obtain rfl := sized_gives hg
      exact hg
  have selected (label : Option String) (k : Value) : Steps (fun _ w ↦ Gives (Query.sized root) w (label, k) w)
      (do select sub (← atHand) root targets distinct k) fun out _ u ↦ ∃ v label k place,
        Gives (Query.sized root) v (label, k) v ∧ Gives (Query.select sub place root targets distinct k) v out u :=
    Along.atHand.andThen fun place _ ↦ .lift fun _ v out u hv hg ↦ ⟨v, label, k, place, hv, hg⟩
  have hproject := sized.bind fun r ↦ selected r.1 r.2
  refine hproject.bind fun out ↦ ?_
  refine (Steps.lift (R := fun r _ ↦ Selects sub root targets distinct byname r) fun _ u r w' hu hg ↦ ?_).bind fun r ↦
    (Steps.set (Q := fun _ _ ↦ Selects sub root targets distinct byname r) fun _ _ h ↦ h).bind fun _ ↦
      .pure fun _ _ h ↦ h
  obtain ⟨v, label, k, place, hsized, hselect⟩ := hu
  exact ⟨v, label, k, place, out, u, hsized, hselect, hg⟩

theorem encodeQuery_selects (outer : Option Int) : Steps (fun _ _ ↦ True)
    (encode sub outer (.query tag withs (.project root targets distinct) source wh group order byname))
    fun r _ ↦ Selects sub root targets distinct byname r := by
  have anyhow {α : Type} (x : Step α) : Along (fun _ ↦ True) x := fun _ _ _ _ _ _ ↦ ⟨trivial, trivial⟩
  unfold Query.encode
  refine (anyhow _).andThen fun _ _ ↦ ?_
  cases withs
  case' some ws => refine (anyhow _).andThen fun _ _ ↦ ?_
  all_goals
    refine (anyhow _).andThen fun _ _ ↦ (anyhow _).andThen fun _ _ ↦ Along.optionalThen (anyhow _) fun _ ↦ ?_
    split
    · refine (anyhow _).andThen fun ts _ ↦ ?_
      split
      · exact (anyhow _).andThen fun _ _ ↦ (anyhow _).andThen fun _ _ ↦ projectStep_selects
      · exact (anyhow _).andThen fun _ _ ↦ (anyhow _).andThen fun _ _ ↦ projectStep_selects
    · exact projectStep_selects

/-- Readers that encode a query when they come to it: at a row, and in a group unless the query was encoded before. -/
inductive EncodesQueries (sub : Subquery) (w : Workspace) : Reader → Prop
  | row (place : Nat) (row : Int) (outer : Option Int) (aliases : Option (List Node)) (reader depth : Nat) :
      EncodesQueries sub w (atRow sub place row outer aliases reader (depth + 1))
  | group (g : GroupOfRows) {memo : Nat} (depth : Nat) (fresh : ∀ e ∈ w.subqueries, e.1.1 ≠ memo) :
      EncodesQueries sub w (g.reader sub memo (depth + 1))

theorem EncodesQueries.gives {w w' : Workspace} {R : Reader} {n : Node} {r : Reading} (hR : EncodesQueries sub w R)
    (hg : Gives (R.scalar n) w r w') : ∃ outer place v, Gives (sub outer n) w place v ∧
      r = Reading.firstCell (v.catalog.table place).id ∧ w'.catalog = v.catalog ∧ w'.formulas = v.formulas := by
  cases hR with
  | row place row outer aliases reader depth =>
    simp only [atRow, bind_iff, table_gives, pure_iff] at hg
    obtain ⟨p, v, hp, _, _, ⟨rfl, rfl⟩, rfl, rfl⟩ := hg
    exact ⟨some row, p, _, hp, rfl, rfl, rfl⟩
  | group g depth fresh =>
    simp only [GroupOfRows.reader, bind_iff, table_gives, pure_iff] at hg
    obtain ⟨p, _, hp, _, _, ⟨rfl, rfl⟩, rfl, rfl⟩ := hg
    simp only [subqueryTable, bind_iff, get_iff] at hp
    obtain ⟨before, _, hbefore, _, _, ⟨rfl, rfl⟩, hp⟩ := hp
    obtain rfl := (textOf_keeps n).unchanged hbefore
    split at hp
    · rename_i hfound
      obtain ⟨l₁, l₂, hl, -⟩ := lookup_eq_some_iff.1 hfound
      exact absurd rfl (fresh _ (hl ▸ mem_append_right _ mem_cons_self))
    · simp only [bind_iff, modify_iff, pure_iff] at hp
      obtain ⟨p, v, hp, after, _, hafter, _, _, rfl, rfl, rfl⟩ := hp
      obtain rfl := (textOf_keeps n).unchanged hafter
      exact ⟨none, _, _, hp, rfl, rfl, rfl⟩

/-- A query that is an operand is read at the first cell of its table. This is its value if the first row is there. The
first row of a result that is cut down is there if any row is; if rows stay where they are, it is there if the first
row of the table that was projected is. -/
theorem scalar_read {depth : Nat} {w w' : Workspace} {R : Reader} {r : Reading}
    (hR : EncodesQueries (Query.nested (depth + 1)) w R)
    (hg : Gives (encode R (.query tag withs (.project root targets distinct) source wh group order byname)) w r w') :
    ∃ v u label k place out n columns shrinks, Gives (Query.sized root) v (label, k) v ∧
      Gives (Query.select (Query.nested depth) place root targets distinct k) v out u ∧
      (∃ v₁ s v₂, Gives (Project.readTargets s targets) v₁ columns v₂) ∧
      (columns.any (·.2.2) = false → k.compare .lt (v.catalog.table place).bound = .ok shrinks) ∧
      r = Reading.firstCell (w'.catalog.table out).id ∧ (w'.catalog.table out).rows = .ok n ∧
      ∀ I : Interpretation, (∀ f ∈ w'.formulas.entries, I.Holds f.term) →
        (0 < n → I.deleted (w'.catalog.table out).id 0 = false → I.read r = I.scalar (w'.catalog.table out).id n) ∧
        I.Opens (w'.catalog.table out).id n (.ofProjection ((v.catalog.table place).mentionsIfAny "Grouped from")
          (columns.any (·.2.2)) shrinks (v.catalog.table place).id) := by
  obtain ⟨outer, p, w₁, hp, rfl, hcatalog, hformulas⟩ := hR.gives hg
  rw [hcatalog, hformulas]
  obtain ⟨a, _, hencode, hp⟩ := bind_iff.1 hp
  obtain ⟨rfl, rfl⟩ := pure_iff.1 hp
  obtain ⟨v, label, k, place, out, u, hsized, hselect, halias⟩ := encodeQuery_selects outer none trivial hencode
  obtain ⟨columns, shrinks, h⟩ := select_projects hselect
  obtain ⟨hsame, hchain⟩ := aliasIfAny_unscanned h.unscanned halias
  obtain ⟨n, hn, hopens⟩ := h.opens.chain hchain h.entered
  rw [hsame]
  refine ⟨v, u, label, k, place, out, n, columns, shrinks, hsized, hselect, h.targets, h.smaller, rfl, hn, ?_⟩
  refine fun I hI ↦ ⟨?_, ?_⟩
  · intro hpos hthere
    exact (scalar_of_first hpos hthere).symm
  · exact hopens I hI

def twoRowsLoaded : Workspace := (exec (start singleTable [] (.int 2) (.int 60) .null) {}).2

/-- `SELECT a FROM t` at a row of the table. -/
def scalarColumn : Encoding Reading := encode (atRow (Query.nested 3) 0 0 none none 0 200) selectColumn

/-- `SELECT a FROM t` is read at the first row, and has the right value if that row is there. -/
theorem scalarColumn_read : ∃ r w', Gives scalarColumn twoRowsLoaded r w' ∧ ∃ t n, r = Reading.firstCell t ∧
    ∀ I : Interpretation, (∀ f ∈ w'.formulas.entries, I.Holds f.term) →
      (0 < n → I.deleted t 0 = false → I.read r = I.scalar t n) := by
  have hsome : (exec scalarColumn twoRowsLoaded).1.toOption.isSome := by decide +kernel
  obtain ⟨r, hr⟩ := Option.isSome_iff_exists.1 hsome
  obtain ⟨w', hg⟩ : ∃ w', Gives scalarColumn twoRowsLoaded r w' := ⟨_, .of_toOption hr⟩
  have hreader : EncodesQueries (nested (2 + 1)) twoRowsLoaded
      (atRow (nested (2 + 1)) 0 0 none none 0 (199 + 1)) := .row 0 0 none none 0 199
  have hencode : Gives (encode (atRow (nested (2 + 1)) 0 0 none none 0 (199 + 1)) selectColumn) twoRowsLoaded r w' :=
    hg
  unfold selectColumn at hencode
  obtain ⟨v, u, label, k, place, out, n, columns, shrinks, -, -, -, -, hfirst, -, hread⟩ := scalar_read hreader hencode
  exact ⟨r, w', hg, _, n, hfirst, fun I hI ↦ (hread I hI).1⟩

/-- The first row of the table is not there, and the second one is or is not. -/
def laterRow (second : Bool) : Interpretation where
  constant _ := 0
  emptyOr := false
  cell t i _ := if t = 1 ∧ i = 0 then 7 else 5
  null _ _ _ := false
  grouping _ _ _ := false
  deleted _ i := if i = 1 then !second else true
  belongs _ _ := false
  size _ := 0
  choice _ i := if i = 1 then second.toInt else 0
  overZero _ := 0

/-- Where the first row is not there, the formulas allow any value for `SELECT a FROM t`, whether there are other rows
or not. -/
theorem scalarColumn_strays (second : Bool) :
    (∀ f ∈ (exec scalarColumn twoRowsLoaded).2.formulas.entries, (laterRow second).Holds f.term) ∧
      (exec scalarColumn twoRowsLoaded).1.toOption.map (laterRow second).read = some (some 7) ∧
      (laterRow second).scalar 1 2 = if second then some 5 else none := by
  cases second <;> decide +kernel

end Queries

end QueryEquiv
