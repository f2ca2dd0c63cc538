import QueryEquiv.Proofs.Stages

/-!
# Encoding goes by changes

A projection makes a table of its own, or gives its columns to a copy of the table of a grouping. Together
with names and aliases this completes the list of what encoding does: a whole query is encoded by a chain of
changes (`Chain.query`), by induction on the query and on how deep queries are nested in its expressions.
-/

namespace QueryEquiv

open Node Table Database Keeps Formulas Interpretation Gives List Workspace Expression Operator Project

theorem newReader_gives_iff {w w' : Workspace} {reader : Nat} :
    Gives newReader w reader w' ↔ reader = w.nextReader ∧ w' = { w with nextReader := w.nextReader + 1 } := by
  simp [-bind_pure_comp, newReader, bind_iff]

/-! ## Targets -/

section Targets

variable {w w' : Workspace} {targets : List Node} {cs : List (Column × Target × Bool)}

theorem readTargets_gives {source : Table} (hg : Gives (readTargets source targets) w cs w') :
    (∃ next clauses, w' = w.noting next clauses) ∧ (cs.map (·.1)).map (·.id) = upTo (cs.map (·.1)).length := by
  simp only [readTargets, copied, bind_iff, get_iff] at hg
  obtain ⟨_, _, ⟨_, _, ⟨rfl, rfl⟩, _, _, rfl, rfl, rfl⟩, ns, v, hns, hcs⟩ := hg
  obtain rfl := (flatMapM (S := fun _ ↦ True) fun n _ ↦ .lift fun _ _ _ _ ↦ trivial).unchanged hns
  obtain ⟨rfl, hids, -⟩ := targetColumns_keeps source 0 ns rfl hcs
  refine ⟨⟨_, _, rfl⟩, ?_⟩
  rw [map_map, upTo, length_map, range_eq_range']
  exact hids

/-- The targets of a projection have a property once they were read. -/
def ReadsAs (φ : Node → Prop) (source : Table) (targets : List Node) (w : Workspace) : Prop :=
  ∀ {cs w'}, Gives (Project.readTargets source targets) w cs w' →
    ∀ e i, (Target.computed e, i) ∈ (cs.map (·.2.1)).zipIdx → e.Everywhere φ

theorem Node.Innate.readsAs {φ : Node → Prop} (hφ : Innate φ) (ht : ∀ t ∈ targets, t.Everywhere φ)
    (source : Table) (w : Workspace) : ReadsAs φ source targets w := fun hg ↦
  (Operator.readTargets_keeps (N := Everywhere φ) (P := fun _ ↦ True) (fun _ _ ↦ hφ.plain _ rfl rfl) source
    (copied_keeps hφ.toLasting (fun _ _ _ _ ↦ trivial) ht) trivial hg).2

end Targets

/-! ## Projections -/

section Projections

variable {R : Workspace → Workspace → Prop} (hR : Walk R) {φ : Node → Prop} {sub : Subquery}
  (hsub : Passes R φ sub) {w w' : Workspace} {out : Nat}

def projected (source : Nat) (id : Int) (step : String) (columns : List Column) (t : Table) : Table :=
  { t with
    columns := t.columns ++ columns
    ancestors := t.ancestors ++ [.one source]
    lineage := some s!"{step} from T{id}" }

variable {output : Nat} {columns : List Column} {tag : Nat} {label : Option String} {input : Nat} {cut : Option Nat}
  {k : Value} {targets : List (Target × Nat)} {source : Int} {db : Database} {members place : Nat}

theorem describe_gives {source : Nat} {step : String} {u : Unit}
    (hg : Gives (describe output source step columns) w u w') :
    ∃ db, w.database.addTable output ((w.catalog.modify output
        (projected source (w.catalog.table source).id step columns)).table output) = (.ok (), db) ∧ w' = { w with
        catalog := w.catalog.modify output (projected source (w.catalog.table source).id step columns)
        database := db } := by
  simp only [describe, bind_iff, table_gives, changeTable_gives, addTable_gives_iff] at hg
  obtain ⟨_, _, ⟨rfl, rfl⟩, _, _, rfl, db, hadd, rfl⟩ := hg
  exact ⟨db, hadd, rfl⟩

/-- The labels that a projection takes over from its clause. -/
def labelled (c : ClauseState) (t : Table) : Table :=
  { t with origin := some { label := c.label, distinct := some c.distinct, grouping := some c.grouping } }

theorem labelled_kin (c : ClauseState) (t : Table) : (labelled c t).Kin t := ⟨rfl, rfl, rfl, rfl, .inl rfl⟩

theorem takeLabels_gives (hg : Gives (takeLabels output tag) w label w') :
    ∃ c : ClauseState, c = (w.clauses.lookup tag).getD {} ∧ label = c.label ∧
      w' = { w with catalog := w.catalog.modify output (labelled c) } := by
  simp only [takeLabels, bind_iff, clause_gives, changeTable_gives, pure_iff] at hg
  obtain ⟨_, _, ⟨rfl, rfl⟩, _, _, rfl, rfl, rfl⟩ := hg
  exact ⟨_, rfl, rfl, rfl⟩

/-- A projection works on a copy of its input. -/
theorem project_cases {targets : List Node} (hg : Gives (apply sub place tag targets k) w out w') :
    (w.catalog.table place).mentionsIfAny "Grouped from" = true ∧
        Gives (applyToGroups sub w.catalog.tables.size tag targets k)
          { w with catalog := (w.catalog.copy place).2 } out w' ∨
      (w.catalog.table place).mentionsIfAny "Grouped from" = false ∧
        Gives (applyToRows sub w.catalog.tables.size tag targets k)
          { w with catalog := (w.catalog.copy place).2 } out w' := by
  simp only [Project.apply, bind_iff, copyTable_gives, table_gives, lift_iff] at hg
  obtain ⟨_, _, ⟨rfl, rfl⟩, _, _, ⟨rfl, rfl⟩, b, _, ⟨hb, rfl⟩, hg⟩ := hg
  have hmentions : (w.catalog.table place).mentionsIfAny "Grouped from" = b := by
    obtain ⟨as, hlike⟩ := Catalog.copy_like w.catalog place
    rw [hlike, mentions] at hb
    rcases hl : (w.catalog.table place).lineage with _ | l
    · simp [hl] at hb
    · simpa [hl, mentionsIfAny] using hb
  rw [hmentions]
  cases b with
  | true => exact .inl ⟨rfl, hg⟩
  | false => exact .inr ⟨rfl, hg⟩

theorem decides_singleRow (id : Int) (mapping : List Term) : (singleRow id mapping).Decides id 1 := by
  intro I hI b hb
  obtain rfl : b = 0 := by omega
  rw [singleRow, holds_and] at hI
  exact .inl ((holds_kept _ _).1 (hI _ (by simp)))

def projectedTable (w : Workspace) (input : Nat) (source : Int) (columns : List Column) (bound : Value) : Table :=
  projected input source "Projected" columns
    { id := w.lastTable + 1, name := (w.catalog.table input).name, bound }

theorem projectedTable_begins (input : Nat) (source : Int) (columns : List Column) (bound : Value) :
    (projectedTable w input source columns bound).Begins "Projected from T" :=
  .of_append (toString source) rfl

theorem projectedTable_mentions {bound : Value} {s : String}
    (hs : 'G' ∈ s.toList) : (projectedTable w input source columns bound).mentionsIfAny s = false := by
  refine Text.occursIn_eq_false 'G' hs ?_
  rw [String.toList_append, mem_append, not_or]
  exact ⟨by decide, notMem_toString (by decide) source⟩

theorem projected_placed {v : Workspace} {g : Table → Table} {b d : Value} {c : Catalog} (hv : Chain w v)
    (htables : v.catalog.tables = w.catalog.tables) (hformulas : v.formulas = w.formulas)
    (hplaces : v.database.places = w.database.places) (hnotes : SameNotes w v)
    (hids : columns.map (·.id) = upTo columns.length)
    (hc : c = (v.catalog.add { id := v.lastTable + 1, name := (v.catalog.table input).name, bound := b }).2.modify
        v.catalog.tables.size (g ∘ projected input source "Projected" columns))
    (hadd : v.database.addTable v.catalog.tables.size (projectedTable v input source columns b) = (.ok (), db))
    (hkin : (g (projectedTable v input source columns b)).Kin (projectedTable v input source columns d))
    (hbound : d = b ∨ ∃ n, (projectedTable v input source columns d).rows = .ok n ∧
      n ≤ (db.rowsOf (v.lastTable + 1)).size) :
    Placed w v.catalog.tables.size (g (projectedTable v input source columns b))
      { v with lastTable := v.lastTable + 1, catalog := c, database := db } := by
  have hsize : v.catalog.tables.size < (v.catalog.add
      { id := v.lastTable + 1, name := (v.catalog.table input).name, bound := b }).2.tables.size := by
    rw [Catalog.size_add]
    exact Nat.lt_succ_self _
  have hword := projectedTable_begins (w := v) input source columns b
  refine entered_placed hv htables hformulas hplaces hnotes ?_ (fun q hq ↦ ?_) hadd rfl (hword.made)
    (fun h ↦ absurd h (hword.not_begins)) (.inl ⟨_, hids⟩) ?_ ⟨d, hkin, ?_⟩
  · rw [hc, Catalog.size_modify]
    exact hsize
  · rw [hc, Catalog.table_modify_of_ne hq.symm, Catalog.table_add_of_ne hq]
  · rw [hc, Catalog.table_modify_self hsize, Catalog.table_add_self]
    rfl
  · refine hbound.imp_right fun h ↦ ⟨projectedTable_mentions (by decide), ?_⟩
    rw [hkin.rows_eq]
    exact h

theorem table_projected {c : Catalog} {t : Table} {f : Table → Table} :
    ((c.add t).2.modify c.tables.size f).table c.tables.size = f t := by
  rw [Catalog.table_modify_self (by simp), Catalog.table_add_self]

/-- A workspace with the table of a projection that is not of groups, before it is cut down. -/
def withProjected (w : Workspace) (input : Nat) (source : Int) (columns : List Column) (c : ClauseState)
    (db : Database) : Workspace :=
  { w with
    lastTable := w.lastTable + 1
    catalog := ((w.catalog.add { id := w.lastTable + 1, name := (w.catalog.table input).name
                                 bound := (w.catalog.table input).bound }).2.modify w.catalog.tables.size
      (projected input source "Projected" columns)).modify w.catalog.tables.size (labelled c)
    database := db }

theorem withProjected_added (c : ClauseState) (hids : columns.map (·.id) = upTo columns.length)
    (hadd : w.database.addTable w.catalog.tables.size
      (projectedTable w input source columns (w.catalog.table input).bound) = (.ok (), db)) :
    Added w w.catalog.tables.size (labelled c (projectedTable w input source columns (w.catalog.table input).bound))
      (withProjected w input source columns c db) where
  toPlaced := projected_placed (g := labelled c) (.refl w) rfl rfl rfl (.of_formulas rfl rfl rfl rfl) hids
    (Catalog.modify_modify ..) hadd (labelled_kin c _) (.inl rfl)
  id := rfl
  last := rfl
  added := ⟨projectedTable w input source columns (w.catalog.table input).bound, rfl, rfl, rfl, hadd⟩

/-- The projection of a table that is not of groups reads its targets, makes a table and maybe cuts it down. Then the
rows are projected. -/
theorem applyToRows_gives {targets : List Node} (hg : Gives (applyToRows sub input tag targets k) w out w') :
    ∃ columns source c next clauses db cut v,
      Gives (readTargets (w.catalog.table input) targets) { w with lastTable := w.lastTable + 1 } columns
        ({ w with lastTable := w.lastTable + 1 }.noting next clauses) ∧ c = (clauses.lookup tag).getD {} ∧
      w.database.addTable w.catalog.tables.size
        (projectedTable w input source (columns.map (·.1)) (w.catalog.table input).bound) = (.ok (), db) ∧
      Gives (if columns.any (·.2.2) then pure none else cutDown w.catalog.tables.size k)
        (withProjected (w.noting next clauses) input source (columns.map (·.1)) c db) cut v ∧
      Gives (projectRows sub input w.catalog.tables.size cut k c.label (columns.map (·.2.1)).zipIdx
        (columns.any (·.2.2))) v out w' := by
  simp only [applyToRows, bind_iff, table_gives, newTableId_gives, enter_gives] at hg
  obtain ⟨_, w, ⟨rfl, rfl⟩, _, _, ⟨rfl, rfl⟩, columns, _, hread, _, _, ⟨rfl, rfl⟩, _, _, hdescribe, label, _, hlabels,
    hg⟩ := hg
  obtain ⟨⟨next, clauses, rfl⟩, -⟩ := readTargets_gives hread
  obtain ⟨db, hadd, rfl⟩ := describe_gives hdescribe
  obtain ⟨c, hc, rfl, rfl⟩ := takeLabels_gives hlabels
  rw [table_projected] at hadd
  obtain ⟨cut, v, hcut, hg⟩ := hg.branch
  exact ⟨columns, _, c, next, clauses, db, cut, v, hread, hc, hadd, hcut, hg⟩

/-! ### Projections of groups -/

theorem grouped_begins (members : Nat) (source : Int) (columns : List Column) (t : Table) :
    (projected members source "Grouped and projected" columns t).Begins "Grouped and projected from T" :=
  .of_append (toString source) rfl

/-- A copy of the table of a grouping is given columns and rows. -/
theorem grouped_placed {as : List Ancestor} (hgrouped : (w.catalog.table place).mentionsIfAny "Grouped from" = true)
    (hlike : (w.catalog.copy place).2.table w.catalog.tables.size = { w.catalog.table place with ancestors := as })
    (hids : columns.map (·.id) = upTo columns.length)
    (hadd : w.database.addTable w.catalog.tables.size (projected members source "Grouped and projected" columns
      { w.catalog.table place with ancestors := as }) = (.ok (), db)) : Placed w w.catalog.tables.size
      (projected members source "Grouped and projected" columns { w.catalog.table place with ancestors := as })
      { w with
        catalog := (w.catalog.copy place).2.modify w.catalog.tables.size
          (projected members source "Grouped and projected" columns)
        database := db } := by
  have hsize := Catalog.size_lt_copy w.catalog place
  have hcopied := Catalog.copy_copied w.catalog place
  have hself := Catalog.table_modify_self (f := projected members source "Grouped and projected" columns) hsize
  rw [hlike] at hself
  have henters : Enters w w.catalog.tables.size
      (projected members source "Grouped and projected" columns { w.catalog.table place with ancestors := as })
      ((w.catalog.copy place).2.modify w.catalog.tables.size
        (projected members source "Grouped and projected" columns)) db :=
    { new := le_rfl
      entered := by rw [Catalog.size_modify]; exact hsize
      old := fun q hq ↦ by rw [Catalog.table_modify_of_ne hq.ne', hcopied.old q hq]
      like := fun q hq ↦ by rw [Catalog.table_modify_of_ne hq.symm]; exact hcopied.like q
      added := hadd }
  exact
    { chain := (Chain.refl w).step (.project (n := columns.length) henters hgrouped rfl rfl rfl
        (by rw [← hids]; exact map_append) (.of_eq hself))
      new := le_rfl
      entered := henters.entered
      table := hself
      old := henters.old
      like := henters.like
      formulas := rfl
      places := (addTable_ok hadd).2
      made := (grouped_begins members source columns _).made
      rows := (addTable_ok hadd).1
      notes := .of_formulas rfl rfl rfl rfl }

/-- A table of groups that has its columns gets its labels, is cut down, and then the groups are projected. -/
theorem labelGroups_gives {single : Bool} (hg : Gives (do
      match (← table output).origin with
      | some origin => changeClause tag ({ · with grouping := origin.label })
      | none => throw .absentField
      let label ← takeLabels output tag
      let cut ← if single then pure none else cutDown output k
      projectGroups sub members output cut k label targets) w out w') :
    ∃ origin c cut v, (w.catalog.table output).origin = some origin ∧
      c = { (w.clauses.lookup tag).getD {} with grouping := origin.label } ∧
      Gives (if single then pure none else cutDown output k)
        { w with clauses := put tag c w.clauses, catalog := w.catalog.modify output (labelled c) } cut v ∧
      Gives (projectGroups sub members output cut k c.label targets) v out w' := by
  obtain ⟨_, w, ht, hg⟩ := bind_iff.1 hg
  obtain ⟨rfl, rfl⟩ := table_gives.1 ht
  rcases horigin : (w.catalog.table output).origin with _ | origin
  · simp [horigin] at hg
  · simp only [horigin] at hg
    obtain ⟨_, _, hclause, hg⟩ := bind_iff.1 hg
    obtain rfl := modify_iff.1 hclause
    obtain ⟨label, _, hlabels, hg⟩ := bind_iff.1 hg
    obtain ⟨c, hc, rfl, rfl⟩ := takeLabels_gives hlabels
    rw [lookup_put, if_pos (beq_self_eq_true _), Option.getD_some] at hc
    subst hc
    obtain ⟨cut, v, hcut, hg⟩ := hg.branch
    exact ⟨origin, _, cut, v, rfl, rfl, hcut, hg⟩

/-- The projection of a grouping goes on with a copy of its table, and reads the rows from the copy of the table that
was grouped. -/
theorem applyToGroups_gives {targets : List Node}
    (hgrouped : (w.catalog.table place).mentionsIfAny "Grouped from" = true)
    (hg : Gives (Project.applyToGroups sub w.catalog.tables.size tag targets k)
      { w with catalog := (w.catalog.copy place).2 } out w') : ∃ members columns as origin next clauses c v₁ cut v₂,
      Gives (Project.groupedTable ((w.catalog.copy place).2.table w.catalog.tables.size))
        { w with catalog := (w.catalog.copy place).2 } members { w with catalog := (w.catalog.copy place).2 } ∧
      Gives (Project.readTargets ((w.catalog.copy place).2.table members) targets)
        { w with catalog := (w.catalog.copy place).2 } columns
        ({ w with catalog := (w.catalog.copy place).2 }.noting next clauses) ∧
      (w.catalog.table place).origin = some origin ∧
      c = { (clauses.lookup tag).getD {} with grouping := origin.label } ∧
      Placed (w.noting next (Formulas.put tag c clauses)) w.catalog.tables.size
        (labelled c (projected members ((w.catalog.copy place).2.table members).id
          "Grouped and projected" (columns.map (·.1)) { w.catalog.table place with ancestors := as })) v₁ ∧
      v₁.catalog.tables.size = (w.catalog.copy place).2.tables.size ∧
      (∀ q ≠ w.catalog.tables.size, v₁.catalog.table q = (w.catalog.copy place).2.table q) ∧
      Gives (if columns.any (·.2.2) then pure none else Operator.cutDown w.catalog.tables.size k) v₁ cut v₂ ∧
      Cut v₁ w.catalog.tables.size cut v₂ ∧
      Gives (Project.projectGroups sub members w.catalog.tables.size cut k c.label (columns.map (·.2.1)).zipIdx)
        v₂ out w' := by
  obtain ⟨as, hlike⟩ := Catalog.copy_like w.catalog place
  have hsize := Catalog.size_lt_copy w.catalog place
  unfold applyToGroups at hg
  obtain ⟨_, _, ht, hg⟩ := bind_iff.1 hg
  obtain ⟨rfl, rfl⟩ := table_gives.1 ht
  obtain ⟨members, _, hmembers, hg⟩ := bind_iff.1 hg
  obtain rfl : _ = _ := by
    refine unchanged (Q := fun _ ↦ True) ?_ hmembers
    unfold Project.groupedTable
    split
    · exact .pure trivial
    · exact .throw
    · exact .throw
  obtain ⟨_, _, hsource, hg⟩ := bind_iff.1 hg
  obtain ⟨rfl, rfl⟩ := table_gives.1 hsource
  obtain ⟨columns, u, hread, hg⟩ := bind_iff.1 hg
  obtain ⟨⟨next, clauses, rfl⟩, hids⟩ := readTargets_gives hread
  obtain ⟨_, _, hdescribe, hg⟩ := bind_iff.1 hg
  obtain ⟨db, hadd, rfl⟩ := describe_gives hdescribe
  rw [Catalog.table_modify_self hsize, hlike] at hadd
  have hmade := grouped_placed (w := w.noting next clauses) hgrouped hlike hids hadd
  obtain ⟨origin, c, cut, v₂, horigin, hc, hcut, hg⟩ := labelGroups_gives hg
  rw [hmade.table] at horigin
  have hplaced := (hmade.noted (put tag c clauses)).relabel (u := ⟨⟩) (changeTable_gives.2 rfl) (labelled_kin c)
  refine ⟨members, columns, as, origin, next, clauses, c, _, cut, v₂, hmembers, hread, horigin, hc, hplaced, ?_,
    fun q hq ↦ ?_, hcut, ?_, hg⟩
  · rw [Catalog.size_modify, Catalog.size_modify]
  · rw [Catalog.table_modify_of_ne hq.symm, Catalog.table_modify_of_ne hq.symm]
  · split at hcut
    · obtain ⟨rfl, rfl⟩ := pure_iff.1 hcut
      exact .none hplaced.entered
    · exact hplaced.cutDown hcut ((labelled_kin _ _).begins (grouped_begins ..)) (by decide)

/-! ### What projections read -/

include hR hsub

section

variable (ht : ∀ e i, (Target.computed e, i) ∈ targets → e.Everywhere φ)
include ht

/-- A projection with a row for each row reads its targets at all rows and then is settled. -/
theorem projectRows_gives (hg : Gives (projectRows sub input output cut k label targets false) w out w') :
    ∃ (rows : Nat) (mappings : List (List Term)) (u : Workspace), (w.catalog.table output).rows = .ok rows ∧
      mappings.length = rows ∧ R w u ∧
      Gives (settle output cut k label (.choice (w.catalog.table output).id ·) (kept (w.catalog.table output).id)
        (cases (w.catalog.table input).id (w.catalog.table output).id mappings)
        (allDecided (w.catalog.table output).id rows)) u out w' := by
  simp only [projectRows, bind_iff, table_gives, Bool.false_eq_true, if_false, lift_iff] at hg
  obtain ⟨reader, v, hreader, _, _, ⟨rfl, rfl⟩, _, _, ⟨rfl, rfl⟩, _, _, ⟨rfl, rfl⟩, rows, _, ⟨hrows, rfl⟩, mappings, u,
    hmappings, hsettle⟩ := hg
  obtain ⟨-, rfl⟩ := newReader_gives_iff.1 hreader
  have hread := (each (fun row _ ↦ rowMapping_keeps hR.quiet everywhere_hereditary (hsub _) input _ reader
    row ht) (hR.quiet.nextReader _ (hR.refl w)) hmappings).1
  have hlength : mappings.length = rows := by simpa using (forall₂_of_mapM hmappings).length_eq.symm
  exact ⟨rows, mappings, u, hrows, hlength, hread, hsettle⟩

theorem projectRows_settled {t : Table} {v v₁ : Workspace} {word : String} (hmade : Added w output t v)
    (hword : t.Begins word) (hapart : OtherWord word) (hcut : Gives (cutDown output k) v cut v₁)
    (hg : Gives (projectRows sub input output cut k label targets false) v₁ out w') :
    ∃ rows mappings, t.rows = .ok rows ∧ mappings.length = rows ∧
      Settled R w t k label (.choice (w.lastTable + 1) ·) (kept (w.lastTable + 1))
        (cases (v₁.catalog.table input).id (w.lastTable + 1) mappings) (allDecided (w.lastTable + 1) rows)
        out w' := by
  obtain ⟨rows, mappings, u, hrows, hlength, hread, hsettle⟩ := projectRows_gives hR hsub ht hg
  have hcutDown := hmade.cutDown hcut hword hapart
  have hkin := (hcutDown.chain.kin hmade.entered).1
  rw [hmade.table] at hkin
  rw [hkin.rows_eq] at hrows
  rw [hkin.id, hmade.id] at hsettle
  exact ⟨rows, mappings, hrows, hlength, .intro hmade hcut hcutDown hread hsettle⟩

/-- A projection with a single row, which it looks at. -/
theorem projectRows_gives_single (hg : Gives (projectRows sub input output cut k label targets true) w out w') :
    out = output ∧ (targets ≠ [] → 0 < (w.database.rowsOf (w.catalog.table output).id).size) ∧ ∃ mapping u, R { w with
          nextReader := w.nextReader + 1
          catalog := w.catalog.modify output ({ · with bound := .int 1 }) } u ∧ w' = { u with
          formulas := u.formulas.append (singleRow (w.catalog.table output).id mapping) label } := by
  simp only [projectRows, if_true, bind_iff, table_gives, newReader_gives_iff, changeTable_gives,
    lift_iff, pure_iff] at hg
  obtain ⟨_, _, ⟨rfl, rfl⟩, _, _, ⟨rfl, rfl⟩, _, _, ⟨rfl, rfl⟩, _, _, rfl, rows, _, ⟨-, rfl⟩, mapping, u, hmapping, _,
    _, happend, rfl, rfl⟩ := hg
  refine ⟨rfl, fun hne ↦ ?_, mapping, u, ?_, modify_iff.1 happend⟩
  · cases targets with
    | nil => exact absurd rfl hne
    | cons target targets =>
      simp only [singleMapping, bind_iff, table_gives] at hmapping
      obtain ⟨_, _, ⟨rfl, rfl⟩, _, _, hcell, -⟩ := hmapping
      have hlt := lt_size_of_cell? (i := 0) hcell
      exact hlt
  · exact (singleMapping_keeps hR.quiet everywhere_hereditary (hsub _) input _ _ _ ht (hR.refl _) hmapping).1

/-- A projection of groups reads its targets in all groups and then is settled. -/
theorem projectGroups_gives (hg : Gives (projectGroups sub members output cut k label targets) w out w') :
    ∃ (start : Nat) (mappings : List (List Term)) (u : Workspace), (w.catalog.table output).rows = .ok start ∧ R w u ∧
      Gives (settle output cut k label (fun group ↦ .choice (w.catalog.table output).id (start + group : Nat))
        (fun group ↦ kept (w.catalog.table output).id (start + group))
        (groupCases (w.catalog.table output).id start mappings)
        (allDecided (w.catalog.table output).id (start * 2))) u out w' := by
  simp only [projectGroups, bind_iff, table_gives, newReader_gives_iff, lift_iff] at hg
  obtain ⟨_, _, ⟨rfl, rfl⟩, _, _, ⟨rfl, rfl⟩, _, _, ⟨rfl, rfl⟩, rows, _, ⟨-, rfl⟩, start, _, ⟨hstart, rfl⟩, mappings, u,
    hmappings, hsettle⟩ := hg
  have hread := (each (fun (group : Nat) _ ↦ groupMapping_keeps hR.quiet everywhere_hereditary (hsub _)
    ⟨output, members, group, none⟩ (by simp) _ _ _ _ ht) (hR.quiet.nextReader _ (hR.refl w)) hmappings).1
  exact ⟨start, mappings, u, hstart, hread, hsettle⟩

theorem projectGroups_settles (hg : Gives (projectGroups sub members output cut k label targets) w out w') :
    out = cut.getD output ∧ ∃ start term u, (w.catalog.table output).rows = .ok start ∧
      term.Decides (w.catalog.table output).id (start * 2) ∧ R w u ∧
      w' = { u with formulas := u.formulas.append term label } := by
  obtain ⟨start, mappings, u, hstart, hread, hsettle⟩ := projectGroups_gives hR hsub ht hg
  obtain ⟨rfl, u', cs, hsettled, rfl⟩ := settle_passes hR hsettle
  exact ⟨rfl, start, _, u', hstart, decides_allDecided (fun t ht ↦ mem_append_right _ ht),
    hR.trans hread hsettled, rfl⟩

end

theorem applyToRows_applied {targets : List Node}
    (ht : ReadsAs φ (w.catalog.table input) targets { w with lastTable := w.lastTable + 1 })
    (hg : Gives (applyToRows sub input tag targets k) w out w') : ∃ cs source columns bound next clauses c n term,
      Gives (readTargets (w.catalog.table input) targets) { w with lastTable := w.lastTable + 1 } cs
        ({ w with lastTable := w.lastTable + 1 }.noting next clauses) ∧ c = (clauses.lookup tag).getD {} ∧
      (∃ m, (w.catalog.table input).rows = .ok m) ∧
      (projectedTable (w.noting next clauses) input source columns bound).rows = .ok n ∧
      term.Decides (w.lastTable + 1) n ∧
      Applied R (w.noting next clauses) (labelled c (projectedTable (w.noting next clauses) input source columns bound))
        term c.label out w' := by
  obtain ⟨columns, source, c, next, clauses, db, cut, v, hread, hc, hadd, hcut, hg⟩ := applyToRows_gives hg
  obtain ⟨-, hids⟩ := readTargets_gives hread
  have ht := ht hread
  have hinput : ∃ m, (w.catalog.table input).rows = .ok m := (addTable_ok hadd).1
  rcases hsingle : columns.any (·.2.2)
  · rw [hsingle] at hcut hg
    obtain ⟨n, _, hn, -, h⟩ := projectRows_settled hR hsub ht
      (withProjected_added (w := w.noting next clauses) c hids hadd)
      ((labelled_kin c _).begins (projectedTable_begins ..)) (by decide) hcut hg
    obtain ⟨term, h⟩ := h.applied hR (List.Subset.refl _)
    exact ⟨_, _, _, _, next, clauses, c, n, term, hread, hc, hinput, hn, h⟩
  · rw [hsingle] at hcut hg
    obtain ⟨rfl, rfl⟩ := pure_iff.1 hcut
    have hne : (columns.map (·.2.1)).zipIdx ≠ [] := by
      intro hnil
      obtain ⟨x, hx, -⟩ := any_eq_true.1 hsingle
      simp_all
    obtain ⟨rfl, hrow, mapping, u, hpassed, rfl⟩ := projectRows_gives_single hR hsub ht hg
    have hrow := hrow hne
    have hdecides := decides_singleRow (w.lastTable + 1) mapping
    rw [withProjected, Catalog.modify_modify, table_projected] at hrow ⊢
    have hmade := projected_placed (w := w.noting next clauses)
      (v := { w.noting next clauses with nextReader := w.nextReader + 1 })
      (g := (fun t ↦ { t with bound := .int 1 }) ∘ labelled c) (d := .int 1)
      (Chain.passage.note (.refl _) rfl rfl (fun _ ↦ rfl) rfl rfl) rfl rfl rfl (.of_formulas rfl rfl rfl rfl) hids
      ((Catalog.modify_modify ..).trans (Catalog.modify_modify ..)) hadd ⟨rfl, rfl, rfl, rfl, .inl rfl⟩
      (.inr ⟨1, rfl, hrow⟩)
    exact ⟨_, _, _, .int 1, next, clauses, c, 1, _, hread, hc, hinput, rfl, hdecides,
      .intro hmade (.none hmade.entered) hpassed⟩

theorem applyToGroups_applied {targets : List Node}
    (ht : ∀ source, ReadsAs φ source targets { w with catalog := (w.catalog.copy place).2 })
    (hgrouped : (w.catalog.table place).mentionsIfAny "Grouped from" = true)
    (hg : Gives (applyToGroups sub w.catalog.tables.size tag targets k)
      { w with catalog := (w.catalog.copy place).2 } out w') :
    ∃ cs members source columns as origin next clauses c start term,
      (∃ t, Gives (readTargets t targets) { w with catalog := (w.catalog.copy place).2 } cs
        ({ w with catalog := (w.catalog.copy place).2 }.noting next clauses)) ∧
      (w.catalog.table place).origin = some origin ∧
      c = { (clauses.lookup tag).getD {} with grouping := origin.label } ∧
      (w.catalog.table place).rows = .ok start ∧ term.Decides (w.catalog.table place).id (start * 2) ∧
      Applied R (w.noting next (put tag c clauses))
        (labelled c (projected members source "Grouped and projected" columns
          { w.catalog.table place with ancestors := as })) term c.label out w' := by
  obtain ⟨members, columns, as, origin, next, clauses, c, v₁, cut, v₂, -, hread, horigin, hc, hmade, -, -, -, hcut, hg⟩ :=
    applyToGroups_gives hgrouped hg
  obtain ⟨rfl, start, term, u, hstart, hdecides, hpassed, rfl⟩ := projectGroups_settles hR hsub (ht _ hread) hg
  have hkin := (hcut.chain.kin hmade.entered).1
  rw [hmade.table] at hkin
  rw [hkin.rows_eq] at hstart
  rw [hkin.id] at hdecides
  exact ⟨_, members, _, _, as, origin, next, clauses, c, start, term, ⟨_, hread⟩, horigin, hc, hstart, hdecides,
    .intro hmade hcut hpassed⟩

end Projections

/-! ## Names and aliases -/

section Names

variable {w w' : Workspace}

/-- The rows of an alias are there where those of the table are. -/
theorem shareRows_gives {id source : Int} {label : Option String} {rows : List Nat} {u : PUnit}
    (hg : Gives (forIn rows ⟨⟩ fun (row : Nat) (_ : PUnit) ↦ do
      append (.eq (.choice id row) (.choice source row)) label
      append (.eq (.deleted id row) (.deleted source row)) label
      pure (ForInStep.yield ⟨⟩)) w u w') : ∃ fs : Formulas, w' = { w with formulas := fs } ∧
      (∀ Q : Formulas → Prop, Q w.formulas → (∀ gs t, Q gs → Q (gs.append t label)) → Q fs) ∧
      ∀ I : Interpretation, (∀ f ∈ fs.entries, I.Holds f.term) → ∀ r ∈ rows, I.deleted id r = I.deleted source r := by
  induction rows generalizing w with
  | nil =>
    rw [forIn_nil, pure_iff] at hg
    exact ⟨w.formulas, hg.2, fun _ hQ _ ↦ hQ, by simp⟩
  | cons row rows ih =>
    simp only [forIn_cons, bind_assoc, pure_bind, bind_iff, Workspace.append, modify_iff] at hg
    obtain ⟨_, _, rfl, _, _, rfl, hg⟩ := hg
    obtain ⟨fs, rfl, happended, hrest⟩ := ih hg
    refine ⟨fs, rfl, fun Q hQ hstep ↦ happended Q (hstep _ _ (hstep _ _ hQ)) hstep, fun I hI ↦ ?_⟩
    have hextends := happended (·.Extends _) (.refl _) fun _ t hgs ↦ hgs.trans (extends_append _ t _)
    rw [forall_mem_cons]
    have hrow := (I.holds_eq _ _).1 (holds_of_append (hextends.holds hI)).1
    refine ⟨Bool.eq_iff_iff.2 ?_, hrest I hI⟩
    rw [← I.holds_deleted, ← I.holds_deleted, Holds, Holds, hrow]

/-- A table under an alias is renamed if it was made, or its rows are shared. -/
theorem aliasTable_cases {place r : Nat} {byname : Value} (hg : Gives (aliasTable place byname) w r w') :
    (w.catalog.table place).Made ∧ r = place ∧ w' = { w with
        catalog := (w.catalog.retitle place byname).modify place ({ · with scope := w.currentQuery }) } ∨
      r = w.catalog.tables.size ∧ ∃ n t db fs, Shares w place n t db fs ∧ t.name = byname ∧ w' =
        { w with lastTable := w.lastTable + 1, catalog := (w.catalog.add t).2, database := db, formulas := fs } := by
  simp only [aliasTable, bind_iff, table_gives, lift_iff] at hg
  obtain ⟨_, _, ⟨rfl, rfl⟩, b, w, ⟨hb, rfl⟩, hg⟩ := hg
  obtain ⟨l, hl⟩ : ∃ l, (w.catalog.table place).lineage = some l := by
    rcases hl : (w.catalog.table place).lineage with _ | l
    · simp [mentions, hl] at hb
    · exact ⟨l, rfl⟩
  have hoccurs : Text.occursIn "Scan" l = b := by simpa [mentions, hl] using hb
  cases b with
  | false =>
    simp only [Bool.false_eq_true, if_false, retitle, changeTable, bind_iff, get_iff, modify_iff, pure_iff] at hg
    obtain ⟨_, _, rfl, _, _, ⟨rfl, rfl⟩, _, _, rfl, rfl, rfl⟩ := hg
    refine .inl ⟨⟨l, hl, fun hscan ↦ ?_⟩, rfl, rfl⟩
    rw [Text.occursIn_iff.2 hscan.isInfix] at hoccurs
    cases hoccurs
  | true =>
    simp only [if_true, bind_iff, newTableId_gives, get_iff, enter_gives, modify_iff, lift_iff, pure_iff] at hg
    obtain ⟨_, _, ⟨rfl, rfl⟩, _, _, ⟨rfl, rfl⟩, _, _, ⟨rfl, rfl⟩, _, _, rfl, rows, _, ⟨hrows, rfl⟩, _, _, hloop, rfl,
      rfl⟩ := hg
    obtain ⟨fs, rfl, happended, hdeleted⟩ := shareRows_gives hloop
    refine .inr ⟨rfl, rows, _, _, fs, ?_, rfl, rfl⟩
    exact
      { scanned := by rw [mentionsIfAny, hl]; exact hoccurs
        kin := ⟨rfl, rfl, by simp [retitled], rfl, .inl rfl⟩
        origin := rfl
        rows := hrows
        places := by simp
        shared := fun i ↦ by rw [rowsOf_put, rowsOf_touch, rowsOf_touch]
        appended := fun Q hQ hstep ↦ happended Q hQ fun gs t ↦ hstep gs t _
        deleted := fun I hI r hr ↦ hdeleted I hI r (mem_range.2 hr) }

end Names

/-! ## Queries -/

/-- A grouping, all choices of which are decided. Its table waits for the columns. -/
inductive Grouping (R : Workspace → Workspace → Prop) (w : Workspace) : Nat → Workspace → Prop
  | intro {input rows place : Nat} {label : Option String} {keys : List Node} {K : List (List Reading)}
      {H : List Reading} {v u : Workspace} (rows_eq : (w.catalog.table input).rows = .ok rows) (length : K.length = rows)
      (made : Placed w place (groupedTable w input label keys) v) (reads : R v u) :
      Grouping R w place { u with
        formulas := u.formulas.append (GroupBy.formula (w.catalog.table input).id (w.lastTable + 1) K H) label }

/-- The projection of a grouping, which gives columns to a copy of its table. -/
inductive GroupProjection (R : Workspace → Workspace → Prop) (w : Workspace) (place : Nat) : Nat → Workspace → Prop
  | intro {members start out : Nat} {source : Int} {columns : List Column} {as : List Ancestor}
      {origin : Origin} {c : ClauseState} {term : Term} {w' : Workspace}
      (grouped : (w.catalog.table place).mentionsIfAny "Grouped from" = true)
      (origin_eq : (w.catalog.table place).origin = some origin) (grouping : c.grouping = origin.label)
      (rows_eq : (w.catalog.table place).rows = .ok start)
      (decides : term.Decides (w.catalog.table place).id (start * 2))
      (applied : Applied R w (labelled c (projected members source "Grouped and projected" columns
        { w.catalog.table place with ancestors := as })) term c.label out w') : GroupProjection R w place out w'

/-- What an operator other than a grouping does, with the choices that its formula decides. -/
inductive Stage (R : Workspace → Workspace → Prop) (w : Workspace) : Nat → Workspace → Prop
  | filter {input rows out : Nat} {label : Option String} {text : String} {term : Term} {w' : Workspace}
      (rows_eq : (w.catalog.table input).rows = .ok rows) (decides : term.Decides (w.lastTable + 1) rows)
      (applied : Applied R w (filteredTable w input label text) term label out w') : Stage R w out w'
  /-- A join, the pairs of which are decided unless it is a full one. -/
  | join {left right m n out : Nat} {r : Join.Request} {kind : Join.Kind} {bound : Value} {text : String} {term : Term}
      {w' : Workspace}
      (bound_eq : kind.bound (w.catalog.table left).bound (w.catalog.table right).bound = .ok bound)
      (decides : kind = .full ∨ RowsOf w left right m n ∧ term.Decides (w.lastTable + 1) (m * n))
      (applied : Applied R w (joinedTable w left right r bound text) term r.label out w') : Stage R w out w'
  | union {inputs ns : List Nat} {origin : Origin} {name : String} {columns : List Column} {bound : Value}
      {out : Nat} {term : Term} {w' : Workspace}
      (bound_eq : (inputs.map w.catalog.table).foldlM (fun (n : Value) t ↦ n.arith .add t.bound) (.int 0) = .ok bound)
      (rows_eq : (∀ p ∈ inputs, p < w.catalog.tables.size) →
        List.Forall₂ (fun input n ↦ (w.catalog.table input).rows = .ok n) inputs ns)
      (decides : term.Decides (w.lastTable + 1) ns.sum)
      (applied : Applied R w (unionTable w inputs origin name columns bound) term origin.label out w') :
      Stage R w out w'
  | distinct {input rows out : Nat} {origin : Origin} {label : Option String} {term : Term} {w' : Workspace}
      (label_eq : origin.distinct = some label) (rows_eq : (w.catalog.table input).rows = .ok rows)
      (decides : term.Decides (w.lastTable + 1) rows)
      (applied : Applied R w (distinctTable w input origin) term label out w') : Stage R w out w'
  | project {input n out : Nat} {source : Int} {columns : List Column} {bound : Value} {c : ClauseState} {term : Term}
      {w' : Workspace} (rows_eq : (projectedTable w input source columns bound).rows = .ok n)
      (decides : term.Decides (w.lastTable + 1) n)
      (applied : Applied R w (labelled c (projectedTable w input source columns bound)) term c.label out w')
      (input_rows : ∃ m, (w.catalog.table input).rows = .ok m) : Stage R w out w'
  | projectGroups {place out : Nat} {w' : Workspace} (projection : GroupProjection R w place out w') : Stage R w out w'
  | order {out : Nat} {w' : Workspace} (ordered : Ordered R w out w') : Stage R w out w'

section

variable {R : Workspace → Workspace → Prop} (hR : Walk R) {w w' : Workspace} {place out : Nat}

include hR

theorem Grouping.chain (h : Grouping R w place w') : Chain w w' := by
  cases h with
  | intro _ _ made reads => exact (made.chain.trans (hR.chain reads)).append _ _

omit hR in
theorem Grouping.noted (hR : Passage R) (h : Grouping R w place w') (next : Nat) (clauses : List (Nat × ClauseState)) :
    Grouping R w place (w'.noting next clauses) := by
  cases h with
  | @intro _ _ _ _ _ _ _ _ u rows_eq length made reads =>
    exact .intro (u := u.noting next clauses) rows_eq length made (hR.noting reads next clauses)

/-- The table that a grouping leaves behind waits for its columns. -/
theorem Grouping.begins (h : Grouping R w place w') : (w'.catalog.table place).Begins "Grouped from" := by
  cases h with
  | @intro input _ _ label keys _ _ v u _ _ made reads =>
    have hkin := ((hR.chain reads).kin made.entered).1
    rw [made.table] at hkin
    have hword := hkin.begins (groupedTable_begins input label keys)
    exact hword.of_prefix

omit hR in
theorem GroupProjection.new (h : GroupProjection R w place out w') : w.catalog.tables.size ≤ out := by
  cases h with
  | intro _ _ _ _ _ applied => exact applied.new

theorem GroupProjection.chain (h : GroupProjection R w place out w') : Chain w w' := by
  cases h with
  | intro _ _ _ _ _ applied => exact applied.chain hR

omit hR in
theorem Stage.new (h : Stage R w out w') : w.catalog.tables.size ≤ out := by
  cases h with
  | order ordered => exact ordered.new
  | projectGroups projection => exact projection.new
  | filter _ _ applied | join _ _ applied | union _ _ _ applied | distinct _ _ _ applied | project _ _ applied =>
    exact applied.new

theorem Stage.chain (h : Stage R w out w') : Chain w w' := by
  cases h with
  | order ordered => exact ordered.chain hR
  | projectGroups projection => exact projection.chain hR
  | filter _ _ applied | join _ _ applied | union _ _ _ applied | distinct _ _ _ applied | project _ _ applied =>
    exact applied.chain hR

end

/-- A join makes its table; unless it is a full one, its formula decides the pairs. -/
theorem joinBy_applied {R : Workspace → Workspace → Prop} (hR : Walk R) {φ : Node → Prop} {sub : Subquery}
    (hsub : Passes R φ sub) {w w' : Workspace} {left right out : Nat} {k : Value} {kind : Join.Kind} {r : Join.Request}
    (hφ : ∀ m : Node, m.tag? = none → m.isScan = false → φ m) (hr : r.cond.Everywhere φ)
    (hg : Gives (Query.joinBy sub kind left right r k) w out w') :
    ∃ left right text bound m n term, JoinBound w left right r bound ∧
      (kind = .full ∨ RowsOf w left right m n ∧ term.Decides (w.lastTable + 1) (m * n)) ∧
      Applied R w (joinedTable w left right r bound text) term r.label out w' := by
  cases kind with
  | inner | product =>
    obtain ⟨text, bound, m, n, _, _, _, hbound, hrows, -, h⟩ := pairwise_settled hR hsub hφ hr hg
    obtain ⟨term, hdecides, h⟩ := h.applied hR (List.Subset.refl _)
    exact ⟨_, _, text, bound, m, n, term, hbound, .inr ⟨hrows, hdecides⟩, h⟩
  | left | right =>
    obtain ⟨text, bound, m, n, _, _, hbound, hrows, h⟩ := leftJoin_settled hR hsub hφ hr hg
    obtain ⟨term, hdecides, h⟩ := h.applied hR (subset_append_left _ _)
    exact ⟨_, _, text, bound, m, n, term, hbound, .inr ⟨hrows, hdecides⟩, h⟩
  | full =>
    obtain ⟨text, bound, term, hbound, h⟩ := matching_applied hR hsub hφ hr hg
    exact ⟨_, _, text, bound, 0, 0, term, hbound, .inl rfl, h⟩

/-- The size of a clause is looked up only. -/
theorem sized_gives {w w' : Workspace} {tag : Nat} {r : Option String × Value} (hg : Gives (Query.sized tag) w r w') : w' = w := by
  simp only [Query.sized, bind_iff, clause_gives, get_iff, pure_iff, lift_iff] at hg
  obtain ⟨_, _, ⟨rfl, rfl⟩, _, _, ⟨rfl, rfl⟩, _, _, ⟨-, rfl⟩, -, rfl⟩ := hg
  rfl

/-- Why a table may get a name: it was made and the name is an alias, or it was made for the common table that has
the name. -/
inductive Entitled (φ : Node → Prop) (w₀ w : Workspace) (place : Nat) : Value → Prop
  | byname {n : Node} (hn : φ n) (named : n.byname ≠ .null) (made : (w.catalog.table place).Made) :
      Entitled φ w₀ w place n.byname
  | common {n : Node} {e : Value × Node} (hn : φ n) (mem : e ∈ n.commons) (he : e.2.Everywhere φ)
      (new : e.2.Makes → w₀.catalog.tables.size ≤ place) : Entitled φ w₀ w place e.1

/-- Ways from workspace to workspace that whole encodings go, since all their steps do if every node of a query has a
property. A grouping is such a step together with its projection. -/
structure Route (R : Workspace → Workspace → Prop) (φ : Node → Prop := fun _ ↦ True) : Prop extends Passage R where
  innate : Node.Innate φ
  copy : ∀ {w : Workspace} {c : Catalog}, Catalog.Copied w.catalog c → R w { w with catalog := c }
  rename : ∀ {w₀ w : Workspace} {place : Nat} {name : Value} {f : Table → Table}, R w₀ w →
    Entitled φ w₀ w place name → (∀ t, (f t).Kin t) → (∀ t, (f t).origin = t.origin) → (∀ t, (f t).name = name) →
    R w₀ { w with catalog := w.catalog.modify place f }
  share : ∀ {w : Workspace} {m : Node} {place n : Nat} {t : Table} {db : Database} {fs : Formulas},
    Shares w place n t db fs → φ m → m.byname ≠ .null → t.name = m.byname →
    R w { w with lastTable := w.lastTable + 1, catalog := (w.catalog.add t).2, database := db, formulas := fs }
  stage : ∀ {w w' : Workspace} {out : Nat}, Stage R w out w' → R w w'
  grouped : ∀ {w v w' : Workspace} {place out : Nat}, Grouping R w place v → GroupProjection R v place out w' → R w w'

theorem Chain.route : Route Chain where
  toPassage := passage
  innate := innate_true
  copy h := (refl _).step (.copy h)
  rename h _ hkin horigin _ := h.step (.rename _ hkin (.inr horigin))
  share h _ _ _ := (refl _).step (.share h)
  stage h := h.chain passage.walk
  grouped h g := (h.chain passage.walk).trans (g.chain passage.walk)

/-- The way to a result is gone, and the result has a place of its own. -/
structure Brings (R : Workspace → Workspace → Prop) (w : Workspace) (out : Nat) (w' : Workspace) : Prop where
  way : R w w'
  new : w.catalog.tables.size ≤ out

namespace Route

variable {R : Workspace → Workspace → Prop} {φ : Node → Prop} (hR : Route R φ) {w₀ w w' : Workspace} {sub : Subquery}
  (hsub : Passes R φ sub) {out : Nat}

include hR

theorem brings (h : Stage R w out w') : Brings R w out w' := ⟨hR.stage h, h.new⟩

theorem next {v : Workspace} {place : Nat} (h : Brings R w place v) (g : Brings R v out w') : Brings R w out w' :=
  ⟨hR.trans h.way g.way, (hR.chain h.way).size_le.trans g.new⟩

theorem brings_keeps {x : Encoding Nat} (h : ∀ {w out w'}, Gives x w out w' → Brings R w out w') :
    Keeps (R w₀) x (w₀.catalog.tables.size ≤ ·) :=
  fun _ _ _ hw hg ↦ ⟨hR.trans hw (h hg).way, (hR.chain hw).size_le.trans (h hg).new⟩

/-! ### Names -/

variable {place input : Nat} {label : Option String} {k : Value} {tag : Nat} {targets : List Node}

theorem retitle {name : Value} (hw : R w₀ w) (h : Entitled φ w₀ w place name) :
    R w₀ { w with catalog := w.catalog.retitle place name } := by
  have hrenamed := hR.rename hw h (f := (·.retitled name)) (fun t ↦ ⟨rfl, rfl, by simp [retitled], rfl, .inl rfl⟩)
    (fun _ ↦ rfl) fun _ ↦ rfl
  exact hR.note hrenamed rfl rfl (fun _ ↦ rfl) rfl rfl

theorem scanTable (name : Value) : Guards (R w₀) (scanTable name) := by
  have find : Guards (R w₀) (findTable name) :=
    get.bind fun _ _ ↦ (outcome _).bind fun _ _ ↦ outcome _
  refine find.bind fun place _ ↦ (modify fun w hw ↦ ?_).bind fun _ _ ↦
    (table_keeps _).bind fun _ _ ↦ (outcome _).bind fun _ _ ↦ .pure trivial
  refine hR.mark hw place (fun t ↦ ⟨rfl, rfl, rfl, rfl, ?_⟩) (fun _ ↦ rfl) fun _ ↦ ⟨rfl, rfl⟩
  rcases hl : t.lineage with _ | l
  · exact .inr ⟨rfl, by simp [scannedText]⟩
  · exact .inl (by simp)

theorem aliasTable {n : Node} (hn : φ n) (hne : n.byname ≠ .null) (place : Nat) :
    Keeps (R w₀) (aliasTable place n.byname) fun r ↦ w₀.catalog.tables.size ≤ place → w₀.catalog.tables.size ≤ r := by
  intro w r w' hw hg
  obtain ⟨hmade, rfl, rfl⟩ | ⟨rfl, _, t, _, _, hshares, hname, rfl⟩ := aliasTable_cases hg
  · refine ⟨?_, id⟩
    have htables := congrArg Catalog.tables
      (Catalog.modify_modify w.catalog r (·.retitled n.byname) ({ · with scope := w.currentQuery }))
    have hrenamed := hR.rename hw (.byname hn hne hmade) (f := ({ · with scope := w.currentQuery }) ∘ (·.retitled n.byname))
      (fun t ↦ ⟨rfl, rfl, by simp [retitled], rfl, .inl rfl⟩) (fun _ ↦ rfl) fun _ ↦ rfl
    exact hR.note hrenamed htables rfl (fun _ ↦ rfl) rfl rfl
  · exact ⟨hR.trans hw (hR.share hshares hn hne hname), fun _ ↦ (hR.chain hw).size_le⟩

/-! ### Operators -/

theorem distinct (input : Nat) (origin : Origin) (hg : Gives (Distinct.apply input origin) w out w') :
    Brings R w out w' := by
  obtain ⟨label, rows, term, hlabel, hrows, hdecides, h⟩ := distinct_applied hR.walk hg
  exact hR.brings (.distinct hlabel hrows hdecides h)

theorem union (inputs : List Nat) (origin : Origin) (keeps : Bool)
    (hg : Gives (Union.apply inputs origin keeps) w out w') : Brings R w out w' := by
  obtain ⟨name, columns, bound, ns, term, out₁, w₁, hbound, hns, hdecides, h, hrest⟩ :=
    union_applied hR.walk hg
  have hunion := hR.brings (.union hbound hns hdecides h)
  split at hrest
  · obtain ⟨rfl, rfl⟩ := hrest
    exact hunion
  · exact hR.next hunion (hR.distinct out₁ origin hrest)

include hsub

theorem filter {predicate : Node} {outer : Option Int}
    (hp : predicate.Everywhere φ) (hg : Gives (Filter.apply sub input label predicate k outer) w out w') :
    Brings R w out w' := by
  obtain ⟨text, rows, term, hrows, hdecides, h⟩ := filter_applied hR.walk hsub hp hg
  exact hR.brings (.filter hrows hdecides h)

theorem joinBy {kind : Join.Kind} {left right : Nat} {r : Join.Request}
    (hkind : Join.Kind.ofName r.kind = .ok kind) (hr : r.cond.Everywhere φ)
    (hg : Gives (Query.joinBy sub kind left right r k) w out w') : Brings R w out w' := by
  obtain ⟨_, _, _, _, _, _, _, ⟨_, hkind', hbound⟩, hdecides, h⟩ := joinBy_applied hR.walk hsub hR.innate.plain hr hg
  cases hkind.symm.trans hkind'
  exact hR.brings (.join hbound hdecides h)

/-- A grouping is projected after clauses were noted. -/
theorem groupProjection (ht : ∀ t ∈ targets, t.Everywhere φ)
    (hgrouped : (w.catalog.table place).mentionsIfAny "Grouped from" = true)
    (hg : Gives (applyToGroups sub w.catalog.tables.size tag targets k)
      { w with catalog := (w.catalog.copy place).2 } out w') :
    ∃ next clauses, GroupProjection R (w.noting next clauses) place out w' := by
  obtain ⟨_, _, _, _, _, _, next, clauses, c, _, _, -, horigin, rfl, hrows, hdecides, h⟩ :=
    applyToGroups_applied hR.walk hsub (fun source ↦ hR.innate.readsAs ht source _) hgrouped hg
  exact ⟨next, _, .intro hgrouped horigin rfl hrows hdecides h⟩

theorem project (ht : ∀ t ∈ targets, t.Everywhere φ)
    (hg : Gives (apply sub place tag targets k) w out w') : Brings R w out w' := by
  rcases project_cases hg with ⟨hgrouped, hg⟩ | ⟨-, hg⟩
  · obtain ⟨next, clauses, h⟩ := hR.groupProjection hsub ht hgrouped hg
    exact ⟨hR.trans (hR.noting (hR.refl w) next clauses) (hR.stage (.projectGroups h)), h.new⟩
  · obtain ⟨_, _, _, _, next, clauses, c, _, _, -, -, hinput, hrows, hdecides, h⟩ :=
      applyToRows_applied hR.walk hsub (hR.innate.readsAs ht _ _) hg
    have hcopied := Catalog.copy_copied w.catalog place
    have hnoted := hR.noting (hR.copy hcopied) next clauses
    have hstage := hR.brings (.project hrows hdecides h hinput)
    exact ⟨hR.trans hnoted hstage.way, hcopied.size.trans hstage.new⟩

/-- The targets of a grouping are those of the table that it has left. -/
theorem select {distinct : Value} {v : Workspace} (hgroup : Grouping R w place v) (ht : ∀ t ∈ targets, t.Everywhere φ)
    (hg : Gives (Query.select sub place tag targets distinct k) v out w') : Brings R w out w' := by
  obtain ⟨out₁, w₁, hproject, hg⟩ := bind_iff.1 hg
  have hmentions : (v.catalog.table place).mentionsIfAny "Grouped from" = true := by
    obtain ⟨s, hs, hword⟩ := hgroup.begins hR.walk
    rw [mentionsIfAny, hs]
    exact Text.occursIn_iff.2 hword.isInfix
  have hprojected : Brings R w out₁ w₁ := by
    rcases project_cases hproject with ⟨hgrouped, hg⟩ | ⟨hgrouped, -⟩
    · obtain ⟨next, clauses, h⟩ := hR.groupProjection hsub ht hgrouped hg
      exact ⟨hR.grouped (hgroup.noted hR.toPassage next clauses) h, (hgroup.chain hR.walk).size_le.trans h.new⟩
    · rw [hmentions] at hgrouped
      cases hgrouped
  split at hg
  · obtain ⟨c, w₂, hclause, hg⟩ := bind_iff.1 hg
    obtain ⟨rfl, rfl⟩ := clause_gives.1 hclause
    exact hR.next hprojected (hR.distinct out₁ _ hg)
  · obtain ⟨rfl, rfl⟩ := pure_iff.1 hg
    exact hprojected

theorem grouping {keys : List Node} {having : Node} {distinct : Value} {hand : Option Nat} {r : Nat × Option Nat}
    (hk : ∀ k ∈ keys, k.Everywhere φ) (hh : having.Everywhere φ) (ht : ∀ t ∈ targets, t.Everywhere φ) (hg : Gives ((do
      set (some (← (GroupBy.apply sub input label keys having (some targets) : Encoding Nat)))
      Query.projectStep sub tag targets distinct : Step Nat).run hand) w r w') : Brings R w r.1 w' := by
  simp only [Query.projectStep, Query.atHand, bind_assoc, StateT.run_bind, StateT.run_monadLift, monadLift_self,
    StateT.run_set, StateT.run_get, StateT.run_pure, pure_bind, bind_iff, pure_iff] at hg
  obtain ⟨place, v, hgroup, lk, _, hsized, out, _, hselect, rfl, rfl⟩ := hg
  obtain rfl := sized_gives hsized
  obtain ⟨ts, rows, K, H, v₁, u, -, hrows, hread, hmade, hpassed, rfl⟩ :=
    groupBy_placed hR.walk hsub hk hh (by rintro _ ⟨⟩; exact ht) hgroup
  exact hR.select hsub (.intro hrows hread.length_keys hmade.toPlaced hpassed) ht hselect

theorem orderBy {keys : List Node} {orders : List Value} {limit : Value}
    (hk : ∀ k ∈ keys, k.Everywhere φ) (hg : Gives (OrderBy.apply sub input label keys orders limit k) w out w') :
    Brings R w out w' := by
  obtain ⟨text, rows, term, u, hrows, happlied, hlimited⟩ := orderBy_applied hR.walk hsub hk hg
  have hword := orderedTable_begins (w := w) input label keys k text
  exact hR.brings (.order (.intro rfl (hword.of_prefix) ⟨_, rfl, rfl⟩ ⟨input, rows, rfl, hrows⟩ happlied hlimited))

omit hsub

/-! ### Queries -/

/-- Every part of an encoding goes the route. -/
theorem enduring (w₀ : Workspace) :
    Enduring (fun _ ↦ R w₀) φ (fun _ ↦ True) (w₀.catalog.tables.size ≤ ·) (Passes R φ) where
  toLettering := hR.lettering
  own _ _ := trivial
  truth := hR.innate.truth
  retitle hn hmem he hnew := .modify fun _ hw ↦ hR.retitle hw (.common hn hmem he hnew)
  aliasTable place hn hne := hR.aliasTable hn hne place
  scanTable := hR.scanTable
  complete _ h := hR.note h rfl rfl (fun _ ↦ rfl) rfl rfl
  filter hsub _ _ _ _ _ hp _ _ := hR.brings_keeps (hR.filter hsub hp)
  joinBy hsub _ _ _ _ _ hkind _ hr _ := hR.brings_keeps (hR.joinBy hsub hkind hr)
  union inputs origin _ _ keeps := hR.brings_keeps (hR.union inputs origin keeps)
  grouped hsub _ _ _ _ _ hk _ hh _ _ _ ht _ := fun _ _ _ _ hw hg ↦
    have h := hR.grouping hsub hk hh ht hg
    ⟨hR.trans hw h.way, (hR.chain hw).size_le.trans h.new⟩
  project hsub _ _ _ _ _ ht _ := hR.brings_keeps (hR.project hsub ht)
  distinct input origin _ := hR.brings_keeps (hR.distinct input origin)
  orderBy hsub _ _ _ _ _ hk _ _ _ := hR.brings_keeps (hR.orderBy hsub hk)

/-- Queries inside expressions go the route, however deep they are nested. -/
theorem nested (depth : Nat) : Passes R φ (Query.nested depth) := by
  induction depth with
  | zero => exact fun _ _ _ _ ↦ .throw
  | succ depth ih =>
    intro w₀ o n hn
    exact ((hR.enduring w₀).encode_along ih (fun _ ↦ ih w₀) (fun _ ↦ True) o n hn).run.bind fun _ _ ↦ .pure trivial

/-- A query is encoded along the route. -/
theorem query {n : Node} (hn : n.Everywhere φ) (hg : Gives (Query.table n) w out w') : R w w' :=
  ((hR.enduring w).query (F := fun _ ↦ True) hR.nested hn (hR.refl w) hg).1

end Route

end QueryEquiv
