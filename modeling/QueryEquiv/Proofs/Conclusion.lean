import QueryEquiv.Proofs.Clerking
import QueryEquiv.Search

/-!
# The last clause of a query

An operator that works under a new label adds its formula last, and the table of its result tells that label
(`Applied.concludes`). So does a projection whose clause has a number of its own (`project_concludes`).
-/

namespace QueryEquiv

open Formulas List Workspace Expression Operator

/-- The clause of a label was carried out last, and the table at a place is its result. -/
structure Concluded (l : String) (r : Nat) (w : Workspace) : Prop where
  last : ∃ before, w.formulas.labels = before ++ [l] ∧ l ∉ before
  result : Search.resultLabel (w.catalog.table r) = .ok (some l)
  lineage : ∃ lineage, (w.catalog.table r).lineage = some lineage ∧ 'S' ∉ lineage.toList

variable {l d : String} {w w' : Workspace} {out : Nat} {t : Table} {term : Term}

theorem Formulas.labels_append_new {fs : Formulas} (h : l ∉ fs.labels) :
    (fs.append term (some l)).labels = fs.labels ++ [l] := by
  rw [labels_append, target, Option.getD_some, if_neg h]

theorem resultLabel_congr {u : Table} (hl : t.lineage = u.lineage) (ho : t.origin = u.origin) :
    Search.resultLabel t = Search.resultLabel u := by
  unfold Search.resultLabel Table.mentions
  rw [hl, ho]

/-- An operator that works under a new label comes last. -/
theorem Applied.concludes {R : Workspace → Workspace → Prop} {P : Workspace → Prop} (hR : Walk R)
    (same : ∀ {v v'}, P v → SameNotes v v' → P v') (keeps : ∀ {v u}, R v u → P v → P u)
    (hnew : ∀ {v}, P v → l ∉ v.formulas.labels) (ht : Search.resultLabel t = .ok (some l))
    (hlineage : ∃ s, t.lineage = some s ∧ 'S' ∉ s.toList) (hw : P w) (h : Applied R w t term (some l) out w') :
    Concluded l out w' ∧ ∃ u, P u ∧ w' = { u with formulas := u.formulas.append term (some l) } := by
  obtain ⟨s, hs, hS⟩ := hlineage
  cases h with
  | @intro place v v₁ u cut made cutDown reads =>
    have hu : P u := keeps reads (same (same hw made.notes) cutDown.notes)
    obtain ⟨hkin, horigin⟩ := (hR.chain reads).kin cutDown.entered
    have hline : (u.catalog.table (cut.getD place)).lineage = some s :=
      hkin.lineage_eq (by rw [cutDown.lineage, made.table, hs])
    rw [cutDown.origin, made.table] at horigin
    exact ⟨⟨⟨_, labels_append_new (hnew hu), hnew hu⟩,
      (resultLabel_congr (hline.trans hs.symm) horigin).trans ht, s, hline, hS⟩, u, hu, rfl⟩

/-! ## Duplicate elimination and unions -/

/-- No formula was added under some labels. -/
def Absent (ls : List String) (w : Workspace) : Prop := ∀ l ∈ ls, l ∉ w.formulas.labels

theorem Absent.same {ls : List String} (h : Absent ls w) (hn : SameNotes w w') : Absent ls w' := by
  rw [Absent, labels, hn.formulas.entries]
  exact h

/-- Calm steps add no formula under the label of a clause. -/
theorem Absent.calm {ls : List String} (hls : ∀ l ∈ ls, Search.ofClause l = true) (hc : Calm w w') (h : Absent ls w) :
    Absent ls w' := fun l hl hmem ↦
  h l hl (hc.clauses.labels l hmem ((Text.occursIn_iff.1 (hls l hl)).subset (by decide : '$' ∈ "$".toList)))

/-- A table that was made by duplicate elimination tells its second label. -/
theorem resultLabel_distinct {input : Nat} {o : Origin} (hd : o.distinct = some (some d)) :
    Search.resultLabel (distinctTable w input o) = .ok (some d) := by
  have hm : (distinctTable w input o).mentions "Duplicate" = .ok true := by
    have hword := distinctTable_begins (w := w) input o
    obtain ⟨s, hs, hword⟩ : (distinctTable w input o).Begins "Duplicate" := hword.of_prefix
    simp only [Table.mentions, hs, Text.occursIn_iff.2 hword.isInfix]
  have ho : (distinctTable w input o).origin = some o := rfl
  simp only [Search.resultLabel, hm, ho, hd]
  rfl

/-- Other tables tell the label of their clause. -/
theorem resultLabel_plain {lineage : String} {o : Origin} (ht : t.lineage = some lineage)
    (hc : 'D' ∉ lineage.toList) (ho : t.origin = some o) (hl : o.label = some l) :
    Search.resultLabel t = .ok (some l) := by
  simp only [Search.resultLabel, Table.mentions_eq_false ht 'D' (by decide : 'D' ∈ "Duplicate".toList) hc, ho, hl]
  rfl

/-- A duplicate elimination under a new label concludes a query. -/
theorem distinct_concludes {input : Nat} {origin : Origin} (h : origin.distinct = some (some d))
    (hd : Search.ofClause d = true) (hw : Absent [d] w) (hg : Gives (Distinct.apply input origin) w out w') :
    Concluded d out w' := by
  obtain ⟨label, _, _, hlabel, -, -, happlied⟩ := distinct_applied Calm.passage.walk hg
  obtain rfl : some d = label := Option.some.inj (h.symm.trans hlabel)
  refine (happlied.concludes Calm.passage.walk Absent.same (Absent.calm (by simpa using hd)) (fun h ↦ h d (by simp))
    (resultLabel_distinct h) ⟨_, rfl, ?_⟩ hw).1
  rw [String.toList_append, mem_append, not_or]
  exact ⟨by decide, notMem_toString (by decide) _⟩

/-- A union under a new label concludes a query, with or without the elimination of duplicates. -/
theorem union_concludes {inputs : List Nat} {origin : Origin} {keeps : Bool} (hl : origin.label = some l)
    (hd : keeps = false → origin.distinct = some (some d)) (hne : d ≠ l)
    (hls : ∀ x ∈ [l, d], Search.ofClause x = true) (hw : Absent [l, d] w)
    (hg : Gives (Union.apply inputs origin keeps) w out w') : Concluded (if keeps then l else d) out w' := by
  obtain ⟨name, columns, bound, _, _, out₁, w₁, -, -, -, happlied, hrest⟩ := union_applied Calm.passage.walk hg
  -- The lineage names the tables only.
  have hlineage {c : Char} (hc : c ∉ "Union of T".toList ++ ", ".toList) (hdigit : c.isDigit = false ∧ c ≠ '-') :
      c ∉ ("Union of T" ++ ", ".intercalate ((inputs.map w.catalog.table).map fun t ↦ toString t.id)).toList := by
    rw [mem_append, not_or] at hc
    rw [String.toList_append, mem_append, not_or]
    exact ⟨hc.1, notMem_intercalate hc.2 (by simpa using fun _ _ ↦ notMem_toString hdigit _)⟩
  rw [hl] at happlied
  obtain ⟨hconcluded, u, hu, rfl⟩ := happlied.concludes Calm.passage.walk Absent.same (Absent.calm hls)
    (fun h ↦ h l (by simp)) (resultLabel_plain rfl (hlineage (by decide) (by decide)) rfl hl)
    ⟨_, rfl, hlineage (by decide) (by decide)⟩ hw
  cases keeps with
  | true =>
    obtain ⟨rfl, rfl⟩ := hrest
    exact hconcluded
  | false =>
    refine distinct_concludes (hd rfl) (hls d (by simp)) ?_ hrest
    rw [Absent, forall_mem_singleton, labels_append_new (hu l (by simp)), mem_append, not_or]
    exact ⟨hu d (by simp), by simpa using hne⟩

/-! ## Projections -/

/-- Neither step of a projection is known by these letters. -/
theorem Table.Projection.notMem_lineage (h : t.Projection) :
    ∃ lineage, t.lineage = some lineage ∧ 'D' ∉ lineage.toList ∧ 'S' ∉ lineage.toList := by
  obtain ⟨step, hs, id, hl⟩ := h
  refine ⟨_, hl, ?_⟩
  have hword : ∀ step ∈ ["Projected", "Grouped and projected"],
      'D' ∉ step.toList ++ " from T".toList ∧ 'S' ∉ step.toList ++ " from T".toList := by decide
  obtain ⟨hD, hS⟩ := hword step hs
  have hlist : (s!"{step} from T{id}").toList = step.toList ++ " from T".toList ++ (toString id).toList := by
    change (step ++ " from T" ++ toString id).toList = _
    rw [String.toList_append, String.toList_append]
  rw [hlist, mem_append, mem_append (a := 'S'), not_or, not_or]
  exact ⟨⟨hD, notMem_toString (by decide) id⟩, hS, notMem_toString (by decide) id⟩

section Projections

variable {a : Awaited} {F : String → Prop}

/-- What is noted of a clause beside its labels does not count. -/
theorem Spare.changeOwn {f : ClauseState → ClauseState} (hl : ∀ c, (f c).label = c.label)
    (hd : ∀ c, (f c).distinct = c.distinct) (h : Spare a F w) :
    Spare a F { w with clauses := put a.tag (f ((w.clauses.lookup a.tag).getD {})) w.clauses } := by
  obtain ⟨c, hc, hlabel, hdistinct⟩ := h.state
  refine ⟨h.formulas, fun e he ht l hm ↦ ?_, h.held, h.count, h.tags, f c, ?_, by rw [hl, hlabel],
    by rw [hd, hdistinct]⟩
  · obtain rfl | he := mem_put_clause he
    · exact absurd rfl ht.2
    · exact h.clauses e he ht l hm
  · rw [hc, lookup_put, if_pos (by simp)]
    rfl

/-- A projection whose clause waits is carried out last. -/
theorem project_concludes (ha : Numbered a.number a.label) {place depth : Nat} {targets : List Node}
    (ht : ∀ t ∈ targets, t.TagsIn fun t ↦ a.since ≤ t ∧ t ≠ a.tag) {k : Value} (hw : Spare a F w)
    (hg : Gives (Project.apply (Query.nested depth) place a.tag targets k) w out w') :
    Concluded a.label out w' ∧ (∀ l ∈ w'.formulas.labels, Numbered a.number l → l = a.label) ∧
      ∃ c, w'.clauses.lookup a.tag = some c ∧ c.distinct = a.distinct := by
  have C := Spare.clerking a
  obtain ⟨v, v', c, u, term, hv, hv', rfl, hu, h⟩ :=
    C.project_applied (Clerking.passes (Chain.route.nested depth) (C.nested depth)) ht hw hg
  have hv' : Spare a F v' := by
    cases hv' with
    | none => exact hv
    | some g hc =>
      subst hc
      exact hv.changeOwn (f := ({ · with grouping := g })) (fun _ ↦ rfl) fun _ ↦ rfl
  obtain ⟨c, hc, hl, -⟩ := hv'.state
  rw [hc, Option.getD_some, hl] at h
  obtain ⟨s, hs, hD, hS⟩ := hu.notMem_lineage
  obtain ⟨hconcluded, v₂, hv₂, rfl⟩ := h.concludes C.walk Spare.of_eq (fun h hv ↦ h.keeps hv)
    (fun hv hmem ↦ hv.formulas _ hmem ha) (resultLabel_plain (t := labelled c u) hs hD rfl hl) ⟨s, hs, hS⟩ hv'
  obtain ⟨c, hc, -, hd⟩ := hv₂.state
  refine ⟨hconcluded, fun l hmem hl ↦ ?_, c, hc, hd⟩
  exact (mem_labels_append hmem).resolve_left fun hmem ↦ hv₂.formulas l hmem hl

end Projections

end QueryEquiv
