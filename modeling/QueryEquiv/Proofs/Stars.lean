import QueryEquiv.Proofs.ColumnNames

/-!
# What a star stands for

A star stands for the full names of all columns, and each full name is taken apart at its full stops and looked up
like any other name. So a column that the star stands for may be missed or taken for an earlier one, and the star
stands for the columns themselves just if no name has a full stop in it and no column answers to the full name of a
later one (`star_iff`).
-/

namespace QueryEquiv

open Text Gives List Operator Workspace Project

/-! ## Full names -/

theorem partsOf_append_dot (a b : String) : partsOf s!"{a}.{b}" = partsOf a ++ partsOf b := by
  have hchars : s!"{a}.{b}".toList = a.toList ++ '.' :: b.toList := by simp [toString]
  rw [partsOf, hchars, splitOnP_append_cons _ _ rfl, map_append, partsOf, partsOf]

theorem dot_notMem_of_mem_partsOf {s p : String} (h : p ∈ partsOf s) : '.' ∉ p.toList := by
  have parts (cs : List Char) : ∀ l ∈ cs.splitOnP (· == '.'), '.' ∉ l := by
    induction cs with
    | nil => simp
    | cons c cs ih =>
      rw [splitOnP_cons_eq_if_modifyHead]
      split
      · simpa using ih
      · next hc =>
        cases hcs : cs.splitOnP (· == '.') with
        | nil => simp
        | cons l ls =>
          rw [hcs, forall_mem_cons] at ih
          simpa [eq_comm, ih.1, show ¬ c = '.' by simpa using hc] using ih.2
  obtain ⟨l, hl, rfl⟩ := mem_map.1 h
  rw [String.toList_ofList]
  exact parts _ l hl

theorem Text.dot_notMem_of_lower_eq {s p : String} (h : lower s = lower p) (hp : '.' ∉ p.toList) : '.' ∉ s.toList := by
  intro hs
  obtain ⟨xs, ys, hs⟩ := append_of_mem hs
  have hlower : '.' ∈ lowerChars none p.toList := by
    rw [← toList_lower, ← h, toList_lower, hs, lowerChars_append_dot]
    simp
  exact hp (dot_mem_of_lowerChars hlower)

namespace Column

def Named (c : Column) : Prop := (c.table = .null ∨ ∃ t, c.table = .str t) ∧ ∃ n, c.name = .str n

/-- There is no full stop in a full name but the one between its two parts. -/
def Plain (c : Column) : Prop := '.' ∉ c.table.text.toList ∧ '.' ∉ c.name.text.toList

/-- A column is what a table and a name ask for. A column without a table is one of every table. -/
def isCalled (owner name : String) (c : Column) : Bool :=
  (!c.table.isString || Text.lower c.table.text == Text.lower owner) && Text.lower c.name.text == Text.lower name

/-- A column is what the full name of another one asks for. -/
def answersFor (d c : Column) : Bool :=
  match partsOf s!"{d.table.text}.{d.name.text}" with
  | owner :: name :: _ => isCalled owner name c
  | _ => false

variable {c d : Column}

theorem Named.answersTo (hc : c.Named) (owner name : String) :
    c.answersTo (some owner) name = .ok (isCalled owner name c) := by
  obtain ⟨htable | ⟨t, htable⟩, n, hname⟩ := hc
  · simp only [Column.answersTo, isCalled, htable, hname]
    rfl
  · simp only [Column.answersTo, isCalled, htable, hname, Value.text]
    cases h : lower t == lower owner <;> simp [lowered, h, Value.isString, bind, Except.bind, pure, Except.pure]

theorem Plain.answersFor (hd : d.Plain) (c : Column) : d.answersFor c = isCalled d.table.text d.name.text c := by
  simp only [Column.answersFor, partsOf_append_dot, partsOf_of_notMem hd.1, partsOf_of_notMem hd.2, cons_append,
    nil_append]

/-- A column that answers to its own full name has a plain one, since no part of a name has a full stop in it. -/
theorem answersFor_self_iff (hc : c.Named) : c.answersFor c = true ↔ c.Plain := by
  refine ⟨fun h ↦ ?_, fun h ↦ by simp [h.answersFor, isCalled]⟩
  unfold Column.answersFor at h
  split at h
  · next owner name rest hparts =>
    have hpart {p : String} (hp : p ∈ owner :: name :: rest) : '.' ∉ p.toList :=
      dot_notMem_of_mem_partsOf (hparts ▸ hp)
    simp only [isCalled, Bool.and_eq_true, Bool.or_eq_true, Bool.not_eq_true', beq_iff_eq] at h
    refine ⟨?_, dot_notMem_of_lower_eq h.2 (hpart (by simp))⟩
    rcases hc.1 with htable | ⟨t, htable⟩
    · rw [htable]
      decide
    · exact dot_notMem_of_lower_eq (h.1.resolve_left (by simp [htable, Value.isString])) (hpart (by simp))
  · cases h

end Column

/-! ## Stars -/

theorem resolve_named {cs : List Column} (h : ∀ c ∈ cs, c.Named) (owner name : String) :
    resolve (some owner) (.str name) cs = .ok (cs.find? (·.isCalled owner name)) := by
  induction cs with
  | nil => rfl
  | cons c cs ih =>
    rw [forall_mem_cons] at h
    rw [resolve_cons, h.1.answersTo, List.find?_cons, ih h.2]
    cases c.isCalled owner name <;> rfl

/-- What stands for every element is the element itself, if nothing stands for a later one. -/
theorem find?_self_iff {α : Type} {l : List α} (h : l.Nodup) (p : α → α → Bool) :
    (∀ d ∈ l, l.find? (p d) = some d) ↔ (∀ d ∈ l, p d d = true) ∧ l.Pairwise fun c d ↦ p d c = false := by
  induction l with
  | nil => simp
  | cons c l ih =>
    rw [nodup_cons] at h
    have hlater : (∀ d ∈ l, (c :: l).find? (p d) = some d) ↔
        (∀ d ∈ l, p d c = false) ∧ ∀ d ∈ l, l.find? (p d) = some d := by
      rw [← forall₂_and]
      refine forall₂_congr fun d hd ↦ ?_
      cases hp : p d c
      · simp [hp]
      · simpa [hp] using fun heq : c = d ↦ h.1 (heq ▸ hd)
    have hself : (c :: l).find? (p c) = some c ↔ p c c = true :=
      ⟨List.find?_some, fun hp ↦ List.find?_cons_of_pos hp⟩
    rw [forall_mem_cons, forall_mem_cons, pairwise_cons, hlater, hself, ih h.2]
    tauto

section Star

variable {t : Table} (hnamed : ∀ c ∈ t.columns, c.Named) {w w' : Workspace}
include hnamed

theorem targetColumn_qualified {id : Nat} {d : Column} {c : Column × Target × Bool} :
    Gives (targetColumn t id (qualified d)) w c w' ↔
      ∃ e, t.columns.find? d.answersFor = some e ∧ c = ({ e with id }, .column e.id, false) ∧ w' = w := by
  obtain ⟨owner, name, rest, hparts⟩ : ∃ owner name rest,
      partsOf s!"{d.table.text}.{d.name.text}" = owner :: name :: rest := by
    have hne (s : String) : partsOf s ≠ [] := by simp [partsOf]
    obtain ⟨o, os, ho⟩ := exists_cons_of_ne_nil (hne d.table.text)
    obtain ⟨n, ns, hn⟩ := exists_cons_of_ne_nil (hne d.name.text)
    rw [partsOf_append_dot, ho, hn]
    cases os <;> exact ⟨_, _, _, rfl⟩
  have hname : nameParts (.str s!"{d.table.text}.{d.name.text}") = .ok (some owner, .str name) := by
    have hdot : occursIn "." s!"{d.table.text}.{d.name.text}" = true :=
      occursIn_iff.2 ⟨d.table.text.toList, d.name.text.toList, by simp [toString]⟩
    simp [nameParts, Value.has, hdot, dotted_str, hparts, bind, Except.bind, pure, Except.pure]
  have hfind : t.columns.find? d.answersFor = t.columns.find? (·.isCalled owner name) := by
    congr 1
    funext c
    rw [Column.answersFor, hparts]
  simp only [qualified, targetColumn, hname, bind_iff, lift_iff]
  rw [hfind]
  constructor
  · rintro ⟨_, _, ⟨⟨⟩, rfl⟩, found, _, ⟨hfound, rfl⟩, hg⟩
    obtain rfl := Except.ok.inj ((resolve_named hnamed owner name).symm.trans hfound)
    split at hg
    · cases hg
    · obtain ⟨rfl, rfl⟩ := pure_iff.1 hg
      exact ⟨_, ‹_›, rfl, rfl⟩
  · rintro ⟨e, he, rfl, rfl⟩
    refine ⟨_, _, ⟨rfl, rfl⟩, _, _, ⟨resolve_named hnamed owner name, rfl⟩, ?_⟩
    rw [he]
    exact pure_iff.2 ⟨rfl, rfl⟩

theorem targetColumns_qualified {ds : List Column} (id : Nat) (w : Workspace) (hids : (t.columns.map (·.id)).Nodup)
    (hds : ∀ d ∈ ds, d ∈ t.columns) : (∃ cs w', Gives (targetColumns t id (ds.map qualified)) w cs w' ∧
      cs.map (·.2.1) = ds.map (Target.column ·.id)) ↔ ∀ d ∈ ds, t.columns.find? d.answersFor = some d := by
  induction ds generalizing id with
  | nil => simp [targetColumns]
  | cons d ds ih =>
    rw [forall_mem_cons] at hds
    rw [forall_mem_cons, ← ih (id + 1) hds.2]
    simp only [map_cons, targetColumns, bind_iff, targetColumn_qualified hnamed, pure_iff]
    constructor
    · rintro ⟨_, w', ⟨_, _, ⟨e, he, rfl, rfl⟩, cs, _, hcs, rfl, rfl⟩, heq⟩
      obtain ⟨hid, hrest⟩ := List.cons.inj heq
      have hmem := mem_of_find?_eq_some he
      rw [inj_on_of_nodup_map hids hmem hds.1 (Target.column.inj hid)] at he
      exact ⟨he, cs, _, hcs, hrest⟩
    · rintro ⟨hd, cs, w', hcs, heq⟩
      exact ⟨_, w', ⟨_, _, ⟨d, hd, rfl, rfl⟩, cs, w', hcs, rfl, rfl⟩, by rw [map_cons, heq]⟩

/-- A star reads as the columns of a table, each as itself and in their order, just if their names are plain and no
column is what the full name of a later one asks for. -/
theorem star_iff (hids : (t.columns.map (·.id)).Nodup) (w : Workspace) :
    (∃ cs w', Gives (Project.readTargets t [.column (.str "*") .null]) w cs w' ∧
      cs.map (·.2.1) = t.columns.map (Target.column ·.id)) ↔
    (∀ c ∈ t.columns, c.Plain) ∧ t.columns.Pairwise fun c d ↦ c.isCalled d.table.text d.name.text = false := by
  have hcopied : Gives (copied [.column (.str "*") .null]) w [.column (.str "*") .null]
      { w with clauses := w.clauses ++ [] } := rfl
  have hread : exec (readTargets t [.column (.str "*") .null]) w =
      exec (targetColumns t 0 (t.columns.map qualified)) w := by
    rw [readTargets, exec_bind, hcopied, append_nil]
    simp [exec_bind, expandStar, Value.same]
  have hall := targetColumns_qualified hnamed 0 w hids fun d hd ↦ hd
  simp only [Gives, hread] at hall ⊢
  rw [hall, find?_self_iff hids.of_map, forall₂_congr fun c hc ↦ Column.answersFor_self_iff (hnamed c hc)]
  refine and_congr_right fun hplain ↦ List.Pairwise.iff_of_mem fun _ hd ↦ ?_
  rw [(hplain _ hd).answersFor]

end Star

/-- A table with two columns of one name. -/
def sameNames : Table :=
  { id := 1, name := .str "d", bound := .int 1
    columns := [{ id := 0, name := .str "x", type := .str "int", table := .str "d" },
      { id := 1, name := .str "x", type := .str "int", table := .str "d" }] }

/-- The star of two columns of one name does not stand for both. -/
theorem star_sameNames : ¬ ∃ cs w', Gives (Project.readTargets sameNames [.column (.str "*") .null]) {} cs w' ∧
    cs.map (·.2.1) = [.column 0, .column 1] := by
  intro h
  have hcovered := ((star_iff (t := sameNames) (by simp [sameNames, Column.Named]) (by decide) {}).1 h).2
  revert hcovered
  decide +kernel

end QueryEquiv
