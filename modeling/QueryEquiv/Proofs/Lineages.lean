import QueryEquiv.Proofs.ChangesQueries
import QueryEquiv.Proofs.Naming
import QueryEquiv.Search.Labels
import QueryEquiv.Search.Model

/-!
# What lineages and numbers tell

A table is recognised by words in its lineage, and its choices are those under its number. So two things matter
while queries are encoded. A lineage may have such a word only where it says how the table came about
(`Workspace.Told`), and not because a condition that is quoted in it has the word. And tables that have the same
number need as many choices (`Aligned`).

Both are seen from the changes that an encoding goes by, one kind of change after the other.
-/

namespace QueryEquiv

open Table Database Formulas Catalog Gives List Workspace Search

/-! ## Lineages -/

namespace Table

variable {t u : Table} {word : String}

instance (t : Table) (word : String) : Decidable (t.Begins word) :=
  decidable_of_iff (t.lineage.any fun s ↦ word.toList.isPrefixOf s.toList) <| by
    simp [Begins, Option.any_eq_true_iff_get, Option.eq_some_iff_get_eq]

/-- The words by which tables are recognised stand in a lineage only where it begins with them. -/
def Told (t : Table) : Prop :=
  ∀ word ∈ ["Scan", "Group", "Grouped from", "Duplicate"], t.mentionsIfAny word = true → t.Begins word

instance (t : Table) : Decidable t.Told := inferInstanceAs (Decidable (∀ word ∈ _, _ → _))

theorem mentionsIfAny_iff : t.mentionsIfAny word = true ↔ ∃ s, t.lineage = some s ∧ word.toList <:+: s.toList := by
  unfold mentionsIfAny
  rcases t.lineage with _ | s
  · simp
  · simp [Text.occursIn_iff]

theorem Begins.mentions (h : t.Begins word) : t.mentionsIfAny word = true := by
  obtain ⟨s, hs, hword⟩ := h
  exact mentionsIfAny_iff.2 ⟨s, hs, hword.isInfix⟩

theorem mentions_of_part {part : String} (h : t.mentionsIfAny word = true)
    (hpart : part.toList <:+: word.toList := by decide) : t.mentionsIfAny part = true := by
  obtain ⟨s, hs, hword⟩ := mentionsIfAny_iff.1 h
  exact mentionsIfAny_iff.2 ⟨s, hs, hpart.trans hword⟩

/-- A table is not recognised as another one than it is. -/
theorem Told.not_mentions (h : t.Told) (word : String) {first : String} (hfirst : t.Begins first)
    (hword : word ∈ ["Scan", "Group", "Grouped from", "Duplicate"] := by decide)
    (h₁ : ¬ first.toList <+: word.toList := by decide) (h₂ : ¬ word.toList <+: first.toList := by decide) :
    t.mentionsIfAny word = false := by
  rw [Bool.eq_false_iff]
  exact fun hm ↦ hfirst.not_begins h₁ h₂ (h word hword hm)

theorem Made.not_begins (h : t.Made) : ¬ t.Begins "Scan" := by
  rintro ⟨s, hs, hword⟩
  obtain ⟨_, hl, hscan⟩ := h
  rw [hl, Option.some_inj] at hs
  exact hscan (hs ▸ hword)

namespace Stems

theorem lineage_eq (h : t.Stems u) {s : String} (hs : u.lineage = some s) : t.lineage = some s :=
  lineage_eq_of_kept h.lineage hs

theorem begins_iff (h : t.Stems u) (hword : ¬ word.toList <+: scannedText.toList := by decide) :
    t.Begins word ↔ u.Begins word := begins_iff_of_kept h.lineage hword

theorem made_iff (h : t.Stems u) : t.Made ↔ u.Made := made_iff_of_kept h.lineage

theorem mentionsIfAny_eq (h : t.Stems u) (hword : Text.occursIn word scannedText = false := by decide) :
    t.mentionsIfAny word = u.mentionsIfAny word := by
  rcases h.lineage with hl | ⟨hu, ht⟩
  · rw [mentionsIfAny, mentionsIfAny, hl]
  · rw [mentionsIfAny, mentionsIfAny, hu, ht]
    exact hword

theorem unmade (h : t.Stems u)
    (hu : ¬ u.Made → u.origin = none ∧ ∀ s, u.lineage = some s → s = scannedText) (ht : ¬ t.Made) :
    t.origin = none ∧ ∀ s, t.lineage = some s → s = scannedText := by
  have hmade : ¬ u.Made := mt h.made_iff.2 ht
  obtain ⟨horigin, hline⟩ := hu hmade
  refine ⟨(h.origin.resolve_right hmade).trans horigin, fun s hs ↦ ?_⟩
  rcases h.lineage with hl | ⟨-, hscan⟩
  · exact hline s (hl ▸ hs)
  · rw [hscan, Option.some_inj] at hs
    exact hs.symm

theorem told (h : t.Stems u) (ht : t.Told) : u.Told := by
  intro word hword hm
  rcases h.lineage with hl | ⟨hu, -⟩
  · rw [mentionsIfAny, ← hl] at hm
    obtain ⟨s, hs, hbegins⟩ := ht word hword hm
    exact ⟨s, hl ▸ hs, hbegins⟩
  · rw [mentionsIfAny, hu] at hm
    cases hm

end Stems

theorem Begins.of_grouped (h : t.Begins "Grouped from") : t.Made ∧ ¬ t.Begins "Sorted" :=
  ⟨h.made, h.not_begins⟩

theorem choiceCount_congr (hbound : t.bound = u.bound)
    (hgrouped : t.mentionsIfAny "Grouped" = u.mentionsIfAny "Grouped") : choiceCount t = choiceCount u := by
  rw [choiceCount, choiceCount, hbound, hgrouped]

theorem Stems.choiceCount_eq (h : t.Stems u) (hu : ¬ u.Begins "Sorted") : choiceCount t = choiceCount u :=
  choiceCount_congr (h.bound.resolve_right hu) (h.mentionsIfAny_eq)

theorem Stems.sorted_iff (h : t.Stems u) : t.Begins "Sorted" ↔ u.Begins "Sorted" := h.begins_iff

end Table

/-- All lineages tell how the tables came about. -/
def Workspace.Told (w : Workspace) : Prop := ∀ p < w.catalog.tables.size, (w.catalog.table p).Told

instance (w : Workspace) : Decidable w.Told := inferInstanceAs (Decidable (∀ p < _, _))

theorem Catalog.lt_size_of_lineage {c : Catalog} {p : Nat} {s : String} (h : (c.table p).lineage = some s) :
    p < c.tables.size := by
  by_contra hge
  rw [table_of_size_le (not_lt.1 hge)] at h
  cases h

theorem Catalog.lt_size_of_made {c : Catalog} {p : Nat} (h : (c.table p).Made) : p < c.tables.size := by
  obtain ⟨s, hs, -⟩ := h
  exact lt_size_of_lineage hs

section

variable {w₀ w w' : Workspace}

theorem Workspace.Told.table (h : w.Told) (p : Nat) : (w.catalog.table p).Told := by
  rcases lt_or_ge p w.catalog.tables.size with hlt | hge
  · exact h p hlt
  · rw [table_of_size_le hge]
    intro word _ hm
    cases hm

theorem Change.told (h : Change w₀ w w') (hw : w'.Told) : w.Told :=
  fun p hp ↦ (h.old hp).1.told (hw p (hp.trans_le h.size_le))

theorem Chain.told (h : Chain w w') : w'.Told → w.Told :=
  h.induct (P := fun v ↦ v.Told → w.Told) id fun _ _ hv hc hw ↦ hv (hc.told hw)

end

/-! ## Numbers -/

/-- The numbers of tables that operators have made are in use and known, and they have all labels. -/
structure Kept (w : Workspace) : Prop where
  counted : ∀ p, (w.catalog.table p).Made → (w.catalog.table p).id ≤ w.lastTable
  keys : ∀ e ∈ w.formulas.fullTable, e.1 ≤ w.lastTable
  registered : ∀ p, (w.catalog.table p).Made → ∃ q, w.database.place? (w.catalog.table p).id = some q ∧
    (w.catalog.table q).id = (w.catalog.table p).id ∧ (w.catalog.table q).Made
  unmade : ∀ p, ¬ (w.catalog.table p).Made → (w.catalog.table p).origin = none ∧
    ∀ s, (w.catalog.table p).lineage = some s → s = scannedText

/-- Tables with the same number have as many choices, unless they are sorted. The number of a grouping stands for no
other. -/
structure Aligned (w : Workspace) : Prop where
  uniform : ∀ p q, (w.catalog.table p).Made → (w.catalog.table q).Made →
    (w.catalog.table q).id = (w.catalog.table p).id → ¬ (w.catalog.table p).Begins "Sorted" →
    ¬ (w.catalog.table q).Begins "Sorted" ∧ choiceCount (w.catalog.table q) = choiceCount (w.catalog.table p)
  groups : ∀ p, (w.catalog.table p).Begins "Grouped from" →
    w.formulas.fullTable.lookup (w.catalog.table p).id = none

section Numbers

variable {w₀ w w' : Workspace}

theorem Database.place?_of_places {db db' : Database} {id : Int} {place : Nat}
    (h : db'.places = put id place db.places) (id' : Int) :
    db'.place? id' = if id' = id then some place else db.place? id' := by
  rw [place?, h, put_eq, lookup_put, place?]
  exact if_congr beq_iff_eq rfl rfl

namespace Kept

theorem lookup_next (hw : Kept w) : w.formulas.fullTable.lookup (w.lastTable + 1) = none := by
  rw [lookup_eq_none_iff]
  intro e he
  exact bne_iff_ne.2 ((hw.keys e he).trans_lt (lt_add_one _)).ne'

theorem made_of_mentions (hw : Kept w) {p : Nat} {word : String}
    (h : (w.catalog.table p).mentionsIfAny word = true) (hword : Text.occursIn word scannedText = false := by decide) :
    (w.catalog.table p).Made := by
  by_contra hm
  obtain ⟨s, hs, hinfix⟩ := mentionsIfAny_iff.1 h
  rw [(hw.unmade p hm).2 s hs, ← Text.occursIn_iff, hword] at hinfix
  cases hinfix

/-- A table gets a place; all other tables stem from those before. -/
theorem enter (hw : Kept w) (place : Nat) (hlast : w.lastTable ≤ w'.lastTable)
    (hold : ∀ r < w.catalog.tables.size, w'.catalog.table r = w.catalog.table r)
    (hother : ∀ q ≠ place, ∃ p, (w'.catalog.table q).Stems (w.catalog.table p))
    (hplaces : w'.database.places = Database.put (w'.catalog.table place).id place w.database.places)
    (hcounted : (w'.catalog.table place).id ≤ w'.lastTable)
    (hmade : (w'.catalog.table place).Made ∨ w.lastTable < (w'.catalog.table place).id)
    (hunmade : ¬ (w'.catalog.table place).Made → (w'.catalog.table place).origin = none ∧
      ∀ s, (w'.catalog.table place).lineage = some s → s = scannedText)
    (hkeys : ∀ e ∈ w'.formulas.fullTable, e.1 ≤ w'.lastTable) : Kept w' where
  counted q hq := by
    rcases eq_or_ne q place with rfl | hne
    · exact hcounted
    · obtain ⟨p, hs⟩ := hother q hne
      rw [hs.id]
      exact (hw.counted p (hs.made_iff.1 hq)).trans hlast
  keys := hkeys
  registered q hq := by
    rw [place?_of_places hplaces]
    rcases eq_or_ne q place with rfl | hne
    · exact ⟨q, if_pos rfl, rfl, hq⟩
    · obtain ⟨p, hs⟩ := hother q hne
      have hp := hs.made_iff.1 hq
      rw [hs.id]
      split_ifs with hid
      · -- The number was in use before, so the new table is not unmade.
        exact ⟨place, rfl, hid.symm, hmade.resolve_right (not_lt.2 (hid ▸ hw.counted p hp))⟩
      · obtain ⟨r, hr, hrid, hrmade⟩ := hw.registered p hp
        refine ⟨r, hr, ?_⟩
        rw [hold r (lt_size_of_made hrmade)]
        exact ⟨hrid, hrmade⟩
  unmade q hq := by
    rcases eq_or_ne q place with rfl | hne
    · exact hunmade hq
    · obtain ⟨p, hs⟩ := hother q hne
      exact hs.unmade (hw.unmade p) hq

theorem still (hw : Kept w) (h : Still w₀ w w') : Kept w' where
  counted q hq := by
    obtain ⟨p, hs⟩ := h.stems q
    rw [hs.id, h.last]
    exact hw.counted p (hs.made_iff.1 hq)
  keys := by
    rw [h.full, h.last]
    exact hw.keys
  registered q hq := by
    obtain ⟨p, hs⟩ := h.stems q
    obtain ⟨r, hr, hrid, hrmade⟩ := hw.registered p (hs.made_iff.1 hq)
    have hsame := (h.old r (lt_size_of_made hrmade)).1
    refine ⟨r, ?_, ?_, hsame.made_iff.2 hrmade⟩
    · rw [place?, h.places, hs.id]
      exact hr
    · rw [hsame.id, hrid, hs.id]
  unmade q hq := by
    obtain ⟨p, hs⟩ := h.stems q
    exact hs.unmade (hw.unmade p) hq

end Kept

theorem Catalog.stems_add {c : Catalog} {t : Table} {q : Nat} (hq : q ≠ c.tables.size) :
    ∃ p, ((c.add t).2.table q).Stems (c.table p) := ⟨q, by rw [table_add_of_ne hq]; exact .refl _⟩

theorem Change.kept (h : Change w₀ w w') (hw : Kept w) : Kept w' := by
  cases h with
  | still h => exact hw.still h
  | @make place t c db fs enters id made _ _ table formulas =>
    obtain ⟨b, hkin, -⟩ := table
    have hid : (c.table place).id = w.lastTable + 1 := hkin.id.trans id
    have hmade : (c.table place).Made := hkin.made_iff.2 made
    refine hw.enter place (lt_add_one _).le enters.old (fun _ ↦ enters.stems) (enters.places hkin.id)
      hid.le (.inl hmade) (absurd hmade) fun e he ↦ ?_
    change e.1 ≤ w.lastTable + 1
    rcases formulas with rfl | ⟨-, full, rfl⟩
    · exact (hw.keys e he).trans (lt_add_one _).le
    · rcases mem_put he with rfl | he
      · exact id.le
      · exact (hw.keys e he).trans (lt_add_one _).le
  | @project place p n source t c db enters grouped id _ lineage _ table =>
    have hp := hw.made_of_mentions grouped
    have hmade : (c.table place).Made := table.made_iff.2 <|
      Begins.made (.of_append _ lineage)
    refine hw.enter place le_rfl enters.old (fun _ ↦ enters.stems) (enters.places table.id) ?_ (.inl hmade)
      (absurd hmade) hw.keys
    change (c.table place).id ≤ w.lastTable
    rw [table.id, id]
    exact hw.counted p hp
  | @share place n t db fs shares =>
    have hself : (w.catalog.add t).2.table w.catalog.tables.size = t := table_add_self
    have hid : t.id = w.lastTable + 1 := shares.kin.id
    have hsource : t.Stems { w.catalog.table place with id := w.lastTable + 1 } :=
      shares.kin.stems (.inl shares.origin)
    refine hw.enter w.catalog.tables.size (lt_add_one _).le (fun r hr ↦ table_add_of_lt hr)
      (fun _ ↦ stems_add) ?_ ?_ (.inr ?_) (fun hm ↦ ?_) fun e he ↦ ?_
    · rw [hself, hid]
      exact shares.places
    · rw [hself, hid]
    · rw [hself, hid]
      exact lt_add_one _
    · rw [hself] at hm ⊢
      exact hsource.unmade (hw.unmade place) hm
    · rw [shares.full] at he
      exact (hw.keys e he).trans (lt_add_one _).le

theorem Chain.kept (h : Chain w w') (hw : Kept w) : Kept w' :=
  h.induct (P := Kept) hw fun _ _ hv hc ↦ hc.kept hv

/-! ### Numbers of choices -/

namespace Aligned

theorem uniform_of_stems (hw : Aligned w) {t u : Table} {p q : Nat} (ht : t.Stems (w.catalog.table p))
    (hu : u.Stems (w.catalog.table q)) (htmade : t.Made) (humade : u.Made) (hid : u.id = t.id)
    (hsorted : ¬ t.Begins "Sorted") : ¬ u.Begins "Sorted" ∧ choiceCount u = choiceCount t := by
  have hp := mt ht.sorted_iff.2 hsorted
  obtain ⟨hq, hcount⟩ := hw.uniform p q (ht.made_iff.1 htmade) (hu.made_iff.1 humade)
    (by rw [← hu.id, hid, ht.id]) hp
  rw [hu.sorted_iff, hu.choiceCount_eq hq, ht.choiceCount_eq hp]
  exact ⟨hq, hcount⟩

theorem enter (hw : Aligned w) (place : Nat)
    (hother : ∀ q ≠ place, ∃ p, (w'.catalog.table q).Stems (w.catalog.table p))
    (hself : (w'.catalog.table place).Made → ∀ p, (w.catalog.table p).Made →
      (w.catalog.table p).id = (w'.catalog.table place).id →
      ¬ (w'.catalog.table place).Begins "Sorted" ∧ ¬ (w.catalog.table p).Begins "Sorted" ∧
        choiceCount (w'.catalog.table place) = choiceCount (w.catalog.table p))
    (hgroup : (w'.catalog.table place).Begins "Grouped from" →
      w'.formulas.fullTable.lookup (w'.catalog.table place).id = none) (hfull : ∀ p, (w.catalog.table p).Made →
      w'.formulas.fullTable.lookup (w.catalog.table p).id = w.formulas.fullTable.lookup (w.catalog.table p).id) :
    Aligned w' where
  uniform q r hq hr hid hsorted := by
    rcases eq_or_ne q place with rfl | hqne
    · rcases eq_or_ne r q with rfl | hrne
      · exact ⟨hsorted, rfl⟩
      · obtain ⟨p, hs⟩ := hother r hrne
        obtain ⟨-, hp, hcount⟩ := hself hq p (hs.made_iff.1 hr) (hs.id ▸ hid)
        rw [hs.sorted_iff, hs.choiceCount_eq hp, hcount]
        exact ⟨hp, rfl⟩
    · obtain ⟨p, hs⟩ := hother q hqne
      rcases eq_or_ne r place with rfl | hrne
      · obtain ⟨hnot, hp, hcount⟩ := hself hr p (hs.made_iff.1 hq) (hs.id ▸ hid.symm)
        rw [hs.choiceCount_eq hp, hcount]
        exact ⟨hnot, rfl⟩
      · obtain ⟨p', hs'⟩ := hother r hrne
        exact hw.uniform_of_stems hs hs' hq hr hid hsorted
  groups q hq := by
    rcases eq_or_ne q place with rfl | hne
    · exact hgroup hq
    · obtain ⟨p, hs⟩ := hother q hne
      have hp := (hs.begins_iff).1 hq
      rw [hs.id, hfull p hp.of_grouped.1]
      exact hw.groups p hp

end Aligned

/-- An alias is recognised as a scanned table. -/
theorem Shares.begins {place n : Nat} {t : Table} {db : Database} {fs : Formulas} (h : Shares w place n t db fs)
    (htold : w'.Told) (hcatalog : w'.catalog = (w.catalog.add t).2 := by rfl) : t.Begins "Scan" := by
  have htold := htold.table w.catalog.tables.size
  rw [hcatalog, table_add_self] at htold
  refine htold _ (by decide) ?_
  obtain ⟨s, hs, hinfix⟩ := mentionsIfAny_iff.1 h.scanned
  exact mentionsIfAny_iff.2 ⟨s, h.kin.lineage_eq hs, hinfix⟩

theorem Change.aligned (h : Change w₀ w w') (hkept : Kept w) (htold : w'.Told) (hw : Aligned w) : Aligned w' := by
  have htold₀ := h.told htold
  cases h with
  | still h =>
    refine ⟨fun q r hq hr hid hsorted ↦ ?_, fun q hq ↦ ?_⟩
    · obtain ⟨p, hs⟩ := h.stems q
      obtain ⟨p', hs'⟩ := h.stems r
      exact hw.uniform_of_stems hs hs' hq hr hid hsorted
    · obtain ⟨p, hs⟩ := h.stems q
      rw [h.full, hs.id]
      exact hw.groups p ((hs.begins_iff).1 hq)
  | @make place t c db fs enters id made _ _ table formulas =>
    obtain ⟨b, hkin, -⟩ := table
    have hid : (c.table place).id = w.lastTable + 1 := hkin.id.trans id
    refine hw.enter place (fun _ ↦ enters.stems) (fun _ p hp heq ↦ ?_)
      (fun hgroup ↦ ?_) fun p hp ↦ ?_
    · have := hkept.counted p hp
      rw [heq, hid] at this
      omega
    · rcases formulas with rfl | ⟨hnot, -⟩
      · rw [hid]
        exact hkept.lookup_next
      · exact absurd ((hkin.begins_iff).1 hgroup) hnot
    · rcases formulas with rfl | ⟨-, full, rfl⟩
      · rfl
      · have hne : (w.catalog.table p).id ≠ t.id := by
          have := hkept.counted p hp
          omega
        exact lookup_put.trans (if_neg (mt beq_iff_eq.1 hne))
  | @project place p n source t c db enters grouped id bound lineage columns table =>
    have hp : (w.catalog.table p).Made := hkept.made_of_mentions grouped
    have hbegins : (w.catalog.table p).Begins "Grouped from" := htold₀.table p _ (by decide) grouped
    have hword : (c.table place).Begins "Grouped and projected" :=
      table.begins (.of_append (" from T" ++ toString source) (by rw [lineage, String.append_assoc]))
    have hcount : choiceCount (c.table place) = choiceCount (w.catalog.table p) := by
      refine choiceCount_congr (table.bound.trans bound) ?_
      rw [mentions_of_part hword.mentions, mentions_of_part grouped]
    have hsorted : ¬ (c.table place).Begins "Sorted" := hword.not_begins
    refine hw.enter place (fun _ ↦ enters.stems) (fun _ q hq heq ↦ ?_)
      (fun hgroup ↦ absurd hgroup (hword.not_begins)) fun q hq ↦ rfl
    obtain ⟨hq', hcount'⟩ := hw.uniform p q hp hq (by rw [heq, ← id]; exact table.id) hbegins.of_grouped.2
    exact ⟨hsorted, hq', hcount.trans hcount'.symm⟩
  | @share place n t db fs shares =>
    have hself : (w.catalog.add t).2.table w.catalog.tables.size = t := table_add_self
    have hscan := shares.begins htold
    refine hw.enter w.catalog.tables.size (fun _ ↦ stems_add) (fun hm ↦ ?_) (fun hgroup ↦ ?_) fun p _ ↦ ?_
    · rw [hself] at hm
      exact absurd hscan hm.not_begins
    · rw [hself] at hgroup
      exact absurd hscan hgroup.of_grouped.1.not_begins
    · rw [shares.full]

theorem Chain.aligned (h : Chain w w') (hkept : Kept w) (htold : w'.Told) (hw : Aligned w) : Aligned w' :=
  (h.induct (P := fun v ↦ Kept v ∧ (v.Told → Aligned v)) ⟨hkept, fun _ ↦ hw⟩ fun _ _ hv hc ↦
    ⟨hc.kept hv.1, fun ht ↦ hc.aligned hv.1 ht (hv.2 (hc.told ht))⟩).2 htold

end Numbers

/-! ## The start -/

section Start

variable {w v : Workspace} {schema : Value} {u : Unit}

/-- The columns of a table of the schema are counted from zero on, and have names in lower case. -/
def Workspace.Loading.Counted (l : Loading) : Prop :=
  l.columns.map (·.id) = upTo l.columns.length ∧ ∀ c ∈ l.columns, ∃ s, c.name = .str (Text.lower s)

theorem loadColumns_counted {t : Value} {enums : List Value} {l : Loading}
    (h : loadColumns schema t enums = .ok l) : l.Counted := by
  obtain ⟨name, -, induct⟩ := loadColumns_induct h
  refine induct Loading.Counted (fun l s type listed l' h hl ↦ ?_) ⟨rfl, by simp⟩
  obtain ⟨_, -, rfl⟩ := add_ok_iff.1 h
  constructor
  · dsimp only
    rw [map_append, hl.1, upTo, upTo, length_append, length_singleton, range_succ, map_append]
    rfl
  · exact forall_mem_append.2 ⟨hl.2, forall_mem_singleton.2 ⟨s, rfl⟩⟩

/-- What depends on tables only and goes on to hold when a table of the schema is made. -/
structure Loads (P : Workspace → Prop) : Prop where
  empty : ∀ {w : Workspace}, w.catalog = {} → w.database = {} → w.lastTable = -1 → w.formulas.fullTable = [] → P w
  same : ∀ {w v : Workspace}, v.catalog = w.catalog → v.database = w.database → v.lastTable = w.lastTable →
    v.formulas.fullTable = w.formulas.fullTable → v.bound = w.bound → P w → P v
  add : ∀ {w : Workspace} {name : Value} {columns : List Column} {db : Database},
    columns.map (·.id) = upTo columns.length → (∀ c ∈ columns, ∃ s, c.name = .str (Text.lower s)) →
    w.database.addTable w.catalog.tables.size { id := w.lastTable + 1, name, columns, bound := w.bound } = (.ok (), db) →
    P w → P { w with
      lastTable := w.lastTable + 1
      catalog := (w.catalog.add { id := w.lastTable + 1, name, columns, bound := w.bound }).2
      database := db }

namespace Loads

variable {P : Workspace → Prop} (hP : Loads P)

include hP

theorem loadTables (ts enums : List Value) : Guards P (loadTables schema ts enums) := by
  induction ts generalizing enums with
  | nil => exact .pure trivial
  | cons t ts ih =>
    intro w u v hw hg
    simp only [Workspace.loadTables, makeTable, bind_iff, get_iff, newTableId_gives, lift_iff,
      enter_gives, addTable_gives_iff, pure_iff, modify_iff] at hg
    obtain ⟨_, _, ⟨rfl, rfl⟩, l, _, ⟨hl, rfl⟩, _, _, ⟨rfl, rfl⟩, _, _,
      ⟨_, _, ⟨rfl, rfl⟩, _, _, ⟨db, hadd, rfl⟩, rfl, rfl⟩, _, _, rfl, hg⟩ := hg
    rw [table_add_self] at hadd
    have hw₁ := hP.add (loadColumns_counted hl).1 (loadColumns_counted hl).2 hadd hw
    exact ih l.enums (hP.same (by rfl) (by rfl) (by rfl) (by rfl) (by rfl) hw₁) hg

theorem lenient : Lenient (Preserves P) where
  codes _ _ h := hP.same (by rfl) (by rfl) (by rfl) (by rfl) (by rfl) h
  extra _ _ h := hP.same (by rfl) (by rfl) (by rfl) (by rfl) (by rfl) h
  messages _ _ h := hP.same (by rfl) (by rfl) (by rfl) (by rfl) (by rfl) h

theorem start {constraints : List Value} {bound timeBudget sizes : Value}
    (hg : Gives (start schema constraints bound timeBudget sizes) w u v) : P v := by
  simp only [Workspace.start, loadSchema, loadConstraints, bind_iff, get_iff, modify_iff, Workspace.append] at hg
  obtain ⟨_, w₁, h₁, _, w₂, ⟨_, _, rfl, _, _, ⟨rfl, rfl⟩, ts, _, hts, _, w₃, hload, _, w₄, hkeys, hend⟩, _, _, rfl,
    _, _, ⟨rfl, rfl⟩, f, w₅, hcs, rfl⟩ := hg
  obtain rfl := set_iff.1 h₁
  obtain ⟨-, rfl⟩ := lift_iff.1 hts
  obtain ⟨-, rfl⟩ := pure_iff.1 hend
  have hw₃ := (hP.loadTables ts [] (by exact hP.empty rfl rfl rfl rfl) hload).1
  have hw₄ := (Keeps.forIn (fun t _ _ ↦ (Lenient.keyConstraints_moves (R := Preserves P)
    (fun _ _ h ↦ hP.same (by rfl) (by rfl) (by rfl) (by rfl) (by rfl) h) _ t).keeps.bind fun _ _ ↦ .pure trivial) hw₃ hkeys).1
  have hw₅ := ((hP.lenient.encode_moves _).keeps (by exact hP.same (w := w₂) rfl rfl rfl rfl rfl hw₄) hcs).1
  exact hP.same (by rfl) (by rfl) (by rfl) (by exact fullTable_append ..) (by rfl) hw₅

end Loads

/-- Tables of the schema are not made by operators. -/
theorem start_unmade : Loads fun w ↦ w.formulas.fullTable = [] ∧
    ∀ p, (w.catalog.table p).lineage = none ∧ (w.catalog.table p).origin = none where
  empty hc _ _ hf := ⟨hf, fun p ↦ by rw [hc, table_of_size_le (Nat.zero_le p)]; exact ⟨rfl, rfl⟩⟩
  same hc _ _ hf _ h := by
    rw [hc, hf]
    exact h
  add {w _ _ _} _ _ _ h := by
    refine ⟨h.1, fun p ↦ ?_⟩
    rcases eq_or_ne p w.catalog.tables.size with rfl | hne
    · rw [table_add_self]
      exact ⟨rfl, rfl⟩
    · rw [table_add_of_ne hne]
      exact h.2 p

theorem Table.not_made {t : Table} (h : t.lineage = none) : ¬ t.Made := by
  rintro ⟨s, hs, -⟩
  rw [h] at hs
  cases hs

/-- Where no operator has made a table, there are no numbers to be kept. -/
theorem unmade_kept (hfull : v.formulas.fullTable = [])
    (h : ∀ p, (v.catalog.table p).lineage = none ∧ (v.catalog.table p).origin = none) : Kept v ∧ Aligned v := by
  have hmade (p : Nat) : ¬ (v.catalog.table p).Made := not_made (h p).1
  refine ⟨⟨fun p hp ↦ absurd hp (hmade p), ?_, fun p hp ↦ absurd hp (hmade p), fun p _ ↦ ⟨(h p).2, ?_⟩⟩,
    ⟨fun p _ hp ↦ absurd hp (hmade p), fun p hp ↦ absurd hp.of_grouped.1 (hmade p)⟩⟩
  · rw [hfull]
    simp
  · rw [(h p).1]
    simp

end Start

/-- A workspace in which queries were encoded one after another, each under a name. -/
inductive Encodings (schema : Value) : Workspace → Prop
  | start {constraints : List Value} {bound timeBudget sizes : Value} {w v : Workspace}
      (h : Gives (start schema constraints bound timeBudget sizes) w () v) : Encodings schema v
  | query {w w' : Workspace} (name : Value) {n : Node} {out : Nat} (h : Encodings schema w)
      (hg : Gives (Query.table n) { w with currentQuery := name } out w') : Encodings schema w'

theorem Encodings.route {schema : Value} {w : Workspace} (h : Encodings schema w) :
    ∃ (constraints : List Value) (bound timeBudget sizes : Value) (v₀ v : Workspace),
      Gives (Workspace.start schema constraints bound timeBudget sizes) v₀ () v ∧ ∀ R, Route R → R v w := by
  induction h with
  | @start constraints bound timeBudget sizes w v h => exact ⟨_, _, _, _, w, v, h, fun R hR ↦ hR.refl v⟩
  | query name _ hg ih =>
    obtain ⟨_, _, _, _, v₀, v, hv, hroute⟩ := ih
    refine ⟨_, _, _, _, v₀, v, hv, fun R hR ↦ hR.trans (hR.note (hroute R hR) ?_ ?_ ?_ ?_ ?_) (hR.query (Node.everywhere_true _) hg)⟩ <;> simp

end QueryEquiv
