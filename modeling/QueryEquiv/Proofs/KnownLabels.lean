import QueryEquiv.Proofs.Decisions
import QueryEquiv.Proofs.Loading
import QueryEquiv.Proofs.Registry

/-!
# The labels of clauses are known

The search finds out which table a label is about by going through all registered tables. It succeeds, and it
comes across the label of every formula that a clause has added (`clauses_known`), if lineages tell how tables
came about.

Three things have to be seen. A table that is registered has the labels that its lineage promises; only the
table of a grouping lacks one as long as it waits for its projection, and no table waits when a query has been
encoded (`Clears`). A label under which a formula was added is carried by a table that was made for it, and the
tables that share its number carry it too, up to groupings that are projected twice (`Accounted`). And no table
stands for one that stands for another.
-/

namespace QueryEquiv

open Chain Formulas Catalog Gives List Workspace Expression Operator Search

/-! ## Tables and their labels -/

namespace Table

variable {t u : Table} {l : String}

/-- A table carries the labels that are looked for in it. -/
def Carries (t : Table) (l : String) : Prop :=
  ∃ o, t.origin = some o ∧
    (t.mentionsIfAny "Duplicate" = true ∧ o.distinct = some (some l) ∨
      t.mentionsIfAny "Duplicate" = false ∧
        (o.label = some l ∨ t.mentionsIfAny "Group" = true ∧ o.grouping = some (some l)))

/-- A table that an operator has made has the labels that its lineage promises. A grouping has none of a grouping
behind it, as it waits for its projection. -/
def Complete (t : Table) : Prop :=
  t.Made → ∃ o, t.origin = some o ∧ (t.mentionsIfAny "Duplicate" = true → ∃ x, o.distinct = some x) ∧
    (t.mentionsIfAny "Group" = true → (∃ x, o.grouping = some x) ∨ t.Begins "Grouped from") ∧
    (t.Begins "Grouped from" → o.grouping = none)

/-- All labels of a table are carried by another one, unless the table is the projection of a grouping. -/
def Agrees (t u : Table) : Prop :=
  ∀ l, t.Carries l → u.Carries l ∨ t.Begins "Grouped and projected"

/-- A table is another one or a copy of it, with the same labels. -/
structure Twin (t u : Table) : Prop where
  stems : t.Stems u
  origin : t.origin = u.origin

instance (t : Table) (l : String) : Decidable (t.Carries l) :=
  decidable_of_iff (t.origin.any fun o ↦ t.mentionsIfAny "Duplicate" = true ∧ o.distinct = some (some l) ∨
      t.mentionsIfAny "Duplicate" = false ∧
        (o.label = some l ∨ t.mentionsIfAny "Group" = true ∧ o.grouping = some (some l))) <| by
    simp [Carries, Option.any_eq_true_iff_get, Option.eq_some_iff_get_eq]

theorem Complete.congr (h : u.Complete) (hlineage : t.lineage = u.lineage) (horigin : t.origin = u.origin) :
    t.Complete := by
  simp only [Complete, Made, Begins, mentionsIfAny, hlineage, horigin] at h ⊢
  exact h

namespace Twin

theorem refl (t : Table) : t.Twin t := ⟨.refl t, rfl⟩

theorem carries_iff (h : t.Twin u) : t.Carries l ↔ u.Carries l := by
  rw [Carries, Carries, h.origin, h.stems.mentionsIfAny_eq, h.stems.mentionsIfAny_eq]

theorem complete (h : t.Twin u) (hu : u.Complete) : t.Complete := by
  intro ht
  rw [h.origin, h.stems.mentionsIfAny_eq, h.stems.mentionsIfAny_eq, h.stems.begins_iff]
  exact hu (h.stems.made_iff.1 ht)

theorem agrees {t' u' : Table} (ht : t.Twin t') (hu : u.Twin u') (h : t'.Agrees u') : t.Agrees u := by
  intro l hl
  rw [hu.carries_iff, ht.stems.begins_iff]
  exact h l (ht.carries_iff.1 hl)

end Twin

theorem Begins.mentions_part {word : String} (h : t.Begins word) (part : String)
    (hpart : part.toList <:+: word.toList) : t.mentionsIfAny part = true :=
  mentions_of_part h.mentions hpart

/-- The labels of a complete table are found, unless it waits. -/
theorem labelsOf_ok (h : t.Complete) (hwaits : ¬ t.Begins "Grouped from")
    (hunmade : ¬ t.Made → t.origin = none ∧ ∀ s, t.lineage = some s → s = scannedText) :
    ∃ ls, labelsOf t = .ok ls ∧ (t.Made → ∀ l, t.Carries l → some l ∈ ls) := by
  rcases hlineage : t.lineage with _ | s
  · refine ⟨[], by simp [labelsOf, hlineage], fun hm ↦ ?_⟩
    obtain ⟨s, hs, -⟩ := hm
    rw [hlineage] at hs
    cases hs
  by_cases hmade : t.Made
  · obtain ⟨o, ho, hdistinct, hgroup, -⟩ := h hmade
    have carries {l : String} (hl : t.Carries l) :
        t.mentionsIfAny "Duplicate" = true ∧ o.distinct = some (some l) ∨ t.mentionsIfAny "Duplicate" = false ∧
          (o.label = some l ∨ t.mentionsIfAny "Group" = true ∧ o.grouping = some (some l)) := by
      obtain ⟨o', ho', hl⟩ := hl
      cases ho.symm.trans ho'
      exact hl
    simp only [labelsOf_eq_ok hlineage ho]
    split_ifs with hd hg
    · obtain ⟨x, hx⟩ := hdistinct hd
      exact ⟨[x], ⟨x, hx, rfl⟩, fun _ l hl ↦ by simpa [hd, hx, @eq_comm _ (some l)] using carries hl⟩
    · obtain ⟨x, hx⟩ := (hgroup hg).resolve_right hwaits
      exact ⟨[o.label, x], ⟨x, hx, rfl⟩, fun _ l hl ↦ by simpa [hd, hg, hx, @eq_comm _ (some l)] using carries hl⟩
    · exact ⟨[o.label], rfl, fun _ l hl ↦ by simpa [hd, hg, @eq_comm _ (some l)] using carries hl⟩
  · obtain ⟨horigin, hscan⟩ := hunmade hmade
    obtain rfl := hscan s hlineage
    refine ⟨[], ?_, fun hm ↦ absurd hm hmade⟩
    have hd : Text.occursIn "Duplicate" scannedText = false := by decide
    have hg : Text.occursIn "Group" scannedText = false := by decide
    simp [labelsOf, hlineage, horigin, hd, hg, pure, Except.pure]

end Table

theorem Catalog.Like.twin {t u : Table} (h : Like t u) : t.Twin u := by
  obtain ⟨as, rfl⟩ := h
  exact ⟨Like.stems ⟨as, rfl⟩, rfl⟩

theorem Chain.twin {w w' : Workspace} (h : Chain w w') {p : Nat} (hp : p < w.catalog.tables.size) :
    (w'.catalog.table p).Twin (w.catalog.table p) :=
  ⟨(h.kin hp).1.stems (.inl (h.kin hp).2), (h.kin hp).2⟩

/-! ## What is accounted for -/

/-- Every formula of a clause is accounted for by a table that carries its label. -/
structure Accounted (w : Workspace) : Prop where
  kept : Kept w
  aligned : Aligned w
  complete : ∀ p, (w.catalog.table p).Complete
  agree : ∀ p q, (w.catalog.table p).Made → (w.catalog.table q).Made →
    (w.catalog.table q).id = (w.catalog.table p).id → (w.catalog.table p).Agrees (w.catalog.table q)
  precise : ∀ e ∈ w.formulas.fullTable, e.2 ≤ w.lastTable ∧ w.formulas.fullTable.lookup e.2 = none
  clauses : ∀ l ∈ w.formulas.labels, '$' ∈ l.toList → "scan_".toList <+: l.toList ∨
    ∃ p, (w.catalog.table p).Made ∧ (w.catalog.table p).Carries l

namespace Accounted

variable {w w' : Workspace}

/-- A table gets a place; all other tables are those before or copies of them. -/
theorem enter (hw : Accounted w) (hkept : Kept w') (haligned : Aligned w')
    (hold : ∀ p < w.catalog.tables.size, (w'.catalog.table p).Twin (w.catalog.table p)) (place : Nat)
    (hother : ∀ q ≠ place, ∃ p, (w'.catalog.table q).Twin (w.catalog.table p))
    (hcomplete : (w'.catalog.table place).Complete)
    (hself : (w'.catalog.table place).Made → ∀ p, (w.catalog.table p).Made →
      (w.catalog.table p).id = (w'.catalog.table place).id →
      (w'.catalog.table place).Agrees (w.catalog.table p) ∧ (w.catalog.table p).Agrees (w'.catalog.table place))
    (hprecise : ∀ e ∈ w'.formulas.fullTable, e.2 ≤ w'.lastTable ∧ w'.formulas.fullTable.lookup e.2 = none)
    (hclauses : ∀ l ∈ w'.formulas.labels, '$' ∈ l.toList → l ∈ w.formulas.labels ∨ "scan_".toList <+: l.toList ∨
      ∃ p, (w'.catalog.table p).Made ∧ (w'.catalog.table p).Carries l) : Accounted w' where
  kept := hkept
  aligned := haligned
  complete q := by
    rcases eq_or_ne q place with rfl | hne
    · exact hcomplete
    · obtain ⟨p, hp⟩ := hother q hne
      exact hp.complete (hw.complete p)
  agree q r hq hr hid := by
    rcases eq_or_ne q place with rfl | hqne
    · rcases eq_or_ne r q with rfl | hrne
      · exact fun l hl ↦ .inl hl
      · obtain ⟨p, hp⟩ := hother r hrne
        exact (Table.Twin.refl _).agrees hp (hself hq p (hp.stems.made_iff.1 hr) (hp.stems.id ▸ hid)).1
    · obtain ⟨p, hp⟩ := hother q hqne
      rcases eq_or_ne r place with rfl | hrne
      · exact hp.agrees (.refl _) (hself hr p (hp.stems.made_iff.1 hq) (hp.stems.id ▸ hid.symm)).2
      · obtain ⟨p', hp'⟩ := hother r hrne
        refine hp.agrees hp' (hw.agree p p' (hp.stems.made_iff.1 hq) (hp'.stems.made_iff.1 hr) ?_)
        rw [← hp.stems.id, ← hp'.stems.id, hid]
  precise := hprecise
  clauses l hl hdollar := by
    rcases hclauses l hl hdollar with hl | hl | hl
    · refine (hw.clauses l hl hdollar).imp_right fun ⟨p, hmade, hcarries⟩ ↦ ?_
      have hp := hold p (lt_size_of_made hmade)
      exact ⟨p, hp.stems.made_iff.2 hmade, hp.carries_iff.2 hcarries⟩
    · exact .inl hl
    · exact .inr hl

theorem move (hw : Accounted w) (hkept : Kept w') (haligned : Aligned w') (hlast : w.lastTable ≤ w'.lastTable)
    (hold : ∀ p < w.catalog.tables.size, (w'.catalog.table p).Twin (w.catalog.table p))
    (hall : ∀ q, ∃ p, (w'.catalog.table q).Twin (w.catalog.table p))
    (hfull : w'.formulas.fullTable = w.formulas.fullTable)
    (hclauses : ∀ l ∈ w'.formulas.labels, '$' ∈ l.toList → l ∈ w.formulas.labels ∨
      ∃ p, (w'.catalog.table p).Made ∧ (w'.catalog.table p).Carries l) : Accounted w' := by
  have hnone : w'.catalog.table w'.catalog.tables.size = default := table_of_size_le le_rfl
  have hunmade : ¬ (w'.catalog.table w'.catalog.tables.size).Made := hnone ▸ Table.not_made rfl
  refine hw.enter hkept haligned hold w'.catalog.tables.size (fun q _ ↦ hall q) (fun hm ↦ absurd hm hunmade)
    (fun hm ↦ absurd hm hunmade) (fun e he ↦ ?_) fun l hl hdollar ↦ (hclauses l hl hdollar).imp_right .inr
  rw [hfull] at he ⊢
  exact ⟨(hw.precise e he).1.trans hlast, (hw.precise e he).2⟩

theorem append (hw : Accounted w) (htold : w.Told) (term : Term) {label : Option String}
    (hlabel : ∀ l, label = some l → ∃ p, (w.catalog.table p).Made ∧ (w.catalog.table p).Carries l) :
    Accounted { w with formulas := w.formulas.append term label } := by
  have hchain := (refl w).append term label
  refine hw.move (hchain.kept hw.kept) (hchain.aligned hw.kept htold hw.aligned) le_rfl (fun p _ ↦ .refl _)
    (fun q ↦ ⟨q, .refl _⟩) (fullTable_append ..) fun l hl hdollar ↦ ?_
  rcases mem_labels_append hl with hl | rfl
  · exact .inl hl
  · cases label with
    | some l => exact .inr (hlabel l rfl)
    | none => exact absurd hdollar (notMem_made_up _)

/-- What a table stands for stands for no other. -/
theorem lookup_fullId (hw : Accounted w) (p : Nat) : w.formulas.fullTable.lookup (w.fullId p) = none := by
  rcases hfull : w.formulas.fullTable.lookup (w.catalog.table p).id with _ | id
  · rw [fullId, hfull]
    exact hfull
  · rw [fullId, hfull]
    exact (hw.precise _ (Formulas.mem_of_lookup hfull)).2

end Accounted

/-- What is accounted for stays so on the way from one workspace to another. -/
structure Accounts (w₀ w : Workspace) : Prop where
  chain : Chain w₀ w
  keeps : w.Told → Accounted w₀ → Accounted w

namespace Accounts

variable {w w' : Workspace}

theorem of_chain (h : Chain w w') (hall : ∀ q, ∃ p, (w'.catalog.table q).Twin (w.catalog.table p))
    (hno : w'.formulas.AddsNoClause w.formulas) : Accounts w w' :=
  ⟨h, fun htold hw ↦ hw.move (h.kept hw.kept) (h.aligned hw.kept htold hw.aligned) h.last_le (fun _ hp ↦ h.twin hp)
    hall hno.full fun l hl hdollar ↦ .inl (hno.labels l hl hdollar)⟩

theorem still (h : Chain w w') (hsize : w'.catalog.tables.size = w.catalog.tables.size)
    (hno : w'.formulas.AddsNoClause w.formulas) : Accounts w w' := by
  refine of_chain h (fun q ↦ ⟨q, ?_⟩) hno
  rcases lt_or_ge q w.catalog.tables.size with hq | hq
  · exact h.twin hq
  · rw [table_of_size_le hq, table_of_size_le (hsize ▸ hq)]
    exact .refl _

theorem passage : Passage Accounts where
  chain h := h.chain
  trans h g := ⟨h.chain.trans g.chain, fun htold hw ↦ g.keeps htold (h.keeps (g.chain.told htold) hw)⟩
  calm h := still h.chain h.size h.clauses

theorem copy {c : Catalog} (h : Copied w.catalog c) : Accounts w { w with catalog := c } :=
  of_chain ((refl w).step (.copy h)) (fun q ↦ (h.like q).imp fun _ h ↦ h.twin) (.of_entries rfl rfl)

theorem share {place n : Nat} {t : Table} {db : Database} {fs : Formulas} (h : Shares w place n t db fs) : Accounts w
      { w with lastTable := w.lastTable + 1, catalog := (w.catalog.add t).2, database := db, formulas := fs } := by
  have hchain := (refl w).step (.share h)
  refine ⟨hchain, fun htold hw ↦ ?_⟩
  have hself : (w.catalog.add t).2.table w.catalog.tables.size = t := table_add_self
  have hunmade : ¬ ((w.catalog.add t).2.table w.catalog.tables.size).Made := by
    rw [hself]
    exact fun hm ↦ hm.not_begins (h.begins htold)
  refine hw.enter (hchain.kept hw.kept) (hchain.aligned hw.kept htold hw.aligned) (fun _ hp ↦ hchain.twin hp)
    w.catalog.tables.size (fun q hq ↦ ⟨q, ?_⟩) (fun hm ↦ absurd hm hunmade) (fun hm ↦ absurd hm hunmade)
    (fun e he ↦ ?_) fun l hl _ ↦ (h.labels l hl).imp_right .inl
  · rw [table_add_of_ne hq]
    exact .refl _
  · rw [h.full] at he ⊢
    exact ⟨(hw.precise e he).1.trans (lt_add_one _).le, (hw.precise e he).2⟩

section Applying

variable {place out : Nat} {t : Table} {v v₁ : Workspace} {cut : Option Nat} {term : Term} {label : Option String}

theorem placed (hmade : Placed w place t v) (htold : v.Told) (hw : Accounted w) (hcomplete : t.Complete)
    (hself : ∀ p, (w.catalog.table p).Made → (w.catalog.table p).id = t.id →
      t.Agrees (w.catalog.table p) ∧ (w.catalog.table p).Agrees t) : Accounted v := by
  rw [← hmade.table] at hcomplete hself
  refine hw.enter (hmade.chain.kept hw.kept) (hmade.chain.aligned hw.kept htold hw.aligned)
    (fun _ hp ↦ hmade.chain.twin hp) place (fun q hq ↦ (hmade.like q hq).imp fun _ h ↦ h.twin) hcomplete
    (fun _ ↦ hself) (fun e he ↦ ?_) fun l hl _ ↦ .inl ?_
  · rw [hmade.formulas] at he ⊢
    exact ⟨(hw.precise e he).1.trans hmade.chain.last_le, (hw.precise e he).2⟩
  · rwa [hmade.formulas] at hl

/-- A smaller table stands for one that stands for no other. -/
theorem cutDown (hcut : Cut v place cut v₁) (htold : v₁.Told) (hv : Accounted v) (hmade : (v.catalog.table place).Made)
    (hnone : v.formulas.fullTable.lookup (v.catalog.table place).id = none) : Accounted v₁ := by
  rcases hcut.split with ⟨-, rfl⟩ | ⟨hid, hformulas, -⟩
  · exact hv
  have hlast : v.lastTable + 1 ≤ v₁.lastTable := by
    rw [← hid]
    refine (hcut.chain.kept hv.kept).counted _ ?_
    rwa [Table.Made, hcut.lineage]
  have hfull {id : Int} (hle : id ≤ v.lastTable) :
      v₁.formulas.fullTable.lookup id = v.formulas.fullTable.lookup id := hcut.chain.lookup_full hle
  refine hv.enter (hcut.chain.kept hv.kept) (hcut.chain.aligned hv.kept htold hv.aligned)
    (fun _ hp ↦ hcut.chain.twin hp) (cut.getD place) (fun q hq ↦ (hcut.like q hq).imp fun _ h ↦ h.twin)
    ((hv.complete place).congr hcut.lineage hcut.origin) (fun _ p hp heq ↦ ?_) (fun e he ↦ ?_) fun l hl _ ↦ .inl ?_
  · have := hv.kept.counted p hp
    omega
  · rw [hformulas] at he
    rcases mem_put he with rfl | he
    · have hle := hv.kept.counted place hmade
      exact ⟨by omega, (hfull hle).trans hnone⟩
    · obtain ⟨hle, hlookup⟩ := hv.precise e he
      exact ⟨by omega, (hfull hle).trans hlookup⟩
  · rwa [hformulas] at hl

theorem applied (h : Applied Accounts w t term label out w')
    (hfull : Kept w → Aligned w → w.Told → w.formulas.fullTable.lookup t.id = none)
    (hself : Accounted w → w.Told → t.Told → t.Complete ∧ (∀ l, label = some l → t.Carries l) ∧
      ∀ p, (w.catalog.table p).Made → (w.catalog.table p).id = t.id →
        t.Agrees (w.catalog.table p) ∧ (w.catalog.table p).Agrees t) : Accounts w w' := by
  have hchain := h.chain passage.walk
  cases h with
  | @intro place v v₁ u cut hmade hcut hreads =>
    refine ⟨hchain, fun htold hw ↦ ?_⟩
    have htold₁ := hreads.chain.told htold
    have htoldv := hcut.chain.told htold₁
    have htoldw := hmade.chain.told htoldv
    have htoldt := htoldv place hmade.entered
    rw [hmade.table] at htoldt
    obtain ⟨hcomplete, hcarries, hagrees⟩ := hself hw htoldw htoldt
    have hv := placed hmade htoldv hw hcomplete hagrees
    have hv₁ := cutDown hcut htold₁ hv (hmade.table ▸ hmade.made)
      (by rw [hmade.table, hmade.full]; exact hfull hw.kept hw.aligned htoldw)
    refine (hreads.keeps htold hv₁).append htold term fun l hl ↦ ⟨place, ?_⟩
    have htwin := (hcut.chain.trans hreads.chain).twin hmade.entered
    rw [hmade.table] at htwin
    exact ⟨htwin.stems.made_iff.2 hmade.made, htwin.carries_iff.2 (hcarries l hl)⟩

/-- An operator that makes a table of its own has no other table to agree with. -/
theorem fresh (h : Applied Accounts w t term label out w') (hid : t.id = w.lastTable + 1)
    (hself : t.Told → t.Complete ∧ ∀ l, label = some l → t.Carries l) : Accounts w w' := by
  refine applied h (fun hkept _ _ ↦ ?_) fun hw _ htold ↦ ⟨(hself htold).1, (hself htold).2, fun p hp heq ↦ ?_⟩
  · rw [hid]
    exact hkept.lookup_next
  · have := hw.kept.counted p hp
    omega

theorem plain {first : String} (hfirst : t.Begins first)
    (hword : ∀ word ∈ ["Group", "Duplicate"], ¬ first.toList <+: word.toList ∧ ¬ word.toList <+: first.toList)
    (horigin : ∃ o, t.origin = some o ∧ o.label = label) (htold : t.Told) :
    t.Complete ∧ ∀ l, label = some l → t.Carries l := by
  obtain ⟨hgroup, hduplicate⟩ := htold.plain hfirst hword
  obtain ⟨o, ho, rfl⟩ := horigin
  refine ⟨fun _ ↦ ⟨o, ho, ?_, ?_, fun hwaits ↦ ?_⟩, fun l hl ↦ ⟨o, ho, .inr ⟨hduplicate, .inl hl⟩⟩⟩
  · rw [hduplicate]
    rintro ⟨⟩
  · rw [hgroup]
    rintro ⟨⟩
  · have hmentions := hwaits.mentions_part "Group" (by decide)
    rw [hgroup] at hmentions
    cases hmentions

theorem ordered (h : Ordered Accounts w out w') : Accounts w w' := by
  have hchain := h.chain passage.walk
  cases h with
  | @intro t term label u _ hid hsorted horigin _ happlied hlimited =>
    have hu := fresh happlied hid (plain hsorted (by decide) horigin)
    cases hlimited with
    | none => exact hu
    | some limit hnew hentered hsorted =>
      have hchange : Change w u { u with catalog := u.catalog.modify out ({ · with bound := limit }) } :=
        .limit limit hnew hsorted
      have twins (q : Nat) :
          ((u.catalog.modify out ({ · with bound := limit })).table q).Twin (u.catalog.table q) := by
        rcases eq_or_ne out q with rfl | hne
        · rw [table_modify_self hentered]
          exact ⟨⟨rfl, rfl, .inl rfl, .inr hsorted, .inl rfl⟩, rfl⟩
        · rw [table_modify_of_ne hne]
          exact .refl _
      exact ⟨hchain, fun htold hw ↦ (hu.keeps (hchange.told htold) hw).move (hchain.kept hw.kept)
        (hchain.aligned hw.kept htold hw.aligned) le_rfl (fun p _ ↦ twins p) (fun q ↦ ⟨q, twins q⟩) rfl
        fun _ hl _ ↦ .inl hl⟩

theorem grouping (h : Grouping Accounts w place w') : Accounts w w' := by
  cases h with
  | @intro input rows _ label keys K H v u hrows hlength hmade hreads =>
    have hword := groupedTable_begins (w := w) input label keys
    refine fresh (.intro hmade (.none hmade.entered) hreads) rfl fun htold ↦ ?_
    have hduplicate := htold.not_mentions "Duplicate" hword
    refine ⟨fun _ ↦ ⟨_, rfl, ?_, fun _ ↦ .inr (hword.of_prefix), fun _ ↦ rfl⟩, fun l hl ↦
      ⟨_, rfl, .inr ⟨hduplicate, .inl hl⟩⟩⟩
    rw [hduplicate]
    rintro ⟨⟩

theorem projection (h : GroupProjection Accounts w place out w') : Accounts w w' := by
  cases h with
  | @intro members start _ source columns as origin c term _ hgrouped horigin hgrouping hrows hdecides h =>
    have hwaits (htold : w.Told) := htold.table place "Grouped from" (by decide) hgrouped
    refine applied h (fun _ haligned htold ↦ haligned.groups place (hwaits htold)) fun hw htold htold' ↦ ?_
    have hplace := hwaits htold
    have hword := (labelled_kin c _).begins
      (grouped_begins members source columns { w.catalog.table place with ancestors := as })
    have hduplicate := htold'.not_mentions "Duplicate" hword
    have hgroup := hword.mentions_part "Group" (by decide)
    refine ⟨fun _ ↦ ⟨_, rfl, ?_, fun _ ↦ .inl ⟨_, rfl⟩, fun hnot ↦ ?_⟩, fun l hl ↦
      ⟨_, rfl, .inr ⟨hduplicate, .inl hl⟩⟩, fun p hp heq ↦ ⟨fun l _ ↦ .inr (hword.of_prefix), fun l hl ↦ ?_⟩⟩
    · rw [hduplicate]
      rintro ⟨⟩
    · exact absurd hnot (hword.not_begins)
    · -- The label that the waiting table carries is that of the grouping.
      refine (hw.agree p place hp hplace.of_grouped.1 heq.symm l hl).imp_left ?_
      rintro ⟨o, ho, hl⟩
      obtain ⟨o', ho', -, -, hnone⟩ := hw.complete place hplace.of_grouped.1
      have hplain := (htold.table place).not_mentions "Duplicate" hplace
      rw [horigin] at ho ho'
      cases ho
      cases ho'
      rw [hplain, hnone hplace] at hl
      have hlabel : origin.label = some l := by simpa using hl
      exact ⟨_, rfl, .inr ⟨hduplicate, .inr ⟨hgroup, by rw [hgrouping, hlabel]⟩⟩⟩

theorem stage (h : Stage Accounts w out w') : Accounts w w' := by
  cases h with
  | filter _ _ h => exact fresh h rfl (plain (filteredTable_begins ..) (by decide) ⟨_, rfl, rfl⟩)
  | join _ _ h => exact fresh h rfl (plain (joinedTable_begins ..) (by decide) ⟨_, rfl, rfl⟩)
  | union _ _ _ h => exact fresh h rfl (plain (unionTable_begins ..) (by decide) ⟨_, rfl, rfl⟩)
  | project _ _ h =>
    exact fresh h rfl (plain ((labelled_kin _ _).begins (projectedTable_begins ..)) (by decide) ⟨_, rfl, rfl⟩)
  | @distinct input rows _ origin label term _ hlabel hrows hdecides h =>
    refine fresh h rfl fun htold ↦ ?_
    have hword := distinctTable_begins (w := w) input origin
    have hduplicate := hword.mentions_part "Duplicate" (by decide)
    have hgroup := htold.not_mentions "Group" hword
    refine ⟨fun _ ↦ ⟨_, rfl, fun _ ↦ ⟨label, hlabel⟩, ?_, fun hwaits ↦ ?_⟩, fun l hl ↦
      ⟨_, rfl, .inl ⟨hduplicate, by rw [hlabel, hl]⟩⟩⟩
    · rw [hgroup]
      rintro ⟨⟩
    · exact absurd hwaits (hword.not_begins)
  | order h => exact ordered h
  | projectGroups h => exact projection h

end Applying

theorem route : Route Accounts where
  toPassage := passage
  innate := Node.innate_true
  copy := copy
  rename h _ hkin horigin _ := passage.trans h
    (still ((refl _).step (.rename _ hkin (.inr horigin))) (size_modify _) (.of_entries rfl rfl))
  share h _ _ _ := share h
  stage := stage
  grouped h g := passage.trans (grouping h) (projection g)

end Accounts

/-! ## Groupings that wait -/

/-- Of the registered tables, none waits for its projection that did not wait before. -/
structure Clears (w₀ w : Workspace) : Prop where
  chain : Chain w₀ w
  waits : Kept w₀ → Registered w₀ → w.Told → ∀ e ∈ w.database.places, (w.catalog.table e.2).Begins "Grouped from" →
    e ∈ w₀.database.places

namespace Clears

variable {w w' : Workspace}

/-- A table that waits is the same that waited before. -/
theorem back (h : Clears w w') (hkept : Kept w) (hreg : Registered w) (htold : w'.Told) {e : Int × Nat}
    (he : e ∈ w'.database.places) (hwaits : (w'.catalog.table e.2).Begins "Grouped from") :
    e ∈ w.database.places ∧ (w.catalog.table e.2).Begins "Grouped from" := by
  have hmem := h.waits hkept hreg htold e he hwaits
  exact ⟨hmem, ((h.chain.kin (hreg.known e hmem).1).1.begins_iff).1 hwaits⟩

theorem still (h : Chain w w') (hsize : w'.catalog.tables.size = w.catalog.tables.size) : Clears w w' :=
  ⟨h, fun _ _ _ _ he _ ↦ h.places_eq hsize ▸ he⟩

theorem passage : Passage Clears where
  chain h := h.chain
  trans {w₀ w w'} h g := by
    refine ⟨h.chain.trans g.chain, fun hkept hreg htold e he hwaits ↦ ?_⟩
    obtain ⟨hmem, hwaits⟩ := g.back (h.chain.kept hkept) (h.chain.registered hkept hreg) htold he hwaits
    exact h.waits hkept hreg (g.chain.told htold) e hmem hwaits
  calm h := still h.chain h.size

theorem copy {c : Catalog} (h : Copied w.catalog c) : Clears w { w with catalog := c } :=
  ⟨(refl w).step (.copy h), fun _ _ _ _ he _ ↦ he⟩

theorem append (w : Workspace) (term : Term) (label : Option String) :
    Clears w { w with formulas := w.formulas.append term label } :=
  ⟨(refl w).append term label, fun _ _ _ _ he _ ↦ he⟩

theorem register (h : Chain w w') {id : Int} {place : Nat}
    (hplaces : w'.database.places = Database.put id place w.database.places)
    (hnot : w'.Told → ¬ (w'.catalog.table place).Begins "Grouped from") : Clears w w' := by
  refine ⟨h, fun _ _ htold e he hwaits ↦ ?_⟩
  rw [hplaces] at he
  rcases Database.mem_put he with rfl | he
  · exact absurd hwaits (hnot htold)
  · exact he

theorem share {place n : Nat} {t : Table} {db : Database} {fs : Formulas} (h : Shares w place n t db fs) : Clears w
      { w with lastTable := w.lastTable + 1, catalog := (w.catalog.add t).2, database := db, formulas := fs } := by
  refine register ((refl w).step (.share h)) h.places fun htold hwaits ↦ ?_
  have hscan := h.begins htold
  have hself : (w.catalog.add t).2.table w.catalog.tables.size = t := table_add_self
  rw [hself] at hwaits
  exact hwaits.of_grouped.1.not_begins hscan

section Applying

variable {place out : Nat} {t : Table} {v v₁ : Workspace} {cut : Option Nat} {term : Term} {label : Option String}

theorem placed (hmade : Placed w place t v) (hnot : ¬ t.Begins "Grouped from") : Clears w v :=
  register hmade.chain hmade.places fun _ ↦ hmade.table.symm ▸ hnot

theorem cutDown (hcut : Cut v place cut v₁) (hnot : ¬ (v.catalog.table place).Begins "Grouped from") : Clears v v₁ := by
  rcases hcut.split with ⟨-, rfl⟩ | ⟨-, -, hplaces⟩
  · exact passage.refl _
  · refine register hcut.chain hplaces fun _ ↦ ?_
    rwa [Table.Begins, hcut.lineage]

theorem applied (h : Applied Clears w t term label out w') (hnot : ¬ t.Begins "Grouped from") : Clears w w' := by
  cases h with
  | intro hmade hcut hreads =>
    exact passage.trans (passage.trans (placed hmade hnot) (passage.trans (cutDown hcut (hmade.table.symm ▸ hnot)) hreads))
      (append _ _ _)

theorem ordered (h : Ordered Clears w out w') : Clears w w' := by
  have hchain := h.chain passage.walk
  cases h with
  | @intro t term label u _ _ hsorted _ _ happlied hlimited =>
    have hu := applied happlied (hsorted.not_begins)
    cases hlimited with
    | none => exact hu
    | some limit hnew _ hsorted =>
      have hchange : Change w u { u with catalog := u.catalog.modify out ({ · with bound := limit }) } :=
        .limit limit hnew hsorted
      refine ⟨hchain, fun hkept hreg htold e he hwaits ↦ ?_⟩
      have hsize := (hu.chain.registered hkept hreg).known e he
      exact hu.waits hkept hreg (hchange.told htold) e he (((hchange.old hsize.1).1.begins_iff).1 hwaits)

/-- After a grouping, only its own table may wait in addition. -/
theorem grouping (h : Grouping Clears w place v) (hkept : Kept w) (hreg : Registered w) (htold : v.Told) {e : Int × Nat}
    (he : e ∈ v.database.places) (hwaits : (v.catalog.table e.2).Begins "Grouped from") :
    e ∈ w.database.places ∨ e.1 = (v.catalog.table place).id := by
  cases h with
  | @intro input rows _ label keys K H v u hrows hlength hmade hreads =>
    obtain ⟨hmem, -⟩ := hreads.back (hmade.chain.kept hkept) (hmade.chain.registered hkept hreg) htold he hwaits
    rw [hmade.places] at hmem
    rcases Database.mem_put hmem with rfl | hmem
    · right
      have hkin := (hreads.chain.kin hmade.entered).1
      rw [hmade.table] at hkin
      exact hkin.id.symm
    · exact .inl hmem

theorem projection (h : GroupProjection Clears v place out w') (hkept : Kept v) (hreg : Registered v) (htold : w'.Told)
    {e : Int × Nat} (he : e ∈ w'.database.places) (hwaits : (w'.catalog.table e.2).Begins "Grouped from") :
    e ∈ v.database.places ∧ e.1 ≠ (v.catalog.table place).id := by
  cases h with
  | @intro members start _ source columns as origin c term _ hgrouped horigin hgrouping hrows hdecides h =>
    have hword := (labelled_kin c _).begins
      (grouped_begins members source columns { v.catalog.table place with ancestors := as })
    have hnot : ¬ (labelled c (projected members source "Grouped and projected" columns
        { v.catalog.table place with ancestors := as })).Begins "Grouped from" :=
      hword.not_begins
    cases h with
    | @intro place' v₁ v₂ u cut hmade hcut hreads =>
      have hrest : Clears v₁ { u with formulas := u.formulas.append term c.label } :=
        passage.trans (passage.trans (cutDown hcut (hmade.table.symm ▸ hnot)) hreads) (append _ _ _)
      have hreg' := hmade.chain.registered hkept hreg
      obtain ⟨hmem, hwaits⟩ := hrest.back (hmade.chain.kept hkept) hreg' htold he hwaits
      refine ⟨(placed hmade hnot).waits hkept hreg (hrest.chain.told htold) e hmem hwaits, fun hid ↦ ?_⟩
      -- The number of the grouping is registered once, and with the projected table.
      have hlookup := lookup_of_mem hreg'.nodup hmem
      rw [hmade.places, hid, Database.put_eq] at hlookup
      have hplace : some place' = some e.2 := (lookup_put.trans (if_pos (beq_iff_eq.2 rfl))).symm.trans hlookup
      cases hplace
      exact hnot (hmade.table ▸ hwaits)

theorem stage (h : Stage Clears w out w') : Clears w w' := by
  cases h with
  | filter _ _ h => exact applied h ((filteredTable_begins ..).not_begins)
  | join _ _ h => exact applied h ((joinedTable_begins ..).not_begins)
  | union _ _ _ h => exact applied h ((unionTable_begins ..).not_begins)
  | distinct _ _ _ h => exact applied h ((distinctTable_begins ..).not_begins)
  | project _ _ h =>
    exact applied h (((labelled_kin _ _).begins (projectedTable_begins ..)).not_begins)
  | order h => exact ordered h
  | projectGroups h =>
    exact ⟨h.chain passage.walk, fun hkept hreg htold e he hwaits ↦ (projection h hkept hreg htold he hwaits).1⟩

end Applying

theorem route : Route Clears where
  toPassage := passage
  innate := Node.innate_true
  copy := copy
  rename h _ hkin horigin _ :=
    passage.trans h (still ((refl _).step (.rename _ hkin (.inr horigin))) (size_modify _))
  share h _ _ _ := share h
  stage := stage
  grouped {w v w' place out} h g := by
    refine ⟨(h.chain passage.walk).trans (g.chain passage.walk), fun hkept hreg htold e he hwaits ↦ ?_⟩
    have hchain := h.chain passage.walk
    have hreg' := hchain.registered hkept hreg
    obtain ⟨hmem, hne⟩ := projection g (hchain.kept hkept) hreg' htold he hwaits
    have hwaits' := (((g.chain passage.walk).kin (hreg'.known e hmem).1).1.begins_iff).1 hwaits
    exact (grouping h hkept hreg ((g.chain passage.walk).told htold) hmem hwaits').resolve_right hne

end Clears

/-! ## Sessions -/

theorem ofClause_iff {l : String} : ofClause l = true ↔ '$' ∈ l.toList := by
  rw [ofClause, Text.occursIn_iff]
  exact singleton_infix_iff _ _

theorem start_labels {schema : Value} {constraints : List Value} {bound timeBudget sizes : Value} {w v : Workspace}
    {u : Unit} (hg : Gives (start schema constraints bound timeBudget sizes) w u v) :
    ∀ l ∈ v.formulas.labels, l = "ic" := by
  simp only [Workspace.start, bind_iff, modify_iff] at hg
  obtain ⟨_, w₁, h₁, _, w₂, hschema, _, _, rfl, hg⟩ := hg
  obtain rfl := set_iff.1 h₁
  have hw₂ := Unencoded.loadSchema_moves.gives hschema
  simp only [loadConstraints, bind_iff, get_iff, Workspace.append, modify_iff] at hg
  obtain ⟨_, _, ⟨rfl, rfl⟩, f, w₃, hencode, rfl⟩ := hg
  have hw₃ := (Unencoded.lenient.encode_moves _).gives hencode
  have hnone : w₃.formulas = { timeout := timeBudget } := hw₃.1.trans hw₂.1
  intro l hl
  rcases mem_labels_append hl with hl | rfl
  · rw [hnone] at hl
    cases hl
  · rfl

theorem start_accounted {schema : Value} {constraints : List Value} {bound timeBudget sizes : Value} {w v : Workspace}
    {u : Unit} (hg : Gives (start schema constraints bound timeBudget sizes) w u v) : Accounted v := by
  obtain ⟨hfull, hunmade⟩ := start_unmade.start hg
  obtain ⟨hkept, haligned⟩ := unmade_kept hfull hunmade
  have hmade (p : Nat) : ¬ (v.catalog.table p).Made := Table.not_made (hunmade p).1
  refine ⟨hkept, haligned, fun p hp ↦ absurd hp (hmade p), fun p _ hp ↦ absurd hp (hmade p), ?_, fun l hl hdollar ↦ ?_⟩
  · simp [hfull]
  · rw [start_labels hg l hl] at hdollar
    exact absurd hdollar (by decide)

section Collecting

variable {w : Workspace}

theorem isSome_lookup_putAll {ls : List (Option String)} {id : Int} {fs : List (Option String × Int)}
    {label : Option String} (h : (fs.lookup label).isSome = true ∨ label ∈ ls) :
    ((ls.foldl (fun fs l ↦ put l id fs) fs).lookup label).isSome = true := by
  induction ls generalizing fs with
  | nil => exact h.resolve_right (not_mem_nil)
  | cons l ls ih =>
    rw [foldl_cons]
    refine ih ?_
    rw [lookup_put]
    split_ifs with hl
    · exact .inl rfl
    · exact h.imp_right fun hmem ↦ (mem_cons.1 hmem).resolve_left (mt beq_iff_eq.2 hl)

theorem collect_ok {places : List (Int × Nat)} (h : ∀ e ∈ places, ∃ ls, labelsOf (w.catalog.table e.2) = .ok ls)
    (found : List (Option String × Int)) :
    ∃ found', collect w places found = .ok found' ∧ ∀ label, ((found.lookup label).isSome = true ∨
      ∃ e ∈ places, ∃ ls, labelsOf (w.catalog.table e.2) = .ok ls ∧ label ∈ ls) →
      (found'.lookup label).isSome = true := by
  induction places generalizing found with
  | nil => exact ⟨found, rfl, fun label h ↦ h.resolve_right (by simp)⟩
  | cons e places ih =>
    rw [forall_mem_cons] at h
    obtain ⟨⟨ls, hls⟩, h⟩ := h
    obtain ⟨found', hfound, hknown⟩ := ih h (ls.foldl (fun fs l ↦ put l (w.fullId e.2) fs) found)
    refine ⟨found', ?_, fun label hlabel ↦ hknown label ?_⟩
    · rw [collect, Outcome.bind_ok_iff]
      exact ⟨ls, hls, hfound⟩
    · rcases hlabel with hlabel | ⟨e', he', ls', hls', hmem⟩
      · exact .inl (isSome_lookup_putAll (.inl hlabel))
      · rcases mem_cons.1 he' with rfl | he'
        · rw [hls] at hls'
          cases hls'
          exact .inl (isSome_lookup_putAll (.inr hmem))
        · exact .inr ⟨e', he', ls', hls', hmem⟩

end Collecting

/-- The table of a clause has given way to another one under its number: the clause has projected a grouping that was
projected once more. -/
def Workspace.Superseded (w : Workspace) (l : String) : Prop :=
  ∃ p q, (w.catalog.table p).Begins "Grouped and projected" ∧ (w.catalog.table p).Carries l ∧
    w.database.place? (w.catalog.table p).id = some q ∧ ¬ (w.catalog.table q).Carries l

section Sessions

variable {schema : Value} {w : Workspace}

/-- After any number of queries, all formulas of clauses are accounted for, and no grouping is left unprojected. -/
theorem Encodings.accounted (h : Encodings schema w) (htold : w.Told) :
    Accounted w ∧ ∀ e ∈ w.database.places, ¬ (w.catalog.table e.2).Begins "Grouped from" := by
  obtain ⟨_, _, _, _, v₀, v, hv, hroute⟩ := h.route
  have hstart := start_accounted hv
  refine ⟨(hroute Accounts Accounts.route).keeps htold hstart, fun e he hwaits ↦ ?_⟩
  have hclears := hroute Clears Clears.route
  obtain ⟨-, s, hs, -⟩ := hclears.back hstart.kept (start_holds.start hv).1 htold he hwaits
  rw [((start_unmade.start hv).2 e.2).1] at hs
  cases hs

/-- The table of each label is found, and every label of a clause has one. -/
theorem labels_found (h : Encodings schema w) (htold : w.Told) :
    ∃ found, tablesOfLabels w = .ok found ∧ ∀ l ∈ w.formulas.labels, ofClause l = true →
      "scan_".toList <+: l.toList ∨ w.Superseded l ∨ ∃ id, found.lookup (some l) = some id := by
  obtain ⟨hw, hnot⟩ := h.accounted htold
  have hlabels (e : Int × Nat) (he : e ∈ w.database.places) :=
    Table.labelsOf_ok (hw.complete e.2) (hnot e he) (hw.kept.unmade e.2)
  obtain ⟨found, hfound, hknown⟩ := collect_ok (fun e he ↦ (hlabels e he).imp fun _ h ↦ h.1) []
  refine ⟨found, hfound, fun l hl hclause ↦ ?_⟩
  refine (hw.clauses l hl (ofClause_iff.1 hclause)).imp_right fun ⟨p, hmade, hcarries⟩ ↦ ?_
  obtain ⟨q, hq, hid, hmade'⟩ := hw.kept.registered p hmade
  by_cases hcarried : (w.catalog.table q).Carries l
  · have he : ((w.catalog.table p).id, q) ∈ w.database.places := Formulas.mem_of_lookup hq
    obtain ⟨ls, hls, hmem⟩ := hlabels _ he
    exact .inr (Option.isSome_iff_exists.1 (hknown (some l) (.inr ⟨_, he, ls, hls, hmem hmade' l hcarried⟩)))
  · exact .inl ⟨p, q, (hw.agree p q hmade hmade' hid l hcarries).resolve_left hcarried, hcarries, hq, hcarried⟩

end Sessions

/-- After any number of queries, the table of each label is found. The formulas of a clause are under a label that is
found, and its table stands for no other. If the table is not sorted, all its choices are decided by these formulas, up
to those of outer joins and of joins of tables with negative bounds. The exceptions are the aliases of a table whose name
has a dollar sign, and clauses that project a grouping which is projected once more. -/
theorem clauses_known {schema : Value} {w : Workspace} (h : Encodings schema w) (htold : w.Told) :
    ∃ found, tablesOfLabels w = .ok found ∧ ∀ l ∈ w.formulas.labels, ofClause l = true →
      "scan_".toList <+: l.toList ∨ w.Superseded l ∨
      ∃ id, found.lookup (some l) = some id ∧ w.formulas.fullTable.lookup id = none ∧
        ∃ e ∈ w.database.places, w.fullId e.2 = id ∧ ((w.catalog.table e.2).Begins "Sorted" ∨
          ∃ place n m, w.database.place? id = some place ∧ choiceCount (w.catalog.table place) = .ok n ∧
            w.formulas.Decides l id m ∧
            (m = n ∨ ∃ q, (w.catalog.table q).id = id ∧ w.Spares (w.catalog.table q) m)) := by
  obtain ⟨found, hfound, hknown⟩ := labels_found h htold
  refine ⟨found, hfound, fun l hl hclause ↦ (hknown l hl hclause).imp_right (.imp_right fun ⟨id, hlookup⟩ ↦ ?_)⟩
  obtain ⟨e, he, rfl, ls, hls, hmem⟩ :=
    (mem_collect hfound (Formulas.mem_of_lookup hlookup)).resolve_left not_mem_nil
  refine ⟨_, hlookup, (h.accounted htold).1.lookup_fullId e.2, e, he, rfl, ?_⟩
  exact or_iff_not_imp_left.2 fun hsorted ↦ listed_decided h htold hls hmem hsorted

/-- `SELECT a FROM t GROUP BY a` -/
def selectGroups : Node :=
  .query 1 none (.project 2 [.column (.str "a") .null] .null) (.scan (.str "t") .null)
    .missing (.groupBy 3 [.column (.str "a") .null] .missing) .missing .null

def groupsEncoded : Workspace := (exec (Query.table selectGroups) { singleTableLoaded with currentQuery := .int 1 }).2

/-- The grouping and the projection in `SELECT a FROM t GROUP BY a` have one table. It has two choices, which the
formulas of the grouping decide. -/
theorem groupsEncoded_known : ∃ found, tablesOfLabels groupsEncoded = .ok found ∧
    found.lookup (some "project$2") = some 1 ∧ found.lookup (some "group_by$1") = some 1 ∧
    groupsEncoded.formulas.Decides "group_by$1" 1 2 := by
  have hquery : Gives (Query.table selectGroups) { singleTableLoaded with currentQuery := .int 1 } 2 groupsEncoded :=
    .of_toOption (by decide +kernel)
  obtain ⟨found, hfound, hknown⟩ := clauses_known (.query (.int 1) (.start singleTable_loads) hquery) (by decide +kernel)
  obtain rfl : found = [(some "project$2", 1), (some "group_by$1", 1)] := by
    have hlist : tablesOfLabels groupsEncoded = .ok [(some "project$2", 1), (some "group_by$1", 1)] :=
      Outcome.ok_of_toOption (by decide +kernel)
    exact Except.ok.inj (hfound.symm.trans hlist)
  refine ⟨_, hfound, by decide, by decide, ?_⟩
  rcases hknown "group_by$1" (by decide +kernel) (by decide +kernel) with hscan | ⟨p, q, hp, -, hplace, hcarries⟩ |
    ⟨id, hid, -, e, he, -, hsorted | ⟨place, n, m, hplace, hn, hm, hmn⟩⟩
  · exact absurd hscan (by decide)
  · -- The label is carried by the table that has taken it over from the grouping.
    have htable : ∀ p < groupsEncoded.catalog.tables.size, (groupsEncoded.catalog.table p).Begins
        "Grouped and projected" → groupsEncoded.database.place? (groupsEncoded.catalog.table p).id = some 2 := by
      decide +kernel
    have htwo : (groupsEncoded.catalog.table 2).Carries "group_by$1" := by decide +kernel
    obtain ⟨s, hs, -⟩ := id hp
    rw [htable p (lt_size_of_lineage hs) hp] at hplace
    cases hplace
    exact absurd htwo hcarries
  · have hnone : ∀ e ∈ groupsEncoded.database.places, ¬ (groupsEncoded.catalog.table e.2).Begins "Sorted" := by
      decide +kernel
    exact absurd hsorted (hnone e he)
  · cases hid
    obtain rfl : place = 2 := by
      have : groupsEncoded.database.place? 1 = some 2 := by decide +kernel
      simpa [this] using hplace.symm
    obtain rfl : n = 2 := by
      have : choiceCount (groupsEncoded.catalog.table 2) = .ok 2 := Outcome.ok_of_toOption (by decide +kernel)
      exact Except.ok.inj (hn.symm.trans this)
    rcases hmn with rfl | ⟨p, -, hspares⟩
    · exact hm
    · exact absurd hspares (Workspace.not_spares (by decide +kernel))

end QueryEquiv
