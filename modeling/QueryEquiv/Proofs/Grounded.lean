import QueryEquiv.Proofs.ChangesQueries

/-!
# The tables of the schema stay

However many queries are encoded, the tables of the schema come first among the tables that names are
looked up in, and they keep their names: the invariant `Grounded`. A step of a query makes a table with a
number of its own, and only such tables are ever renamed, as the lineage of a table shows which are. So every
part of the encoding of a regular query keeps the invariant (`Grounds.route`).

A result takes over the name of the table that it is made from. That has one, since it has rows.
-/

namespace QueryEquiv

open Node Catalog Workspace Operator

/-! ## The invariant -/

/-- The tables of a schema with the given names come first, and they have kept their names. -/
structure Grounded (names : List String) (w : Workspace) : Prop where
  registered : ∃ rest,
    w.database.places = (List.range names.length).map (fun i : Nat ↦ ((i : Int), i)) ++ rest
  size : names.length ≤ w.catalog.tables.size
  last : (names.length : Int) ≤ w.lastTable + 1
  base : ∀ i (hi : i < names.length), (w.catalog.table i).id = i ∧
    (w.catalog.table i).name = .str names[i] ∧ (w.catalog.table i).scope = .null
  /-- No step of a query made a table that has a number of the schema. -/
  unmade : ∀ p, (w.catalog.table p).id < names.length →
    (w.catalog.table p).lineage = none ∨ (w.catalog.table p).lineage = some scannedText
  /-- A table that has rows has a name, and so has every table that is known. -/
  named : ∀ p n, (w.catalog.table p).rows = .ok n → (w.catalog.table p).name.isString = true
  known : ∀ e ∈ w.database.places, (w.catalog.table e.2).name.isString = true

namespace Grounded

variable {names : List String} {w v : Workspace}

theorem le_of_made (h : Grounded names w) {p : Nat} (hmade : (w.catalog.table p).Made) : names.length ≤ p := by
  by_contra hlt
  have hid := (h.base p (by omega)).1
  obtain ⟨s, hs, hscan⟩ := hmade
  rcases h.unmade p (by omega) with hl | hl <;> rw [hl] at hs <;> cases hs
  exact hscan (by decide)

/-- Tables may be changed. Those of the schema keep their names, and whichever gets rows or another name has one. -/
theorem change (h : Grounded names w) (hsize : v.catalog.tables.size = w.catalog.tables.size)
    (hplaces : v.database.places = w.database.places) (hlast : w.lastTable ≤ v.lastTable)
    (hid : ∀ p, (v.catalog.table p).id = (w.catalog.table p).id)
    (hlineage : ∀ p, (v.catalog.table p).lineage = (w.catalog.table p).lineage ∨
      (w.catalog.table p).lineage = none ∧ (v.catalog.table p).lineage = some scannedText)
    (hnames : ∀ p, ((v.catalog.table p).name = (w.catalog.table p).name ∧
        (v.catalog.table p).scope = (w.catalog.table p).scope ∧ (v.catalog.table p).rows = (w.catalog.table p).rows) ∨
      names.length ≤ p ∧ (v.catalog.table p).name.isString = true) : Grounded names v where
  registered := hplaces ▸ h.registered
  size := hsize ▸ h.size
  last := h.last.trans (by omega)
  base i hi := by
    obtain ⟨hname, hscope, -⟩ := (hnames i).resolve_right fun h ↦ absurd h.1 (by omega)
    rw [hid, hname, hscope]
    exact h.base i hi
  unmade p hp := by
    rw [hid] at hp
    rcases hlineage p with hl | ⟨-, hl⟩
    · rw [hl]
      exact h.unmade p hp
    · exact .inr hl
  named p n hn := by
    rcases hnames p with ⟨hname, -, hrows⟩ | hname
    · rw [hname]
      exact h.named p n (hrows ▸ hn)
    · exact hname.2
  known e he := by
    rcases hnames e.2 with ⟨hname, -⟩ | hname
    · rw [hname]
      exact h.known e (hplaces ▸ he)
    · exact hname.2

theorem of_eq (h : Grounded names w) (ht : v.catalog.tables = w.catalog.tables)
    (hp : v.database.places = w.database.places) (hl : v.lastTable = w.lastTable) : Grounded names v := by
  have table (p : Nat) : v.catalog.table p = w.catalog.table p := table_congr ht p
  exact h.change (congrArg _ ht) hp hl.ge (fun p ↦ by rw [table]) (fun p ↦ .inl (by rw [table]))
    fun p ↦ .inl (by rw [table]; exact ⟨rfl, rfl, rfl⟩)

theorem calm (h : Grounded names w) (hc : Calm w v) : Grounded names v := by
  have kin (p : Nat) : (v.catalog.table p).Kin (w.catalog.table p) := by
    rcases lt_or_ge p w.catalog.tables.size with hp | hp
    · exact (hc.chain.kin hp).1
    · rw [table_of_size_le hp, table_of_size_le (hc.size ▸ hp)]
      exact .refl _
  exact h.change hc.size (hc.chain.places_eq hc.size) hc.chain.last_le (fun p ↦ (kin p).id) (fun p ↦ (kin p).lineage)
    fun p ↦ .inl ⟨(hc.names p).1, (hc.names p).2, (kin p).rows_eq⟩

/-- A table beyond those of the schema may be changed, as long as it has a name and its number and lineage stay. -/
theorem modify (h : Grounded names w) {place : Nat} (hp : names.length ≤ place) {f : Table → Table}
    (hid : ∀ t, (f t).id = t.id)
    (hlineage : ∀ t, (f t).lineage = t.lineage ∨ t.lineage = none ∧ (f t).lineage = some scannedText)
    (hname : (f (w.catalog.table place)).name.isString = true) :
    Grounded names { w with catalog := w.catalog.modify place f } := by
  refine h.change (size_modify f) rfl le_rfl (fun p ↦ ?_) (fun p ↦ ?_) fun p ↦ ?_ <;>
    rcases table_modify_or w.catalog place f p with hp | ⟨rfl, hp⟩ <;> dsimp only <;> rw [hp]
  · exact hid _
  · exact .inl rfl
  · exact hlineage _
  · exact .inl ⟨rfl, rfl, rfl⟩
  · exact .inr ⟨‹_›, hname⟩

/-- Tables may be added that have names and are none of the schema, or are copies of others. -/
theorem extend (h : Grounded names w) (hsize : w.catalog.tables.size ≤ v.catalog.tables.size)
    (hlast : w.lastTable ≤ v.lastTable) (old : ∀ q < w.catalog.tables.size, v.catalog.table q = w.catalog.table q)
    (tables : ∀ q, (∃ p, Like (v.catalog.table q) (w.catalog.table p)) ∨
      (names.length : Int) ≤ (v.catalog.table q).id ∧ (v.catalog.table q).name.isString = true)
    (hplaces : v.database.places = w.database.places ∨ ∃ id place, (names.length : Int) ≤ id ∧
      (v.catalog.table place).name.isString = true ∧ v.database.places = Database.put id place w.database.places) :
    Grounded names v where
  registered := by
    obtain ⟨rest, hrest⟩ := h.registered
    rcases hplaces with hplaces | ⟨id, place, hid, -, hplaces⟩ <;> rw [hplaces, hrest]
    · exact ⟨rest, rfl⟩
    · refine ⟨Database.put id place rest, Database.put_append fun e he ↦ ?_⟩
      obtain ⟨i, hi, rfl⟩ := List.mem_map.1 he
      have := List.mem_range.1 hi
      dsimp only
      omega
  size := h.size.trans hsize
  last := h.last.trans (by omega)
  base i hi := by
    rw [old i (hi.trans_le h.size)]
    exact h.base i hi
  unmade q hq := by
    rcases tables q with ⟨p, as, hp⟩ | ⟨hid, -⟩
    · rw [hp] at hq ⊢
      exact h.unmade p hq
    · exact absurd hq (by omega)
  named q n hn := by
    rcases tables q with ⟨p, as, hp⟩ | ⟨-, hname⟩
    · rw [hp] at hn ⊢
      exact h.named p n hn
    · exact hname
  known e he := by
    have before (he : e ∈ w.database.places) : (v.catalog.table e.2).name.isString = true := by
      have hname := h.known e he
      rcases lt_or_ge e.2 w.catalog.tables.size with hlt | hge
      · rwa [old e.2 hlt]
      · rw [table_of_size_le hge] at hname
        cases hname
    rcases hplaces with hplaces | ⟨id, place, -, hname, hplaces⟩ <;> rw [hplaces] at he
    · exact before he
    · rcases Database.mem_put he with rfl | he
      · exact hname
      · exact before he

theorem placed (h : Grounded names w) {place : Nat} {t : Table} (made : Placed w place t v)
    (hid : (names.length : Int) ≤ t.id) (hname : t.name.isString = true) : Grounded names v := by
  rw [← made.table] at hid hname
  refine h.extend made.chain.size_le made.chain.last_le made.old (fun q ↦ ?_)
    (.inr ⟨_, place, hid, hname, made.table ▸ made.places⟩)
  rcases eq_or_ne q place with rfl | hne
  · exact .inr ⟨hid, hname⟩
  · exact .inl (made.like q hne)

theorem cut (h : Grounded names w) {output : Nat} {cut : Option Nat} (hcut : Cut w output cut v)
    (hname : (w.catalog.table output).name.isString = true) : Grounded names v := by
  rcases hcut.split with ⟨-, rfl⟩ | ⟨hid, -, hplaces⟩
  · exact h
  · rw [← hcut.name] at hname
    refine h.extend hcut.chain.size_le hcut.chain.last_le hcut.old (fun q ↦ ?_) (.inr ⟨_, _, h.last, hname, hplaces⟩)
    rcases eq_or_ne q (cut.getD output) with rfl | hne
    · exact .inr ⟨hid ▸ h.last, hname⟩
    · exact .inl (hcut.like q hne)

end Grounded

/-! ## Names in regular trees -/

namespace Node

variable {n : Node}

theorem isString_byname (hn : n.fitting = true) (hne : n.byname ≠ .null) : n.byname.isString = true := by
  have of_name {a : Value} (ha : isName a = true) (hne : a ≠ .null) : a.isString = true := by
    cases a with
    | str => rfl
    | null => exact absurd rfl hne
    | _ => cases ha
  cases n with
  | query =>
    simp only [fitting, Bool.and_eq_true] at hn
    exact of_name hn.1.2 hne
  | union | scan => exact of_name hn hne
  | _ => exact absurd rfl hne

theorem Regular.makes (hn : n.Regular) (hs : n.isSelection = true) : n.Makes := by
  cases n with
  | query | union => exact ⟨hn.here, rfl⟩
  | _ => cases hs

theorem common_fitting (hn : n.fitting = true) {e : Value × Node} (he : e ∈ n.commons) :
    e.1.isString = true ∧ e.2.isSelection = true := by
  cases n with
  | query =>
    simp only [fitting, Bool.and_eq_true, List.all_eq_true] at hn
    exact hn.2 e he
  | _ => cases he

end Node

/-! ## Encoding -/

/-- A way from workspace to workspace on which the tables of the schema stay. -/
structure Grounds (names : List String) (w₀ w : Workspace) : Prop where
  chain : Chain w₀ w
  keeps : Grounded names w₀ → Grounded names w

namespace Grounds

variable {names : List String} {w w' : Workspace} {place out : Nat}

theorem passage : Passage (Grounds names) where
  chain h := h.chain
  trans h g := ⟨h.chain.trans g.chain, fun hw ↦ g.keeps (h.keeps hw)⟩
  calm h := ⟨h.chain, fun hw ↦ hw.calm h⟩

theorem applied {t : Table} {term : Term} {label : Option String} (h : Applied (Grounds names) w t term label out w')
    (hw : Grounded names w) (hid : (names.length : Int) ≤ t.id) (hname : t.name.isString = true) :
    Grounded names w' := by
  cases h with
  | intro made cutDown reads =>
    have hcut := (hw.placed made hid hname).cut cutDown (made.table ▸ hname)
    exact (reads.keeps hcut).of_eq rfl rfl rfl

theorem ordered (h : Ordered (Grounds names) w out w') (hw : Grounded names w) : Grounded names w' := by
  cases h with
  | intro id _ _ input h limited =>
    obtain ⟨p, n, hname, hn⟩ := input
    have hu := applied h hw (id ▸ hw.last) (hname ▸ hw.named p n hn)
    cases limited with
    | none => exact hu
    | some limit new _ _ rows =>
      obtain ⟨m, hm⟩ := rows
      exact hu.modify (f := ({ · with bound := limit })) (hw.size.trans new) (fun _ ↦ rfl) (fun _ ↦ .inl rfl)
        (hu.named out m hm)

/-- A table that was grouped is none of the schema. -/
theorem projection (h : GroupProjection (Grounds names) w place out w') (hw : Grounded names w) :
    Grounded names w' := by
  cases h with
  | intro grouped _ _ rows_eq _ h =>
    refine applied h hw ?_ (hw.named place _ rows_eq)
    by_contra hlt
    rcases hw.unmade place (not_le.1 hlt) with hl | hl <;> rw [Table.mentionsIfAny, hl] at grouped
    · cases grouped
    · exact absurd grouped (by decide)

theorem stage (h : Stage (Grounds names) w out w') : Grounds names w w' := by
  refine ⟨h.chain passage.walk, fun hw ↦ ?_⟩
  cases h with
  | filter rows_eq _ h => exact applied h hw hw.last (hw.named _ _ rows_eq)
  | join _ _ h => exact applied h hw hw.last rfl
  | union _ _ _ h => exact applied h hw hw.last rfl
  | distinct _ rows_eq _ h => exact applied h hw hw.last (hw.named _ _ rows_eq)
  | project _ _ h input_rows =>
    obtain ⟨m, hm⟩ := input_rows
    exact applied h hw hw.last (hw.named _ m hm)
  | projectGroups h => exact projection h hw
  | order h => exact ordered h hw

theorem grouping (h : Grouping (Grounds names) w place w') (hw : Grounded names w) : Grounded names w' := by
  cases h with
  | intro rows_eq _ made reads =>
    exact (reads.keeps (hw.placed made hw.last (hw.named _ _ rows_eq))).of_eq rfl rfl rfl

theorem share {m : Node} {n : Nat} {t : Table} {db : Database} {fs : Formulas} (h : Shares w place n t db fs)
    (hm : m.fitting = true) (hne : m.byname ≠ .null) (hname : t.name = m.byname) : Grounds names w
      { w with lastTable := w.lastTable + 1, catalog := (w.catalog.add t).2, database := db, formulas := fs } := by
  refine ⟨(Chain.refl w).step (.share h), fun hw ↦ ?_⟩
  have hself : (w.catalog.add t).2.table w.catalog.tables.size = t := table_add_self
  have hstring : t.name.isString = true := hname ▸ isString_byname hm hne
  refine hw.extend (by simp) (lt_add_one _).le (fun q hq ↦ table_add_of_lt hq) (fun q ↦ ?_)
    (.inr ⟨_, w.catalog.tables.size, hw.last, hself.symm ▸ hstring, h.places⟩)
  dsimp only
  rcases eq_or_ne q w.catalog.tables.size with rfl | hq
  · rw [hself]
    exact .inr ⟨h.kin.id ▸ hw.last, hstring⟩
  · rw [table_add_of_ne hq]
    exact .inl ⟨q, .refl _⟩

/-- What gets a name is none of the schema. -/
theorem rename {w₀ : Workspace} {name : Value} {f : Table → Table} (h : Grounds names w₀ w)
    (hentitled : Entitled (fun m ↦ m.fitting = true) w₀ w place name) (kin : ∀ t, (f t).Kin t)
    (origin : ∀ t, (f t).origin = t.origin) (hname : ∀ t, (f t).name = name) :
    Grounds names w₀ { w with catalog := w.catalog.modify place f } := by
  refine ⟨h.chain.step (.rename place kin (.inr origin)), fun hw₀ ↦ ?_⟩
  have hw := h.keeps hw₀
  obtain ⟨hplace, hstring⟩ : names.length ≤ place ∧ name.isString = true := by
    cases hentitled with
    | byname hn hne hmade => exact ⟨hw.le_of_made hmade, isString_byname hn hne⟩
    | common hn hmem he hnew =>
      obtain ⟨hstring, hselection⟩ := common_fitting hn hmem
      exact ⟨hw₀.size.trans (hnew (Regular.makes he hselection)), hstring⟩
  exact hw.modify hplace (fun t ↦ (kin t).id) (fun t ↦ (kin t).lineage) ((hname _).symm ▸ hstring)

theorem route (names : List String) : Route (Grounds names) fun m ↦ m.fitting = true where
  toPassage := passage
  innate := fitting_innate
  copy h := ⟨(Chain.refl _).step (.copy h), fun hw ↦
    hw.extend h.size le_rfl h.old (fun q ↦ .inl (h.like q)) (.inl rfl)⟩
  rename := rename
  share := share
  stage := stage
  grouped h g := ⟨(h.chain passage.walk).trans (g.chain passage.walk), fun hw ↦ projection g (grouping h hw)⟩

/-- Encoding a regular query leaves the tables of the schema in place, and its result is none of those that were there
before, unless it was only looked up. -/
theorem encode (names : List String) {depth r : Nat} {outer : Option Int} {n : Node} {hand hand' : Option Nat}
    (hn : n.Regular) (hg : Gives ((Query.encode (Query.nested depth) outer n).run hand) w (r, hand') w') :
    Grounds names w w' ∧ (n.Makes → w.catalog.tables.size ≤ r) :=
  ((route names).enduring w).encode_along ((route names).nested depth) (fun _ ↦ (route names).nested depth w)
    (fun _ ↦ True) outer n hn hand (passage.refl w) hg

end Grounds

end QueryEquiv
