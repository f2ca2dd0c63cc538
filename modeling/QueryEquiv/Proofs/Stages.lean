import QueryEquiv.Proofs.Changes
import QueryEquiv.Proofs.Conflicts
import QueryEquiv.Proofs.Groups

/-!
# The stages of an operator

Every operator makes its result, maybe cuts it down, reads what it needs, and adds a formula. Each of these
stages is a chain of changes. What an operator leaves behind is told by `Applied`: the table that it has
made, the table that gives the result, and the formula that was added.
-/

namespace QueryEquiv

open Node Database Keeps Catalog Gives List Workspace Expression Operator

variable {v : Workspace} {t : Table} {term : Term}

/-- Queries inside expressions are encoded along a walk if every node of them has a property. -/
def Passes (R : Workspace → Workspace → Prop) (φ : Node → Prop) (sub : Subquery) : Prop :=
  ∀ w₀ o n, Node.Everywhere φ n → Keeps (R w₀) (sub o n) fun _ ↦ True

/-- What only reads leaves the workspace alone. -/
theorem Keeps.unchanged {α : Type} {x : Encoding α} {Q : α → Prop} {w w' : Workspace} {a : α}
    (h : Keeps (· = w) x Q) (hg : Gives x w a w') : w' = w := (h rfl hg).1

namespace Catalog

variable {c : Catalog} {t : Table} {p q : Nat}

theorem table_add_of_ne (h : q ≠ c.tables.size) : (c.add t).2.table q = c.table q := by
  rcases lt_or_gt_of_ne h with h | h
  · exact table_add_of_lt h
  · rw [table_of_size_le h.le, table_of_size_le (by rw [size_add]; exact h)]

theorem modify_modify (c : Catalog) (p : Nat) (f g : Table → Table) :
    (c.modify p f).modify p g = c.modify p (g ∘ f) := by
  simp only [modify, mk.injEq, and_true]
  apply Array.ext
  · simp
  · intro i hi hi'
    simp only [Array.getElem_modify, Function.comp_apply]
    split <;> rfl

end Catalog

/-! ## New tables -/

/-- A table was made and got a place of its own. -/
structure Placed (w : Workspace) (place : Nat) (t : Table) (v : Workspace) : Prop where
  chain : Chain w v
  new : w.catalog.tables.size ≤ place
  entered : place < v.catalog.tables.size
  table : v.catalog.table place = t
  old : ∀ q < w.catalog.tables.size, v.catalog.table q = w.catalog.table q
  like : ∀ q ≠ place, ∃ p, Catalog.Like (v.catalog.table q) (w.catalog.table p)
  formulas : v.formulas = w.formulas
  places : v.database.places = Database.put t.id place w.database.places
  made : t.Made
  rows : ∃ n, t.rows = .ok n
  notes : SameNotes w v

theorem Placed.full {w : Workspace} {place : Nat} (h : Placed w place t v) :
    v.formulas.fullTable = w.formulas.fullTable := by
  rw [h.formulas]

section Making

variable {w v w' : Workspace} {place : Nat} {t : Table} {u : Unit}

/-- A table is entered behind the others and gets rows; then it has its place. -/
theorem entered_placed {u : Table} {c : Catalog} {db : Database} (hv : Chain w v)
    (htables : v.catalog.tables = w.catalog.tables) (hformulas : v.formulas = w.formulas)
    (hplaces : v.database.places = w.database.places) (hnotes : SameNotes w v)
    (hentered : v.catalog.tables.size < c.tables.size)
    (hother : ∀ q ≠ v.catalog.tables.size, c.table q = v.catalog.table q)
    (hadd : v.database.addTable v.catalog.tables.size t = (.ok (), db)) (hid : t.id = v.lastTable + 1)
    (hmade : t.Made) (hgrouped : t.Begins "Grouped from" → t.columns = [])
    (hcols : (∃ n, t.columns.map (·.id) = upTo n) ∨
      ∃ p, t.columns.map (·.id) = (v.catalog.table p).columns.map (·.id)) (hself : c.table v.catalog.tables.size = u)
    (htable : ∃ b, u.Kin { t with bound := b } ∧ (b = t.bound ∨ t.mentionsIfAny "Grouped" = false ∧
      ∃ n, u.rows = .ok n ∧ n ≤ (db.rowsOf t.id).size)) :
    Placed w v.catalog.tables.size u { v with lastTable := v.lastTable + 1, catalog := c, database := db } := by
  have henters : Enters v v.catalog.tables.size t c db :=
    { new := le_rfl
      entered := hentered
      old := fun q hq ↦ hother q hq.ne
      like := fun q hq ↦ ⟨q, by rw [hother q hq]; exact .refl _⟩
      added := hadd }
  rw [← hself] at htable
  obtain ⟨b, hkin, hb⟩ := htable
  exact
    { chain := hv.step (.make henters hid hmade hgrouped hcols ⟨b, hkin, hb⟩ (.inl rfl))
      new := hv.size_le
      entered := hentered
      table := hself
      old := fun q hq ↦ by rw [hother q (htables ▸ hq.ne), table_congr htables]
      like := fun q hq ↦ ⟨q, by rw [hother q hq, table_congr htables]; exact .refl _⟩
      formulas := hformulas
      places := by rw [← hself, hkin.id, ← hplaces]; exact (addTable_ok hadd).2
      made := hself ▸ hkin.made_iff.2 hmade
      rows := by
        rw [← hself]
        rcases hb with rfl | ⟨-, n, hn, -⟩
        · obtain ⟨⟨n, hn⟩, -⟩ := addTable_ok hadd
          exact ⟨n, hkin.rows_eq.trans hn⟩
        · exact ⟨n, hn⟩
      notes := { hnotes with } }

/-- The result of an operator gets its labels. -/
theorem Placed.relabel (h : Placed w place t v) {f : Table → Table}
    (hg : Gives (changeTable place f) v u w') (hf : ∀ t, (f t).Kin t) : Placed w place (f t) w' := by
  obtain rfl := changeTable_gives.1 hg
  exact
    { h with
      chain := h.chain.step (.rename place hf (.inl ⟨h.new, h.table ▸ h.made⟩))
      entered := (size_modify f).symm ▸ h.entered
      table := by rw [← h.table]; exact table_modify_self h.entered
      old := fun q hq ↦ (table_modify_of_ne (hq.trans_le h.new).ne').trans (h.old q hq)
      like := fun q hq ↦ by
        change ∃ p, Like ((v.catalog.modify place f).table q) (w.catalog.table p)
        rw [table_modify_of_ne hq.symm]
        exact h.like q hq
      places := (hf t).id.symm ▸ h.places
      made := (hf t).made_iff.2 h.made
      rows := (hf t).rows_eq.symm ▸ h.rows
      notes := { h.notes with } }

/-- It does not matter when clauses are noted. -/
theorem Placed.noted (h : Placed w place t v) (clauses : List (Nat × ClauseState)) :
    Placed { w with clauses } place t { v with clauses } where
  chain := by
    have hw : Chain { w with clauses } w := Chain.passage.note (.refl _) rfl rfl (fun _ ↦ rfl) rfl rfl
    exact Chain.passage.note (hw.trans h.chain) rfl rfl (fun _ ↦ rfl) rfl rfl
  notes := { h.notes with clauses := rfl }
  __ := h

/-- A table was made under a new number, and the database got its rows. -/
structure Added (w : Workspace) (place : Nat) (t : Table) (v : Workspace) : Prop extends Placed w place t v where
  id : t.id = w.lastTable + 1
  last : v.lastTable = w.lastTable + 1
  added : ∃ u : Table, u.id = t.id ∧ u.bound = t.bound ∧ u.columns.map (·.id) = t.columns.map (·.id) ∧
    w.database.addTable place u = (.ok (), v.database)

/-- A word is neither that of a scanned table nor that of a grouping. -/
def OtherWord (word : String) : Prop :=
  (¬ word.toList <+: "Scan".toList ∧ ¬ "Scan".toList <+: word.toList) ∧
    ¬ word.toList <+: "Grouped from".toList ∧ ¬ "Grouped from".toList <+: word.toList

instance (word : String) : Decidable (OtherWord word) := inferInstanceAs (Decidable (_ ∧ _))

/-- The result of an operator is made, and gets its labels. -/
theorem makeTable_added (hid : t.id = w.lastTable + 1) (hmade : t.Made)
    (hgrouped : t.Begins "Grouped from" → t.columns = []) (hcols : (∃ n, t.columns.map (·.id) = upTo n) ∨
      ∃ p, t.columns.map (·.id) = (w.catalog.table p).columns.map (·.id))
    (hmake : Gives (makeTable { t with origin := none }) { w with lastTable := w.lastTable + 1 } place v)
    (horigin : Gives (changeTable place ({ · with origin := t.origin })) v u w') : Added w place t w' := by
  simp only [makeTable, bind_iff, enter_gives, pure_iff, addTable_gives_iff] at hmake
  obtain ⟨_, _, ⟨rfl, rfl⟩, _, _, ⟨db, hadd, rfl⟩, rfl, rfl⟩ := hmake
  rw [table_add_self] at hadd
  have hplaced := entered_placed (.refl w) rfl rfl rfl (.of_formulas rfl rfl rfl rfl) (by simp)
    (fun q hq ↦ table_add_of_ne hq) hadd hid hmade
    hgrouped hcols table_add_self ⟨t.bound, .refl _, .inl rfl⟩
  refine ⟨hplaced.relabel horigin fun _ ↦ ⟨rfl, rfl, rfl, rfl, .inl rfl⟩, hid, ?_, { t with origin := none }, rfl, rfl, rfl, ?_⟩
  · rw [changeTable_gives.1 horigin]
  · rw [changeTable_gives.1 horigin]
    exact hadd

theorem added_of_begins {word : String} (hword : t.Begins word) (hapart : OtherWord word) (hid : t.id = w.lastTable + 1)
    (hcols : (∃ n, t.columns.map (·.id) = upTo n) ∨
      ∃ p, t.columns.map (·.id) = (w.catalog.table p).columns.map (·.id))
    (hmake : Gives (makeTable { t with origin := none }) { w with lastTable := w.lastTable + 1 } place v)
    (horigin : Gives (changeTable place ({ · with origin := t.origin })) v u w') : Added w place t w' :=
  makeTable_added hid (hword.made hapart.1.1 hapart.1.2)
    (fun h ↦ absurd h (hword.not_begins hapart.2.1 hapart.2.2)) hcols hmake horigin

/-- A table with columns counted from zero on gets cells of its own. -/
theorem Added.lies {width : Nat} (h : Added w place t v) (hcols : t.columns.map (·.id) = upTo width)
    (hfree : Unused w) :
    ∃ n, t.rows = .ok n ∧ Lies v place (Results.Shape.sheet ⟨t.id, n, upTo width⟩) ∧ Unused v := by
  obtain ⟨u, hid, hbound, hids, hadd⟩ := h.added
  obtain ⟨n, hn⟩ := h.rows
  have hrows : u.rows = .ok n := by rw [Table.rows, hbound]; exact hn
  have hnew : w.lastTable < u.id := by rw [hid, h.id]; exact lt_add_one _
  obtain ⟨db, hdb, hother, -, hcells⟩ := addTable_fresh place (hids.trans hcols) hrows (hfree _ hnew)
  obtain rfl : db = v.database := congrArg Prod.snd (hdb.symm.trans hadd)
  rw [hids, hcols, hid] at hcells
  refine ⟨n, hn, ⟨h.entered, h.id.trans_le h.last.ge, ?_, hcells⟩, fun id hlt ↦ ?_⟩
  · rw [h.table]
    exact Results.Shape.ofTable_ok_iff.2 ⟨rfl, hn, hcols⟩
  · rw [h.last] at hlt
    rw [hother id (by rw [hid, h.id]; exact hlt.ne'), hfree id (by omega)]

end Making

/-! ## Tables that stand for others -/

/-- The number of the table that the table at a place stands for. -/
def Workspace.fullId (w : Workspace) (place : Nat) : Int :=
  (w.formulas.fullTable.lookup (w.catalog.table place).id).getD (w.catalog.table place).id

/-- A result may be cut down to a smaller table, which then stands for it. -/
structure Cut (w : Workspace) (output : Nat) (cut : Option Nat) (w' : Workspace) : Prop where
  chain : Chain w w'
  entered : cut.getD output < w'.catalog.tables.size
  new : cut.getD output = output ∨ w.catalog.tables.size ≤ cut.getD output
  old : ∀ q < w.catalog.tables.size, w'.catalog.table q = w.catalog.table q
  name : (w'.catalog.table (cut.getD output)).name = (w.catalog.table output).name
  like : ∀ q ≠ cut.getD output, ∃ p, Catalog.Like (w'.catalog.table q) (w.catalog.table p)
  lineage : (w'.catalog.table (cut.getD output)).lineage = (w.catalog.table output).lineage
  origin : (w'.catalog.table (cut.getD output)).origin = (w.catalog.table output).origin
  full : w.formulas.fullTable.lookup (w.catalog.table output).id = none →
    w'.fullId (cut.getD output) = (w.catalog.table output).id
  split : cut = none ∧ w' = w ∨ (w'.catalog.table (cut.getD output)).id = w.lastTable + 1 ∧
    w'.formulas = { w.formulas with
      fullTable := Formulas.put (w.lastTable + 1) (w.catalog.table output).id w.formulas.fullTable } ∧
    w'.database.places = Database.put (w.lastTable + 1) (cut.getD output) w.database.places
  notes : SameNotes w w'

section Cutting

variable {w w' : Workspace} {output : Nat} {k : Value} {cut : Option Nat}

theorem Cut.none (h : output < w.catalog.tables.size) : Cut w output none w where
  chain := .refl w
  entered := h
  new := .inl rfl
  old _ _ := rfl
  name := rfl
  like q _ := ⟨q, .refl _⟩
  lineage := rfl
  origin := rfl
  full hfull := by rw [fullId, Option.getD_none, hfull]; rfl
  split := .inl ⟨rfl, rfl⟩
  notes := .of_formulas rfl rfl rfl rfl

/-- A copy of the result gets a number of its own and the bound that is wanted. -/
theorem Cut.some {c : Catalog} {db : Database} (hc : c = (w.catalog.copy output).2.modify w.catalog.tables.size
      fun t ↦ { t with id := w.lastTable + 1, bound := k })
    (hadd : w.database.addTable w.catalog.tables.size (c.table w.catalog.tables.size) = (.ok (), db))
    (hmade : (w.catalog.table output).Made) (hgrouped : ¬ (w.catalog.table output).Begins "Grouped from") :
    Cut w output (some w.catalog.tables.size) { w with
        lastTable := w.lastTable + 1, catalog := c, database := db
        formulas := { w.formulas with
            fullTable := Formulas.put (w.lastTable + 1) (w.catalog.table output).id w.formulas.fullTable } } := by
  have hplace := size_lt_copy w.catalog output
  have hcopied := copy_copied w.catalog output
  obtain ⟨as, hlike⟩ := copy_like w.catalog output
  have htable : c.table w.catalog.tables.size =
      { w.catalog.table output with id := w.lastTable + 1, bound := k, ancestors := as } := by
    rw [hc, table_modify_self hplace, hlike]
  have hother {q : Nat} (hq : q ≠ w.catalog.tables.size) : c.table q = (w.catalog.copy output).2.table q := by
    rw [hc]
    exact table_modify_of_ne hq.symm
  have henters : Enters w w.catalog.tables.size (c.table w.catalog.tables.size) c db :=
    { new := le_rfl
      entered := by rw [hc, size_modify]; exact hplace
      old := fun q hq ↦ (hother hq.ne).trans (hcopied.old q hq)
      like := fun q hq ↦ hother hq ▸ hcopied.like q
      added := hadd }
  have hgrouped' : ¬ (c.table w.catalog.tables.size).Begins "Grouped from" := by
    rw [htable]
    exact hgrouped
  exact
    { chain := by
        refine (Chain.refl w).step (.make henters (congrArg Table.id htable) ?_ (fun h ↦ absurd h hgrouped')
          (.inr ⟨output, ?_⟩) ⟨_, .refl _, .inl rfl⟩ (.inr ⟨hgrouped', (w.catalog.table output).id, ?_⟩)) <;> rw [htable]
        exact hmade
      entered := henters.entered
      new := .inr le_rfl
      old := henters.old
      name := by rw [Option.getD_some, htable]
      like := henters.like
      lineage := by rw [Option.getD_some, htable]
      origin := by rw [Option.getD_some, htable]
      full := fun _ ↦ by
        rw [fullId, Option.getD_some, htable, Formulas.lookup_put, if_pos (beq_self_eq_true _)]
        rfl
      split := by
        have hid : (c.table w.catalog.tables.size).id = w.lastTable + 1 := congrArg Table.id htable
        exact .inr ⟨hid, rfl, hid ▸ (addTable_ok hadd).2⟩
      notes := ⟨⟨rfl, rfl, rfl⟩, rfl, rfl, rfl⟩ }

theorem cutDown_cut (hg : Gives (cutDown output k) w cut w') (hout : output < w.catalog.tables.size)
    (hmade : (w.catalog.table output).Made) (hgrouped : ¬ (w.catalog.table output).Begins "Grouped from") :
    Cut w output cut w' := by
  obtain ⟨-, rfl, rfl⟩ | ⟨-, db, hadd, rfl, rfl⟩ := cutDown_gives_iff.1 hg
  · exact .none hout
  · exact .some rfl hadd hmade hgrouped

/-- A result that was just made may be cut down, unless it is a grouping. -/
theorem Placed.cutDown {word : String} (h : Placed w output t v) (hg : Gives (cutDown output k) v cut w')
    (hword : t.Begins word) (hapart : OtherWord word) : Cut v output cut w' :=
  cutDown_cut hg h.entered (h.table ▸ h.made) (h.table ▸ hword.not_begins hapart.2.1 hapart.2.2)

end Cutting

/-! ## Settling -/

section Settling

variable {w w' : Workspace} {output out : Nat} {cut : Option Nat} {k : Value} {label : Option String}
  {weight counts : Nat → Term} {cases others : List Term}

/-- A result is settled by one formula after another; the last of them has the cases of the operator and what else
it asks for. -/
theorem settle_passes {R : Workspace → Workspace → Prop} (hR : Walk R)
    (hg : Gives (settle output cut k label weight counts cases others) w out w') :
    out = cut.getD output ∧ ∃ u cs, R w u ∧
      w' = { u with formulas := u.formulas.append (.and (cases ++ cs ++ others)) label } := by
  cases cut with
  | none =>
    simp only [settle, bind_iff, Workspace.append, modify_iff, pure_iff] at hg
    obtain ⟨_, _, rfl, rfl, rfl⟩ := hg
    exact ⟨rfl, w, [], hR.refl w, by rw [append_nil]⟩
  | some cut =>
    simp only [settle, bind_iff, table_gives, lift_iff] at hg
    obtain ⟨_, _, ⟨rfl, rfl⟩, _, _, ⟨rfl, rfl⟩, rows, _, ⟨-, rfl⟩, slots, w, ⟨-, rfl⟩, _, v, hfits, copies, u,
      hcopies, _, _, happend, hg⟩ := hg
    obtain ⟨rfl, rfl⟩ := pure_iff.1 hg
    have hv := (hR.size _ _ (hR.refl w) hfits).1
    have hu := (compactionCopies_keeps hR.quiet _ _ _ _ hv hcopies).1
    exact ⟨rfl, u, _, hu, modify_iff.1 happend⟩

end Settling

/-! ## What operators leave behind -/

/-- A formula that leaves only one and zero for the first choices of a table. -/
def Term.Decides (id : Int) (count : Nat) (t : Term) : Prop :=
  ∀ I : Interpretation, I.Holds t → ∀ b < count, I.choice id (b : Nat) = 1 ∨ I.choice id (b : Nat) = 0

theorem decides_allDecided {ts : List Term} {id : Int} {count : Nat} (h : ∀ t ∈ allDecided id count, t ∈ ts) :
    (Term.and ts).Decides id count := by
  intro I hI b hb
  rw [Interpretation.holds_and] at hI
  exact Interpretation.holds_allDecided.1 (fun t ht ↦ hI t (h t ht)) b hb

/-- An operator has made a table, maybe cut it down, read what it needs along a walk, and added a formula. -/
inductive Applied (R : Workspace → Workspace → Prop) (w : Workspace) (t : Table) (term : Term)
    (label : Option String) : Nat → Workspace → Prop
  | intro {place : Nat} {v v₁ u : Workspace} {cut : Option Nat} (made : Placed w place t v)
      (cutDown : Cut v place cut v₁) (reads : R v₁ u) :
      Applied R w t term label (cut.getD place) { u with formulas := u.formulas.append term label }

/-- An operator has made a table, maybe cut it down, read what it needs along a walk, and settled the result. -/
inductive Settled (R : Workspace → Workspace → Prop) (w : Workspace) (t : Table) (k : Value) (label : Option String)
    (weight counts : Nat → Term) (cases others : List Term) : Nat → Workspace → Prop
  | intro {place out : Nat} {v v₁ u w' : Workspace} {cut : Option Nat} (made : Added w place t v)
      (cuts : Gives (cutDown place k) v cut v₁) (cutDown : Cut v place cut v₁) (reads : R v₁ u)
      (settles : Gives (settle place cut k label weight counts cases others) u out w') :
      Settled R w t k label weight counts cases others out w'

/-- A sorted table may have got a limit for its rows. -/
inductive Limited (w : Workspace) (place : Nat) (u : Workspace) : Workspace → Prop
  | none : Limited w place u u
  | some (limit : Value) (new : w.catalog.tables.size ≤ place) (entered : place < u.catalog.tables.size)
      (sorted : (u.catalog.table place).Begins "Sorted") (rows : ∃ n, (u.catalog.table place).rows = .ok n) :
      Limited w place u { u with catalog := u.catalog.modify place ({ · with bound := limit }) }

/-- A table has been sorted, maybe with a limit for its rows. -/
inductive Ordered (R : Workspace → Workspace → Prop) (w : Workspace) : Nat → Workspace → Prop
  | intro {place : Nat} {t : Table} {term : Term} {label : Option String} {u w' : Workspace}
      (id : t.id = w.lastTable + 1) (sorted : t.Begins "Sorted") (origin : ∃ o, t.origin = some o ∧ o.label = label)
      (input : ∃ p n, t.name = (w.catalog.table p).name ∧ (w.catalog.table p).rows = .ok n)
      (applied : Applied R w t term label place u) (limited : Limited w place u w') : Ordered R w place w'

section Operators

variable {R : Workspace → Workspace → Prop} (hR : Walk R) {φ : Node → Prop} {sub : Subquery}
  (hsub : Passes R φ sub) {w w' : Workspace} {out : Nat}

variable {label : Option String}

theorem Applied.new (h : Applied R w t term label out w') : w.catalog.tables.size ≤ out := by
  cases h with
  | intro made cutDown =>
    rcases cutDown.new with hout | hout
    · exact made.new.trans_eq hout.symm
    · exact made.chain.size_le.trans hout

theorem Ordered.new (h : Ordered R w out w') : w.catalog.tables.size ≤ out := by
  cases h with
  | intro _ _ _ _ applied => exact applied.new

theorem Limited.chain {place : Nat} {u : Workspace} (h : Limited w place u w') (hu : Chain w u) : Chain w w' := by
  cases h with
  | none => exact hu
  | some limit new _ sorted => exact hu.step (.limit limit new sorted)

theorem Applied.rows (h : Applied R w t term label out w') : ∃ n, t.rows = .ok n := by
  cases h with
  | intro made => exact made.rows

/-! ### Tables of results -/

variable {input : Nat} {label : Option String} {k : Value} {left right : Nat} {r : Join.Request} {origin : Origin}
  {inputs : List Nat}

def filteredTable (w : Workspace) (input : Nat) (label : Option String) (text : String) : Table :=
  { id := w.lastTable + 1
    name := (w.catalog.table input).name
    columns := (w.catalog.table input).columns
    bound := (w.catalog.table input).bound
    ancestors := [.one input]
    lineage := some s!"Filtered from T{(w.catalog.table input).id} ({text})"
    origin := some { label } }

theorem filteredTable_begins (input : Nat) (label : Option String) (text : String) :
    (filteredTable w input label text).Begins "Filtered from T" :=
  .of_append _ (by rw [filteredTable, String.append_assoc, String.append_assoc, String.append_assoc]; rfl)

theorem renumbered_ids (columns : List Column) : (Join.renumbered columns).map (·.id) = upTo columns.length := by
  rw [Join.renumbered, map_map, upTo, range_eq_range', ← zipIdx_map_snd, map_map]
  rfl

theorem length_pairs (m n : Nat) : (Join.Sides.pairs m n).length = m * n := by
  simp [Join.Sides.pairs]

def joinedTable (w : Workspace) (left right : Nat) (r : Join.Request) (bound : Value) (text : String) : Table :=
  { id := w.lastTable + 1
    name := .str s!"!{(w.catalog.table left).name.text}_JOIN_{(w.catalog.table right).name.text}!"
    columns := Join.renumbered ((w.catalog.table left).columns ++ (w.catalog.table right).columns)
    bound
    ancestors := [.one left, .one right]
    lineage := some
      s!"Joined from T{(w.catalog.table left).id} and T{(w.catalog.table right).id} on ({text})"
    origin := some { label := r.label } }

theorem joinedTable_begins (left right : Nat) (r : Join.Request) (bound : Value) (text : String) :
    (joinedTable w left right r bound text).Begins "Joined from T" :=
  .of_append _ (by simp only [joinedTable, String.append_assoc]; rfl)

/-- The table of a result without duplicates. -/
def distinctTable (w : Workspace) (input : Nat) (origin : Origin) : Table :=
  { id := w.lastTable + 1
    name := (w.catalog.table input).name
    columns := (w.catalog.table input).columns
    bound := (w.catalog.table input).bound
    ancestors := [.one input]
    lineage := some s!"Duplicate eliminated from T{(w.catalog.table input).id}"
    origin := some origin }

theorem distinctTable_begins (input : Nat) (origin : Origin) :
    (distinctTable w input origin).Begins "Duplicate eliminated from T" :=
  .of_append _ rfl

theorem length_takeOverAll {output : Int} {start : Nat} {ss : List Union.Source}
    (hg : Gives (Union.takeOverAll output start inputs) w ss w') :
    ∃ ns, Forall₂ (fun input n ↦ (w.catalog.table input).rows = .ok n) inputs ns ∧ ss.length = ns.sum := by
  have hquiet : Quiet fun v ↦ v.catalog.tables = w.catalog.tables :=
    { catalog := fun hv h ↦ h.trans hv
      touch := fun _ hv ↦ hv
      codes := fun _ hv ↦ hv
      approximations := fun _ hv ↦ hv
      subqueries := fun _ hv ↦ hv
      nextReader := fun _ hv ↦ hv }
  suffices ∀ v, v.catalog.tables = w.catalog.tables → ∀ start ss, Gives (Union.takeOverAll output start inputs) v ss w' →
      ∃ ns, Forall₂ (fun input n ↦ (w.catalog.table input).rows = .ok n) inputs ns ∧ ss.length = ns.sum from
    this w rfl start ss hg
  clear hg
  induction inputs with
  | nil =>
    intro v _ start ss hg
    obtain ⟨rfl, -⟩ := pure_iff.1 hg
    exact ⟨[], .nil, rfl⟩
  | cons input inputs ih =>
    intro v hv start ss hg
    simp only [Union.takeOverAll, bind_iff, pure_iff] at hg
    obtain ⟨sources, v₁, hhere, rest, v₂, hrest, rfl, rfl⟩ := hg
    have hv₁ := (takeOver_keeps hquiet _ _ _ hv hhere).1
    obtain ⟨ns, hns, hlength⟩ := ih v₁ hv₁ _ _ hrest
    simp only [Union.takeOver, bind_iff, table_gives, lift_iff] at hhere
    obtain ⟨_, _, ⟨rfl, rfl⟩, rows, _, ⟨hrows, rfl⟩, hhere⟩ := hhere
    rw [table_congr hv] at hrows
    refine ⟨rows :: ns, .cons hrows hns, ?_⟩
    rw [length_append, hlength, sum_cons, ← (forall₂_of_mapM hhere).length_eq, length_range]

theorem mapM_table_gives {ts : List Table} (hg : Gives (inputs.mapM table) w ts w') :
    ts = inputs.map w.catalog.table ∧ w' = w :=
  hg.unique (mapM_map fun _ _ ↦ table_gives.2 ⟨rfl, rfl⟩)

theorem foldlM_lift_gives {α β : Type} {f : β → α → Outcome β} {l : List α} {b c : β}
    (hg : Gives (l.foldlM (fun b a ↦ (liftM (f b a) : Encoding β)) b) w c w') : l.foldlM f b = .ok c ∧ w' = w := by
  induction l generalizing b with
  | nil =>
    obtain ⟨rfl, rfl⟩ := pure_iff.1 hg
    exact ⟨rfl, rfl⟩
  | cons a l ih =>
    rw [foldlM_cons, bind_iff] at hg
    obtain ⟨x, v, hx, hg⟩ := hg
    obtain ⟨hfx, rfl⟩ := lift_iff.1 hx
    obtain ⟨hl, rfl⟩ := ih hg
    exact ⟨by rw [foldlM_cons, Outcome.bind_ok_iff]; exact ⟨x, hfx, hl⟩, rfl⟩

def unionTable (w : Workspace) (inputs : List Nat) (origin : Origin) (name : String) (columns : List Column)
    (bound : Value) : Table :=
  { id := w.lastTable + 1
    name := .str name
    columns
    bound
    ancestors := [.several inputs]
    lineage := some ("Union of T" ++ ", ".intercalate ((inputs.map w.catalog.table).map fun t ↦ toString t.id))
    origin := some origin }

theorem unionTable_begins (inputs : List Nat) (origin : Origin) (name : String) (columns : List Column)
    (bound : Value) : (unionTable w inputs origin name columns bound).Begins "Union of T" :=
  .of_append _ rfl

def groupedTable (w : Workspace) (input : Nat) (label : Option String) (keys : List Node) : Table :=
  { id := w.lastTable + 1
    name := (w.catalog.table input).name
    bound := (w.catalog.table input).bound
    ancestors := [.one input]
    lineage := some s!"Grouped from T{(w.catalog.table input).id}"
    origin := some { label, keys := some keys } }

theorem groupedTable_begins (input : Nat) (label : Option String) (keys : List Node) :
    (groupedTable w input label keys).Begins "Grouped from T" :=
  .of_append _ rfl

/-- The table of a sorted result. -/
def orderedTable (w : Workspace) (input : Nat) (label : Option String) (keys : List Node) (bound : Value)
    (text : String) : Table :=
  { id := w.lastTable + 1
    name := (w.catalog.table input).name
    columns := (w.catalog.table input).columns
    bound
    ancestors := [.one input]
    lineage := some s!"Sorted from T{(w.catalog.table input).id} ({text})"
    origin := some { label, keys := some keys } }

theorem orderedTable_begins (input : Nat) (label : Option String) (keys : List Node) (bound : Value) (text : String) :
    (orderedTable w input label keys bound text).Begins "Sorted from T" :=
  .of_append _ (by rw [orderedTable, String.append_assoc, String.append_assoc, String.append_assoc]; rfl)

/-- The sides of a join after its result was made. -/
structure SidesOf (w : Workspace) (left right : Nat) (s : Join.Sides) : Prop where
  left : left < w.catalog.tables.size → s.left.Kin (w.catalog.table left)
  right : right < w.catalog.tables.size → s.right.Kin (w.catalog.table right)
  output : s.output.id = w.lastTable + 1

theorem sides_of {output : Nat} {cut : Option Nat} {v₁ v₂ : Workspace} {s : Join.Sides} (hmade : Added w output t v)
    (hcut : Cut v output cut v₁)
    (hg : Gives (Join.sides left right output) v₁ s v₂) : v₂ = v₁ ∧ SidesOf w left right s := by
  simp only [Join.sides, bind_iff, table_gives, pure_iff] at hg
  obtain ⟨_, _, ⟨rfl, rfl⟩, _, _, ⟨rfl, rfl⟩, _, _, ⟨rfl, rfl⟩, rfl, rfl⟩ := hg
  have hchain := hmade.chain.trans hcut.chain
  refine ⟨rfl, fun hl ↦ (hchain.kin hl).1, fun hr ↦ (hchain.kin hr).1, ?_⟩
  rw [(hcut.chain.kin hmade.entered).1.id, hmade.table, hmade.id]

/-- The numbers of rows of the sides of a join, as far as the sides were there before. -/
structure RowsOf (w : Workspace) (left right l r : Nat) : Prop where
  left : left < w.catalog.tables.size → (w.catalog.table left).rows = .ok l
  right : right < w.catalog.tables.size → (w.catalog.table right).rows = .ok r

theorem SidesOf.rows {l r : Nat} {s : Join.Sides} (h : SidesOf w left right s)
    (hl : s.left.rows = .ok l) (hr : s.right.rows = .ok r) : RowsOf w left right l r :=
  ⟨fun hp ↦ (h.left hp).rows_eq ▸ hl, fun hp ↦ (h.right hp).rows_eq ▸ hr⟩

section

include hR

theorem Settled.applied {k : Value} {weight counts : Nat → Term} {cases others : List Term}
    (h : Settled R w t k label weight counts cases others out w') {id : Int} {count : Nat}
    (hdecided : allDecided id count ⊆ others) : ∃ term, term.Decides id count ∧ Applied R w t term label out w' := by
  cases h with
  | intro made _ cutDown reads settles =>
    obtain ⟨rfl, u', cs, hsettled, rfl⟩ := settle_passes hR settles
    exact ⟨_, decides_allDecided fun t ht ↦ mem_append_right _ (hdecided ht),
      .intro made.toPlaced cutDown (hR.trans reads hsettled)⟩

theorem Applied.chain {label : Option String} (h : Applied R w t term label out w') : Chain w w' := by
  cases h with
  | intro made cutDown reads => exact ((made.chain.trans cutDown.chain).trans (hR.chain reads)).append term label

theorem Ordered.chain (h : Ordered R w out w') : Chain w w' := by
  cases h with
  | intro _ _ _ _ applied limited => exact limited.chain (applied.chain hR)

/-! ### Duplicates and unions -/

/-- A table without duplicates is made, its copies are read, and its formula is added. -/
theorem distinct_gives (hg : Gives (Distinct.apply input origin) w out w') :
    ∃ label rows copies v u, origin.distinct = some label ∧ (w.catalog.table input).rows = .ok rows ∧
      Gives ((List.range rows).mapM fun row ↦ copyRow (w.catalog.table input).id (w.lastTable + 1) row row
        ((w.catalog.table input).columns.map (·.id))) v copies u ∧
      Added w out (distinctTable w input origin) v ∧ R v u ∧
      w' = { u with formulas := u.formulas.append (Distinct.formula (w.catalog.table input).id (w.lastTable + 1)
        (w.catalog.table input).columns.length copies) label } := by
  simp only [Distinct.apply, bind_iff, table_gives, newTableId_gives, lift_iff] at hg
  obtain ⟨_, w, ⟨rfl, rfl⟩, _, _, ⟨rfl, rfl⟩, output, v, hmake, _, v₁, horigin, rows, _, ⟨hrows, rfl⟩, copies, u,
    hcopies, hg⟩ := hg
  have hword := distinctTable_begins (w := w) input origin
  have hmade := added_of_begins hword (by decide) rfl (.inr ⟨input, rfl⟩) hmake horigin
  have hpassed := (each (fun row _ ↦ copyRow_keeps hR.quiet _ _ _ _ _) (hR.refl _) hcopies).1
  rcases hlabel : origin.distinct with _ | label
  · simp [hlabel] at hg
  · simp only [hlabel, bind_iff, Workspace.append, modify_iff, pure_iff] at hg
    obtain ⟨_, _, rfl, rfl, rfl⟩ := hg
    exact ⟨label, rows, copies, _, u, rfl, hrows, hcopies, hmade, hpassed, rfl⟩

theorem distinct_applied (hg : Gives (Distinct.apply input origin) w out w') :
    ∃ label rows term, origin.distinct = some label ∧ (w.catalog.table input).rows = .ok rows ∧
      term.Decides (w.lastTable + 1) rows ∧ Applied R w (distinctTable w input origin) term label out w' := by
  obtain ⟨label, rows, copies, v, u, hlabel, hrows, hcopies, hmade, hpassed, rfl⟩ := distinct_gives hR hg
  refine ⟨label, rows, _, hlabel, hrows, decides_allDecided (fun t ht ↦ ?_),
    .intro hmade.toPlaced (.none hmade.entered) hpassed⟩
  rw [← (forall₂_of_mapM hcopies).length_eq, length_range]
  exact mem_append_right _ ht

theorem union_applied {keeps : Bool} (hg : Gives (Union.apply inputs origin keeps) w out w') :
    ∃ (name : String) (columns : List Column) (bound : Value) (ns : List Nat) (term : Term) (out₁ : Nat)
      (w₁ : Workspace),
      (inputs.map w.catalog.table).foldlM (fun (n : Value) t ↦ n.arith .add t.bound) (.int 0) = .ok bound ∧
      ((∀ p ∈ inputs, p < w.catalog.tables.size) →
        Forall₂ (fun input n ↦ (w.catalog.table input).rows = .ok n) inputs ns) ∧
      term.Decides (w.lastTable + 1) ns.sum ∧
      Applied R w (unionTable w inputs origin name columns bound) term origin.label out₁ w₁ ∧
      (if keeps then out = out₁ ∧ w' = w₁ else Gives (Distinct.apply out₁ origin) w₁ out w') := by
  simp only [Union.apply, bind_iff, newTableId_gives, lift_iff] at hg
  obtain ⟨_, _, ⟨rfl, rfl⟩, tables, _, htables, name, _, ⟨-, rfl⟩, bound, _, hfold, hg⟩ := hg
  obtain ⟨rfl, rfl⟩ := mapM_table_gives htables
  obtain ⟨hbound, rfl⟩ := foldlM_lift_gives hfold
  cases inputs with
  | nil => simp at hg
  | cons first inputs =>
    simp only [map_cons, pure_bind, bind_iff] at hg
    obtain ⟨output, v, hmake, _, v₁, horigin, sources, v₂, hsources, _, _, happend, hg⟩ := hg
    have hword := unionTable_begins (w := w) (first :: inputs) origin name (w.catalog.table first).columns bound
    have hmade := (added_of_begins hword (by decide) rfl (.inr ⟨first, rfl⟩) hmake horigin).toPlaced
    have hpassed := (takeOverAll_keeps hR.quiet _ _ _ (hR.refl _) hsources).1
    obtain ⟨ns, hns, hlength⟩ := length_takeOverAll hsources
    obtain rfl := modify_iff.1 happend
    refine ⟨name, _, bound, ns, Union.formula (w.lastTable + 1) sources, output, _, hbound, fun hin ↦ ?_,
      decides_allDecided (fun t ht ↦ ?_), .intro hmade (.none hmade.entered) hpassed, ?_⟩
    · refine ((forall₂_and_left _ _).2 ⟨hin, hns⟩).imp fun p n h ↦ ?_
      rw [← (hmade.chain.kin h.1).1.rows_eq]
      exact h.2
    · rw [hlength]
      exact mem_append_right _ ht
    · split at hg
      · rw [if_pos ‹_›]
        exact pure_iff.1 hg
      · rw [if_neg ‹_›]
        exact hg

end

section

include hR hsub

theorem filter_settled {predicate : Node} {outer : Option Int}
    (hp : predicate.Everywhere φ) (hg : Gives (Filter.apply sub input label predicate k outer) w out w') :
    ∃ (text : String) (rows : Nat) (filtered : List FilteredRow), (w.catalog.table input).rows = .ok rows ∧
      filtered.length = rows ∧
      Settled R w (filteredTable w input label text) k label (.choice (w.lastTable + 1) ·) (kept (w.lastTable + 1))
        (Filter.cases (w.catalog.table input).id (w.lastTable + 1) filtered) (allDecided (w.lastTable + 1) rows)
        out w' := by
  simp only [Filter.apply, bind_iff, table_gives, newTableId_gives, lift_iff] at hg
  obtain ⟨_, w, ⟨rfl, rfl⟩, _, _, ⟨rfl, rfl⟩, text, _, htext, output, v, hmake, _, v₁, horigin, cut, v₂, hcut,
    reader, v₃, hreader, rows, _, ⟨hrows, rfl⟩, filtered, u, hread, hsettle⟩ := hg
  obtain rfl := (textOf_keeps _).unchanged htext
  have hword := filteredTable_begins (w := w) input label text
  have hmade := added_of_begins hword (by decide) rfl (.inr ⟨input, rfl⟩) hmake horigin
  have hpassed := (hR.quiet.newReader_keeps (hR.refl _) hreader).1
  obtain ⟨hpassed, hlength⟩ := readRows_keeps hR.quiet everywhere_hereditary (hsub _) input _ hp outer reader _
    hpassed hread
  exact ⟨text, rows, filtered, hrows, by simpa using hlength,
    .intro hmade hcut (hmade.cutDown hcut hword (by decide)) hpassed hsettle⟩

theorem filter_applied {predicate : Node} {outer : Option Int}
    (hp : predicate.Everywhere φ) (hg : Gives (Filter.apply sub input label predicate k outer) w out w') :
    ∃ (text : String) (rows : Nat) (term : Term), (w.catalog.table input).rows = .ok rows ∧
      term.Decides (w.lastTable + 1) rows ∧ Applied R w (filteredTable w input label text) term label out w' := by
  obtain ⟨text, rows, _, hrows, -, h⟩ := filter_settled hR hsub hp hg
  obtain ⟨term, h⟩ := h.applied hR (List.Subset.refl _)
  exact ⟨text, rows, term, hrows, h⟩

/-! ### Joins -/

def JoinBound (w : Workspace) (left right : Nat) (r : Join.Request) (bound : Value) : Prop :=
  ∃ kind, Join.Kind.ofName r.kind = .ok kind ∧
    kind.bound (w.catalog.table left).bound (w.catalog.table right).bound = .ok bound

section Joins

variable (hφ : ∀ m : Node, m.tag? = none → m.isScan = false → φ m) (hr : r.cond.Everywhere φ)
include hφ hr

omit hR hsub in
theorem makeResult_made {x : Node × Nat × Option Nat} {w₁ : Workspace}
    (hg : Gives (Join.makeResult left right r k) w x w₁) :
    ∃ text bound v, x.1.Everywhere φ ∧ JoinBound w left right r bound ∧
      Added w x.2.1 (joinedTable w left right r bound text) v ∧ Gives (cutDown x.2.1 k) v x.2.2 w₁ ∧
      Cut v x.2.1 x.2.2 w₁ := by
  simp only [Join.makeResult, bind_iff, table_gives, newTableId_gives, lift_iff] at hg
  obtain ⟨_, _, ⟨rfl, rfl⟩, _, _, ⟨rfl, rfl⟩, cond, w, hcond, _, _, ⟨rfl, rfl⟩, kind, _, ⟨hkind, rfl⟩, bound, _,
    ⟨hbound, rfl⟩, text, _, htext, output, v, hmake, _, v₁, horigin, cut, _, hcut, hg⟩ := hg
  obtain ⟨rfl, rfl⟩ := pure_iff.1 hg
  have heverywhere := (joinCondition_keeps (P := fun _ ↦ True) hφ _ _ hr trivial hcond).2
  obtain rfl := (joinCondition_keeps hφ _ _ hr).unchanged hcond
  obtain rfl := (textOf_keeps _).unchanged htext
  have hword := joinedTable_begins (w := w) left right r bound text
  have hmade := added_of_begins hword (by decide) rfl (.inl ⟨_, renumbered_ids _⟩) hmake horigin
  exact ⟨text, bound, v₁, heverywhere, ⟨kind, hkind, hbound⟩, hmade, hcut, hmade.cutDown hcut hword (by decide)⟩

theorem pairwise_settled {conditional : Bool} (hg : Gives (Join.pairwise sub conditional left right r k) w out w') :
    ∃ text bound m n joined lid rid, JoinBound w left right r bound ∧ RowsOf w left right m n ∧
      joined.length = m * n ∧
      Settled R w (joinedTable w left right r bound text) k r.label (.choice (w.lastTable + 1) ·)
        (kept (w.lastTable + 1)) (Join.cases lid rid (w.lastTable + 1) joined) (allDecided (w.lastTable + 1) (m * n))
        out w' := by
  simp only [Join.pairwise, bind_iff, lift_iff] at hg
  obtain ⟨x, w₁, hmake, s, v₂, hsides, reader, v₁, hreader, m, _, ⟨hm, rfl⟩, n, _, ⟨hn, rfl⟩, joined, u, hread,
    hsettle⟩ := hg
  obtain ⟨text, bound, v, hcond, hbound, hmade, hgives, hcut⟩ := makeResult_made hφ hr hmake
  obtain ⟨rfl, hs⟩ := sides_of hmade hcut hsides
  have hpassed := (hR.quiet.newReader_keeps (hR.refl _) hreader).1
  obtain ⟨hpassed, hlength⟩ := readPairs_keeps hR.quiet s (readCondition_keeps hR.quiet
    everywhere_hereditary (hsub _) left right reader hcond conditional) _ _ hpassed hread
  rw [length_pairs] at hlength
  rw [hs.output, hlength] at hsettle
  exact ⟨text, bound, m, n, joined, _, _, hbound, hs.rows hm hn, hlength, .intro hmade hgives hcut hpassed hsettle⟩

theorem leftJoin_settled (hg : Gives (Join.leftJoin sub left right r k) w out w') :
    ∃ text bound m n cases more, JoinBound w left right r bound ∧ RowsOf w left right m n ∧
      Settled R w (joinedTable w left right r bound text) k r.label (presence (w.lastTable + 1))
        (present (w.lastTable + 1)) cases (allDecided (w.lastTable + 1) (m * n) ++ more) out w' := by
  simp only [Join.leftJoin, bind_iff, lift_iff] at hg
  obtain ⟨x, w₁, hmake, s, v₂, hsides, reader, v₁, hreader, m, _, ⟨hm, rfl⟩, n, _, ⟨hn, rfl⟩, joined, u₁, hread,
    more, u, hmore, hsettle⟩ := hg
  obtain ⟨text, bound, v, hcond, hbound, hmade, hgives, hcut⟩ := makeResult_made hφ hr hmake
  obtain ⟨rfl, hs⟩ := sides_of hmade hcut hsides
  have hpassed := (hR.quiet.newReader_keeps (hR.refl _) hreader).1
  obtain ⟨hpassed, hlength⟩ := readPairs_keeps hR.quiet s (readCondition_keeps hR.quiet
    everywhere_hereditary (hsub _) left right reader hcond true) _ _ hpassed hread
  rw [length_pairs] at hlength
  have hpassed := (extras_keeps hR.quiet s joined (List.range m) hpassed hmore).1
  rw [hs.output, hlength] at hsettle
  exact ⟨text, bound, m, n, _, more, hbound, hs.rows hm hn, .intro hmade hgives hcut hpassed hsettle⟩

theorem matching_applied {full : Bool} (hg : Gives (Matching.apply sub full left right r k) w out w') :
    ∃ text bound term, JoinBound w left right r bound ∧
      Applied R w (joinedTable w left right r bound text) term r.label out w' := by
  simp only [Matching.apply, bind_iff, lift_iff, get_iff] at hg
  obtain ⟨x, w₁, hmake, s, v₂, hsides, reader, v₁, hreader, _, _, ⟨rfl, rfl⟩, a, _, ⟨-, rfl⟩, b, _, ⟨-, rfl⟩, c, _,
    ⟨-, rfl⟩, bs, u, hbranches, _, _, happend, hg⟩ := hg
  obtain ⟨rfl, rfl⟩ := pure_iff.1 hg
  obtain rfl := modify_iff.1 happend
  obtain ⟨text, bound, v, hcond, hbound, hmade, -, hcut⟩ := makeResult_made hφ hr hmake
  obtain ⟨rfl, hs⟩ := sides_of hmade hcut hsides
  have hpassed := (hR.quiet.newReader_keeps (hR.refl _) hreader).1
  have hpassed := (branches_keeps hR.quiet s (fun i j ↦
    pairTruth_keeps hR.quiet everywhere_hereditary (hsub _) left right i j reader hcond) _ _ _ hpassed hbranches).1
  exact ⟨text, bound, _, hbound, .intro hmade.toPlaced hcut hpassed⟩

end Joins

/-! ### Groups and sorting -/

/-- A grouping makes its table, reads the keys and the condition along a walk, and adds its formula. -/
theorem groupBy_placed {keys : List Node} {having : Node}
    {targets : Option (List Node)} (hk : ∀ k ∈ keys, k.Everywhere φ) (hh : having.Everywhere φ)
    (ht : ∀ ts, targets = some ts → ∀ t ∈ ts, t.Everywhere φ)
    (hg : Gives (GroupBy.apply sub input label keys having targets) w out w') :
    ∃ ts rows K H v u, targets = some ts ∧ (w.catalog.table input).rows = .ok rows ∧
      GroupReadings sub input out keys having ts rows K H ∧ Added w out (groupedTable w input label keys) v ∧ R v u ∧
      w' = { u with
        formulas := u.formulas.append (GroupBy.formula (w.catalog.table input).id (w.lastTable + 1) K H) label } := by
  simp only [GroupBy.apply, bind_iff, table_gives, newTableId_gives] at hg
  obtain ⟨_, w, ⟨rfl, rfl⟩, _, _, ⟨rfl, rfl⟩, output, v, hmake, _, v₁, horigin, hg⟩ := hg
  have hmade := makeTable_added rfl ((groupedTable_begins input label keys).made)
    (fun _ ↦ rfl) (.inl ⟨0, rfl⟩) hmake horigin
  cases targets with
  | none => simp at hg
  | some ts =>
    simp only [pure_bind, bind_iff, lift_iff, changeTable_gives, Workspace.append, modify_iff, pure_iff] at hg
    obtain ⟨reader, v₂, hreader, memo, v₃, hmemo, rows, _, ⟨hrows, rfl⟩, K, v₄, hK, H, v₅, hH, _, _, rfl, _, _, rfl,
      rfl, rfl⟩ := hg
    have hpassed := (hR.quiet.newReader_keeps (hR.refl v₁) hreader).1
    have hpassed := (hR.quiet.newReader_keeps hpassed hmemo).1
    have hpassed := (mapM (fun row _ ↦ readKeys_keeps hR.quiet everywhere_hereditary (hsub _) .always input
      (ht ts rfl) reader row hk) hpassed hK).1
    have hcond (group : Nat) : Guards (R v₁)
        (if having.isMissing then pure (Reading.certain .top)
          else Expression.inGroup sub ⟨out, input, group, some ts⟩ true memo having) := by
      split
      · exact .pure trivial
      · exact (inGroup_keeps (p := fun _ ↦ True) hR.quiet .always everywhere_hereditary (hsub _)
          (fun _ _ _ ↦ trivial) _ ht _ _ hh).imp fun _ _ ↦ trivial
    have hpassed := (mapM (fun group _ ↦ hcond group) hpassed hH).1
    have hpassed := hR.mark out hpassed (f := fun t ↦ { t with groups := .list [(w.catalog.table input).bound] })
      (fun _ ↦ ⟨rfl, rfl, rfl, rfl, .inl rfl⟩) (fun _ ↦ rfl) fun _ ↦ ⟨rfl, rfl⟩
    exact ⟨ts, rows, K, H, _, _, rfl, hrows,
      ⟨⟨reader, forall₂_of_mapM hK⟩, ⟨memo, forall₂_of_mapM hH⟩⟩, hmade, hpassed, rfl⟩

theorem orderBy_applied {keys : List Node} {orders : List Value} {limit : Value} (hk : ∀ k ∈ keys, k.Everywhere φ)
    (hg : Gives (OrderBy.apply sub input label keys orders limit k) w out w') :
    ∃ text rows term u, (w.catalog.table input).rows = .ok rows ∧
      Applied R w (orderedTable w input label keys k text) term label out u ∧ Limited w out u w' := by
  have hz : ∀ x ∈ keys.zipIdx, x.1.Everywhere φ := fun x hx ↦ hk _ (fst_mem_of_mem_zipIdx hx)
  simp only [OrderBy.apply, bind_iff, table_gives, newTableId_gives, lift_iff] at hg
  obtain ⟨_, w, ⟨rfl, rfl⟩, _, _, ⟨rfl, rfl⟩, text, _, htext, output, v, hmake, _, v₁, horigin, reader, v₂, hreader,
    rows, _, ⟨hrows, rfl⟩, _, v₃, hsize, hg⟩ := hg
  obtain rfl := (textOf_keeps _).unchanged htext
  have hword := orderedTable_begins (w := w) input label keys k text
  have hmade := (added_of_begins hword (by decide) rfl (.inr ⟨input, rfl⟩) hmake horigin).toPlaced
  have hpassed := (hR.quiet.newReader_keeps (hR.refl v₁) hreader).1
  have hpassed := (hR.size _ _ hpassed hsize).1
  have positions : Guards (R v₁) (if (rows == 0) = true then pure 0 else liftM (OrderBy.upTo k)) := by
    split
    · exact .pure trivial
    · exact outcome _
  refine ⟨text, rows, (positions.branchThen (T := fun out w' ↦ ∃ term u, _ ∧ Applied R w _ term _ out u ∧
      Limited w out u w') fun positions _ ↦ (flatMapM (S := fun _ ↦ True) fun row _ ↦
    mapM fun position _ ↦ caseAt_keeps hR.quiet everywhere_hereditary (hsub _) input _ hz orders
      reader rows row position).andThen fun cases _ ↦ (table_keeps _).andThen fun _ _ ↦
    (outcome _).andThen fun slots _ ↦ ?_) hpassed hg⟩
  intro u out u' hu hg
  have applied (term : Term) : Applied R w (orderedTable w input label keys k text) term label output
      { u with formulas := u.formulas.append term label } := .intro hmade (.none hmade.entered) hu
  split at hg
  · simp only [bind_iff, Workspace.append, modify_iff, pure_iff] at hg
    obtain ⟨_, _, rfl, rfl, rfl⟩ := hg
    exact ⟨_, _, hrows, applied _, .none⟩
  · simp only [bind_iff, Workspace.append, changeTable_gives, modify_iff, pure_iff] at hg
    obtain ⟨_, _, rfl, _, _, rfl, rfl, rfl⟩ := hg
    have hrest := hR.chain hu
    have hkin := (hrest.kin hmade.entered).1
    rw [hmade.table] at hkin
    exact ⟨_, _, hrows, applied _, .some _ hmade.new (hmade.entered.trans_le hrest.size_le)
      (hkin.begins (hword.of_prefix)) (hmade.rows.imp fun n hn ↦ hkin.rows_eq.trans hn)⟩

end

end Operators

end QueryEquiv
