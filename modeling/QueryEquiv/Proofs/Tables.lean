import QueryEquiv.Proofs.Running

/-!
# Tables and their places

How the catalog and the database change: a table that is added has a place of its own, a change at a
place is seen there only, and a copy brings copies of the tables that it was made from, each of them a
table that was there except for what it says it was made from.
-/

namespace QueryEquiv

open Gives List

variable {t : Table} {d : Catalog} {f : Table → Table} {place : Nat} {u : Unit}

theorem Table.rows_eq_ok {n : Nat} : t.rows = .ok n ↔ ∃ i, t.bound.integer? = some i ∧ n = i.toNat := by
  unfold rows
  cases t.bound with
  | int i => simp [Value.integer?, eq_comm]
  | bool b => cases b <;> simp [Value.integer?, eq_comm]
  | _ => simp [Value.integer?]

namespace Catalog

variable {c : Catalog} {p q : Nat} {t : Table}

theorem table_of_size_le (h : c.tables.size ≤ p) : c.table p = default := by
  simp [table, Array.getD, Nat.not_lt.2 h]

theorem table_congr (h : c.tables = d.tables) (place : Nat) : c.table place = d.table place := by
  rw [table, table, h]

theorem table_add_of_lt (h : p < c.tables.size) : (c.add t).2.table p = c.table p := by
  simp [table, add, Array.getD, Array.getElem_push, h, Nat.lt_succ_of_lt h]

@[simp] theorem table_add_self : (c.add t).2.table c.tables.size = t := by
  simp [table, add, Array.getD]

@[simp] theorem size_add : (c.add t).2.tables.size = c.tables.size + 1 := Array.size_push _

@[simp] theorem size_modify (f : Table → Table) : (c.modify p f).tables.size = c.tables.size :=
  Array.size_modify

theorem table_modify_of_ne (h : p ≠ q) : (c.modify p f).table q = c.table q := by
  unfold table modify Array.getD
  simp only [Array.size_modify]
  split
  · simp [Array.getElem_modify, h]
  · rfl

theorem table_modify_self (h : p < c.tables.size) : (c.modify p f).table p = f (c.table p) := by
  simp [table, modify, Array.getD, h, Array.getElem_modify]

theorem table_modify_or (c : Catalog) (p : Nat) (f : Table → Table) (q : Nat) :
    (c.modify p f).table q = c.table q ∨ p = q ∧ (c.modify p f).table q = f (c.table q) := by
  rcases eq_or_ne p q with rfl | hne
  · rcases lt_or_ge p c.tables.size with hlt | hge
    · exact .inr ⟨rfl, table_modify_self hlt⟩
    · rw [table_of_size_le hge, table_of_size_le (by rw [size_modify]; exact hge)]
      exact .inl rfl
  · exact .inl (table_modify_of_ne hne)

/-! ## Copies -/

/-- A table is another one, except for what it says it was made from. -/
def Like (t u : Table) : Prop := ∃ ancestors, t = { u with ancestors }

theorem Like.refl (t : Table) : Like t t := ⟨t.ancestors, rfl⟩

theorem Like.trans {u v : Table} (h : Like t u) (g : Like u v) : Like t v := by
  obtain ⟨as, rfl⟩ := h
  obtain ⟨bs, rfl⟩ := g
  exact ⟨as, rfl⟩

/-- A catalog with copies of its tables added. -/
structure Copied (c c' : Catalog) : Prop where
  size : c.tables.size ≤ c'.tables.size
  remembered : c'.remembered = c.remembered
  old : ∀ q < c.tables.size, c'.table q = c.table q
  like : ∀ q, ∃ p, Like (c'.table q) (c.table p)

theorem Copied.refl (c : Catalog) : Copied c c :=
  ⟨le_rfl, rfl, fun _ _ ↦ rfl, fun q ↦ ⟨q, .refl _⟩⟩

theorem Copied.trans {c e : Catalog} (h : Copied c d) (g : Copied d e) : Copied c e where
  size := h.size.trans g.size
  remembered := g.remembered.trans h.remembered
  old q hq := (g.old q (hq.trans_le h.size)).trans (h.old q hq)
  like q := by
    obtain ⟨r, hr⟩ := g.like q
    obtain ⟨p, hp⟩ := h.like r
    exact ⟨p, hr.trans hp⟩

theorem Copied.add (c : Catalog) (p : Nat) : Copied c (c.add (c.table p)).2 where
  size := by simp
  remembered := rfl
  old q hq := table_add_of_lt hq
  like q := by
    rcases Nat.lt_trichotomy q c.tables.size with h | rfl | h
    · exact ⟨q, by rw [table_add_of_lt h]; exact .refl _⟩
    · exact ⟨p, by rw [table_add_self]; exact .refl _⟩
    · refine ⟨c.tables.size, ?_⟩
      rw [table_of_size_le (by simpa [Nat.succ_le_iff] using h), table_of_size_le le_rfl]
      exact .refl _

/-- What a copy was made from may be changed where the copy was added. -/
theorem Copied.modify {c : Catalog} (h : Copied c d) {p : Nat} (hp : c.tables.size ≤ p)
    (as : List Ancestor) : Copied c (d.modify p ({ · with ancestors := as })) where
  size := h.size.trans_eq (size_modify _).symm
  remembered := h.remembered
  old q hq := by rw [table_modify_of_ne (hq.trans_le hp).ne', h.old q hq]
  like q := by
    by_cases hpq : p = q
    · subst hpq
      obtain ⟨r, hr⟩ := h.like p
      by_cases hlt : p < d.tables.size
      · exact ⟨r, by rw [table_modify_self hlt]; exact Like.trans ⟨as, rfl⟩ hr⟩
      · refine ⟨c.tables.size, ?_⟩
        rw [table_of_size_le (by simpa using hlt), table_of_size_le le_rfl]
        exact .refl _
    · rw [table_modify_of_ne hpq]
      exact h.like q

section Copying

variable {copy : Nat → StateM Copying Nat}
  (hcopy : ∀ p s, Copied s.catalog ((copy p).run s).2.catalog)

include hcopy

theorem mapM_copied (ps : List Nat) (s : Copying) : Copied s.catalog ((ps.mapM copy).run s).2.catalog := by
  induction ps generalizing s with
  | nil => exact .refl s.catalog
  | cons p ps ih =>
    rw [mapM_cons]
    exact (hcopy p s).trans (ih ((copy p).run s).2)

theorem copyAncestors_copied (as : List Ancestor) (s : Copying) :
    Copied s.catalog ((copyAncestors copy as).run s).2.catalog := by
  induction as generalizing s with
  | nil => exact .refl s.catalog
  | cons a rest ih =>
    cases a with
    | one p => exact (hcopy p s).trans (ih ((copy p).run s).2)
    | several ps => exact (mapM_copied hcopy ps s).trans (ih ((ps.mapM copy).run s).2)

end Copying

theorem copyTable_copied (fuel place : Nat) (s : Copying) :
    Copied s.catalog ((copyTable fuel place).run s).2.catalog := by
  induction fuel generalizing place s with
  | zero => exact .refl s.catalog
  | succ fuel ih =>
    unfold copyTable
    rcases hm : s.made.lookup place with _ | copy
    · have hadd := Copied.add s.catalog place
      have hrest := copyAncestors_copied ih (s.catalog.table place).ancestors
        { s with catalog := (s.catalog.add (s.catalog.table place)).2
                 made := (place, s.catalog.tables.size) :: s.made }
      have := (hadd.trans hrest).modify (le_refl s.catalog.tables.size)
        ((copyAncestors (copyTable fuel) (s.catalog.table place).ancestors).run
          { s with catalog := (s.catalog.add (s.catalog.table place)).2
                   made := (place, s.catalog.tables.size) :: s.made }).1
      simp only [StateT.run_bind, StateT.run_get, pure_bind, hm]
      exact this
    · simp only [StateT.run_bind, StateT.run_get, pure_bind, hm]
      exact .refl s.catalog

theorem copy_copied (c : Catalog) (p : Nat) : Copied c (c.copy p).2 :=
  copyTable_copied (c.tables.size + 1) p { catalog := c }

/-- What copying a table that was not copied yet comes to: its copy stands at the next place, and gets the copies of
what it was made from. -/
theorem copyTable_new {fuel : Nat} {s : Copying} (hm : s.made.lookup place = none) :
    (copyTable (fuel + 1) place).run s =
      let copied := (copyAncestors (copyTable fuel) (s.catalog.table place).ancestors).run
        { s with catalog := (s.catalog.add (s.catalog.table place)).2
                 made := (place, s.catalog.tables.size) :: s.made }
      (s.catalog.tables.size, { copied.2 with
        catalog := copied.2.catalog.modify s.catalog.tables.size ({ · with ancestors := copied.1 }) }) := by
  rw [copyTable]
  simp only [StateT.run_bind, StateT.run_get, pure_bind, hm]
  rfl

/-- A copy is the table that it is a copy of, except for what it says it was made from. -/
theorem copyTable_like {fuel : Nat} {s : Copying} (hm : s.made.lookup place = none) :
    s.catalog.tables.size < ((copyTable (fuel + 1) place).run s).2.catalog.tables.size ∧
      Like (((copyTable (fuel + 1) place).run s).2.catalog.table s.catalog.tables.size) (s.catalog.table place) := by
  have h := copyAncestors_copied (copyTable_copied fuel) (s.catalog.table place).ancestors
    { s with catalog := (s.catalog.add (s.catalog.table place)).2, made := (place, s.catalog.tables.size) :: s.made }
  have hlt : s.catalog.tables.size < (s.catalog.add (s.catalog.table place)).2.tables.size := by simp
  rw [copyTable_new hm]
  set copied := (copyAncestors (copyTable fuel) (s.catalog.table place).ancestors).run
    { s with catalog := (s.catalog.add (s.catalog.table place)).2, made := (place, s.catalog.tables.size) :: s.made }
  refine ⟨(hlt.trans_le h.size).trans_eq (size_modify _).symm, copied.1, ?_⟩
  refine (table_modify_self (hlt.trans_le h.size)).trans ?_
  rw [h.old _ hlt, table_add_self]

theorem copy_place (c : Catalog) (p : Nat) : (c.copy p).1 = c.tables.size := by
  rw [copy, copyTable_new (s := { catalog := c }) rfl]

theorem copy_like (c : Catalog) (p : Nat) : Like ((c.copy p).2.table c.tables.size) (c.table p) :=
  (copyTable_like (s := { catalog := c }) rfl).2

theorem size_lt_copy (c : Catalog) (p : Nat) : c.tables.size < (c.copy p).2.tables.size :=
  (copyTable_like (s := { catalog := c }) rfl).1

/-- A copy of a table that was made from one other comes with a copy of that. -/
theorem copy_ancestor (c : Catalog) {p q : Nat} (hp : p < c.tables.size) (hq : q < c.tables.size) (hpq : p ≠ q)
    (h : (c.table p).ancestors = [.one q]) :
    ((c.copy p).2.table c.tables.size).ancestors = [.one (c.tables.size + 1)] ∧
      c.tables.size + 1 < (c.copy p).2.tables.size ∧ Like ((c.copy p).2.table (c.tables.size + 1)) (c.table q) := by
  obtain ⟨fuel, hfuel⟩ := Nat.exists_eq_succ_of_ne_zero (Nat.pos_iff_ne_zero.1 (Nat.zero_lt_of_lt hp))
  -- The copy of the table is noted before the other table is copied.
  set s : Copying := { catalog := (c.add (c.table p)).2, made := [(p, c.tables.size)] }
  have hm : s.made.lookup q = none := by
    rw [lookup_cons, beq_false_of_ne hpq.symm]
    rfl
  have hsize : s.catalog.tables.size = c.tables.size + 1 := size_add
  have hplace : ((copyTable c.tables.size q).run s).1 = c.tables.size + 1 := by
    rw [hfuel, copyTable_new hm]
    exact hsize.trans (congrArg (· + 1) hfuel)
  have hrun : (copyAncestors (copyTable c.tables.size) [.one q]).run s =
      ([.one (c.tables.size + 1)], ((copyTable c.tables.size q).run s).2) := by
    rw [← hplace]
    rfl
  have hcopy : (c.copy p).2 = ((copyTable c.tables.size q).run s).2.catalog.modify c.tables.size
      ({ · with ancestors := [.one (c.tables.size + 1)] }) := by
    rw [copy, copyTable_new (s := { catalog := c }) rfl, h, hrun]
  obtain ⟨hlt, hlike⟩ : c.tables.size + 1 < ((copyTable c.tables.size q).run s).2.catalog.tables.size ∧
      Like (((copyTable c.tables.size q).run s).2.catalog.table (c.tables.size + 1)) (s.catalog.table q) := by
    rw [← hsize, hfuel]
    exact copyTable_like hm
  rw [hcopy, table_modify_self (Nat.lt_of_succ_lt hlt), table_modify_of_ne (Nat.ne_of_lt (Nat.lt_succ_self _)),
    size_modify]
  exact ⟨rfl, hlt, by rwa [table_add_of_lt hq] at hlike⟩

end Catalog

/-! ## The database -/

namespace Database

variable {α : Type} {k : Int} {a : α}

/-- A new key goes behind keys that are other ones. -/
theorem put_append {l m : List (Int × α)} (h : ∀ e ∈ l, e.1 ≠ k) : put k a (l ++ m) = l ++ put k a m := by
  induction l with
  | nil => rfl
  | cons e l ih =>
    rw [forall_mem_cons] at h
    rw [cons_append, put, if_neg (by simpa using h.1), ih h.2, cons_append]

@[simp] theorem places_touch (db : Database) (t : Int) : (db.touch t).places = db.places := by
  unfold touch
  split <;> rfl

theorem places_addRows (t : Table) (n row : Nat) (db : Database) : (addRows t n row db).2.places = db.places := by
  induction n generalizing row db with
  | zero => rfl
  | succ n ih =>
    unfold addRows
    split
    · rfl
    · rw [ih]
      split <;> rfl

/-- The size of a table is asked for. -/
abbrev sizing (db : Database) (id : Int) : Database :=
  { db with sized := if db.sized.contains id then db.sized else db.sized ++ [id] }

variable {db db' : Database} {place : Nat} {t : Table}

theorem addTable_iff : db.addTable place t = (.ok (), db') ↔ ∃ n db₁, t.rows = .ok n ∧
    addRows t n 0 (db.sizing t.id) = (.ok (), db₁) ∧ db' = { db₁ with places := put t.id place db₁.places } := by
  unfold addTable
  cases t.rows with
  | error f => simp
  | ok n =>
    dsimp only
    split <;> rename_i h <;> simp [h, eq_comm]

theorem addTable_ok (h : db.addTable place t = (.ok (), db')) :
    (∃ n, t.rows = .ok n) ∧ db'.places = put t.id place db.places := by
  obtain ⟨n, db₁, hn, hadd, rfl⟩ := addTable_iff.1 h
  have hplaces := places_addRows t n 0 (db.sizing t.id)
  rw [hadd] at hplaces
  exact ⟨⟨n, hn⟩, congrArg (put t.id place) hplaces⟩

end Database

/-! ## Steps that make tables -/

namespace Workspace

variable {w w' : Workspace}

theorem newTableId_gives {id : Int} :
    Gives newTableId w id w' ↔ id = w.lastTable + 1 ∧ w' = { w with lastTable := w.lastTable + 1 } := by
  simp [-bind_pure_comp, newTableId, bind_iff, and_comm]

theorem table_gives : Gives (table place) w t w' ↔ t = w.catalog.table place ∧ w' = w := by
  simp [-bind_pure_comp, table, bind_iff, and_comm]

theorem enter_gives : Gives (enter t) w place w' ↔
      place = w.catalog.tables.size ∧ w' = { w with catalog := (w.catalog.add t).2 } := by
  simp [-bind_pure_comp, enter, bind_iff, Catalog.add, and_comm]

theorem changeTable_gives : Gives (changeTable place f) w u w' ↔ w' = { w with catalog := w.catalog.modify place f } :=
  modify_iff

theorem copyTable_gives {copy : Nat} : Gives (copyTable place) w copy w' ↔
      copy = w.catalog.tables.size ∧ w' = { w with catalog := (w.catalog.copy place).2 } := by
  simp [-bind_pure_comp, copyTable, bind_iff, Catalog.copy_place, and_comm]

theorem clause_gives {tag : Nat} {c : ClauseState} :
    Gives (clause tag) w c w' ↔ c = (w.clauses.lookup tag).getD {} ∧ w' = w := by
  simp [-bind_pure_comp, clause, bind_iff, and_comm]

theorem addTable_gives_iff :
    Gives (addTable place) w u w' ↔ ∃ db, w.database.addTable place (w.catalog.table place) = (.ok (), db) ∧
      w' = { w with database := db } := by
  simp only [addTable, bind_iff, get_iff]
  constructor
  · rintro ⟨_, w₀, ⟨rfl, rfl⟩, _, v, hv, h⟩
    rcases hr : w₀.database.addTable place (w₀.catalog.table place) with ⟨r, db⟩
    rw [hr] at hv h
    obtain rfl := set_iff.1 hv
    rcases r with e | ⟨⟩
    · exact absurd h not_throw
    · exact ⟨db, rfl, (pure_iff.1 h).2⟩
  · rintro ⟨db, hdb, rfl⟩
    refine ⟨w, w, ⟨rfl, rfl⟩, ⟨⟩, _, set_iff.2 rfl, ?_⟩
    rw [hdb]
    exact pure_iff.2 ⟨rfl, rfl⟩

theorem addTable_gives (h : Gives (addTable place) w u w') : (∃ n, (w.catalog.table place).rows = .ok n) ∧
      ∃ db : Database, w' = { w with database := db } ∧
        db.places = Database.put (w.catalog.table place).id place w.database.places := by
  obtain ⟨db, hdb, rfl⟩ := addTable_gives_iff.1 h
  obtain ⟨rows, places⟩ := Database.addTable_ok hdb
  exact ⟨rows, db, rfl, places⟩

end Workspace

end QueryEquiv
