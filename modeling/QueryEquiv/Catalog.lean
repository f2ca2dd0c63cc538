import QueryEquiv.Table

/-!
# The catalog of tables

All tables that were ever made, each at its place. A table can be renamed later, and whoever refers
to its place sees the new name; a copy has a place of its own.

A look-up of a column is remembered together with the table that it was made in, and answered from
memory when it is repeated in the same table or in one that is equal to it. So a name goes on to be
found after the table was renamed.
-/

namespace QueryEquiv

/-- A look-up that succeeded. -/
structure Remembered where
  place : Nat
  item : Value
  column : Column

structure Catalog where
  tables : Array Table := #[]
  remembered : List Remembered := []

namespace Catalog

def table (c : Catalog) (place : Nat) : Table := c.tables.getD place default

def add (c : Catalog) (t : Table) : Nat × Catalog :=
  (c.tables.size, { c with tables := c.tables.push t })

def modify (c : Catalog) (place : Nat) (f : Table → Table) : Catalog :=
  { c with tables := c.tables.modify place f }

def forget (c : Catalog) : Catalog := { c with remembered := [] }

/-- Renames a table where it stands. Remembered look-ups in it give renamed columns. -/
def retitle (c : Catalog) (place : Nat) (name : Value) : Catalog :=
  { tables := c.tables.modify place (·.retitled name)
    remembered := c.remembered.map fun r ↦
      if r.place == place then { r with column := { r.column with table := name } } else r }

/-! ## Copies -/

/-- Copies of tables, made one for each place. -/
structure Copying where
  catalog : Catalog
  made : List (Nat × Nat) := []

/-- Copies what a table was made from, where `copy` copies a table. -/
def copyAncestors (copy : Nat → StateM Copying Nat) : List Ancestor → StateM Copying (List Ancestor)
  | [] => return []
  | .one p :: rest => do
    let q ← copy p
    return .one q :: (← copyAncestors copy rest)
  | .several ps :: rest => do
    let qs ← ps.mapM copy
    return .several qs :: (← copyAncestors copy rest)

def copyTable : Nat → Nat → StateM Copying Nat
  | 0, place => return place
  | fuel + 1, place => do
    let s ← get
    match s.made.lookup place with
    | some copy => return copy
    | none =>
      let t := s.catalog.table place
      let (copy, catalog) := s.catalog.add t
      set { s with catalog, made := (place, copy) :: s.made }
      let ancestors ← copyAncestors (copyTable fuel) t.ancestors
      modifyThe Copying fun s ↦ { s with catalog := s.catalog.modify copy ({ · with ancestors }) }
      return copy

/-- A copy of a table and of all tables that it was made from. -/
def copy (c : Catalog) (place : Nat) : Nat × Catalog :=
  let (copy, s) := (copyTable (c.tables.size + 1) place).run { catalog := c }
  (copy, s.catalog)

/-! ## Equality -/

mutual

def sameTable (c : Catalog) : Nat → Nat → Nat → Outcome Bool
  | 0, _, _ => .error .tooDeep
  | fuel + 1, p, q => do
    let t := c.table p
    let u := c.table q
    if ← t.mentions "Renamed from" then sameAncestors c fuel t.ancestors u.ancestors
    else
      return t.id == u.id && t.name.same u.name && t.columns.length == u.columns.length
        && (t.columns.zip u.columns).all fun (a, b) ↦ a.same b

def sameAncestors (c : Catalog) (fuel : Nat) : List Ancestor → List Ancestor → Outcome Bool
  | as, bs =>
    if as.length != bs.length then .ok false
    else sameEach c fuel as bs

def sameEach (c : Catalog) (fuel : Nat) : List Ancestor → List Ancestor → Outcome Bool
  | .one p :: as, .one q :: bs => do
    if p == q then sameEach c fuel as bs
    else if ← sameTable c fuel p q then sameEach c fuel as bs
    else return false
  | .several ps :: as, .several qs :: bs => do
    if ps.length != qs.length then return false
    else if ← samePairs c fuel ps qs then sameEach c fuel as bs
    else return false
  | [], [] => .ok true
  | _, _ => .ok false

def samePairs (c : Catalog) (fuel : Nat) : List Nat → List Nat → Outcome Bool
  | p :: ps, q :: qs => do
    if p == q then samePairs c fuel ps qs
    else if ← sameTable c fuel p q then samePairs c fuel ps qs
    else return false
  | _, _ => .ok true

end

/-- Whether two tables agree in number, name and columns; a renamed table is known by the tables it
comes from instead. A table without lineage cannot be compared. -/
def same (c : Catalog) (p q : Nat) : Outcome Bool := sameTable c 400 p q

/-! ## Look-ups -/

def recollect (c : Catalog) (place : Nat) (item : Value) : List Remembered → Outcome (Option Column)
  | [] => .ok none
  | r :: rs => do
    if (c.table r.place).id == (c.table place).id && r.item.same item then
      if r.place == place then return some r.column
      else if ← c.same r.place place then return some r.column
      else recollect c place item rs
    else recollect c place item rs

/-- The column of a table at a position or of a name, and the catalog that remembers it. -/
def lookup (c : Catalog) (place : Nat) (item : Value) : Outcome (Column × Catalog) := do
  if !item.isKey then .error .wrongKind
  else
    match ← recollect c place item c.remembered with
    | some column => return (column, c)
    | none =>
      let column ← (c.table place).column item
      return (column, { c with remembered := c.remembered ++ [⟨place, item, column⟩] })

end Catalog

end QueryEquiv
