import QueryEquiv.Value

/-!
# Integrity constraints

What a schema may demand of its tables, as the constraint language expresses it. An attribute is
named by its table and its column with a full stop between them.
-/

namespace QueryEquiv

inductive Constraint where
  /-- Every value of the first column occurs in the second. -/
  | reference (column target : String)
  /-- The values of a column lie between two bounds. -/
  | domain (column : String) (low high : Value)
  /-- The values of a column are among the given ones. -/
  | enumeration (column : String) (values : List Value)
  /-- Some value of a column lies between two bounds. -/
  | reachesRange (column : String) (low high : Value)
  /-- Some value of a column is among the given ones. -/
  | reaches (column : String) (values : List Value)
  | notNull (column : String)
  | comparison (op : String) (left right : Value)
  | distinct (columns : List Value)
  | increasing (columns : List Value)
  | decreasing (columns : List Value)
  | consecutive (columns : List Value)
  | override (column : String)
  | implication (left : Value) (op : String) (right left' : Value) (op' : String) (right' : Value)
  deriving Inhabited

namespace Constraint

/-- The tree of a constraint: an object with one entry, whose key names the kind. -/
def tree : Constraint → Value
  | reference c t => single "eq" [.str c, .str t]
  | domain c lo hi => single "domain" [.str c, lo, hi]
  | enumeration c vs => single "enum" [.str c, .list vs]
  | reachesRange c lo hi => single "inclusion" [single "from" [.str c, lo], single "to" [.str c, hi]]
  | reaches c vs => single "inclusion1" (vs.map fun v ↦ single "val" [.str c, v])
  | notNull c => .object [("not_null", .str c)]
  | comparison op l r => single op [l, r]
  | distinct cs => single "distinct" cs
  | increasing cs => single "inc" cs
  | decreasing cs => single "dec" cs
  | consecutive cs => single "consec" cs
  | override c => .object [("override", .str c)]
  | implication l o r l' o' r' =>
    single "if" [.object [("col1a", l)], .object [("comp1", .str o)], .object [("col1b", r)],
      .object [("col2a", l')], .object [("comp2", .str o')], .object [("col2b", r')]]
where
  single (key : String) (vs : List Value) : Value := .object [(key, .list vs)]

end Constraint

end QueryEquiv
