import QueryEquiv.Proofs.Membership
import QueryEquiv.Proofs.ScalarQueries

/-!
# Tests of subqueries

A tuple is looked for in the table of a subquery, or it is asked whether the table has a row at all. The tests are
read off the rows of the table here: as records, where a null is no value. None of them is ever null, since what is
not known counts as false (`subquery_tests`).

A test that some row is such and such is a disjunction over the rows. Where a table has no rows, not even deleted
ones, it depends on what a disjunction of nothing is taken for.
-/

namespace QueryEquiv

open Reading Outcome Gives List Workspace Expression Operator Results

namespace Sql

theorem isTrue_compare_eq {a b : Option Int} : IsTrue (compare .eq a b) ↔ a = b ∧ a ≠ none := by
  cases a with
  | none => simp [compare, IsTrue]
  | some m =>
    cases b with
    | none => simp [compare, IsTrue]
    | some n =>
      change (m == n).toInt ≠ 0 ↔ _
      simp [Interpretation.toInt_ne_zero, -ne_eq]
      simp

theorem compare_eq_some_zero_iff {a b : Option Int} :
    compare .eq a b = some 0 ↔ ∃ m n, a = some m ∧ b = some n ∧ m ≠ n := by
  have hzero (b : Bool) : b.toInt = 0 ↔ b = false := by cases b <;> decide
  cases a with
  | none => simp [compare]
  | some m =>
    cases b with
    | none => simp [compare]
    | some n => simp [compare, Comparison.holds, hzero]

theorem forall_isTrue_compare_iff {xs ys : List (Option Int)} (h : xs.length = ys.length) :
    (∀ p ∈ xs.zip ys, IsTrue (compare .eq p.1 p.2)) ↔ xs = ys ∧ none ∉ xs := by
  induction xs generalizing ys with
  | nil => simp [length_eq_zero_iff.1 h.symm]
  | cons x xs ih =>
    obtain ⟨y, ys, rfl⟩ := exists_cons_of_length_eq_add_one h.symm
    rw [zip_cons_cons, forall_mem_cons, ih (Nat.succ.inj h), isTrue_compare_eq]
    simp only [List.cons.injEq, mem_cons, not_or]
    tauto

end Sql

/-- Two tuples are known to differ if they have different values in a column where neither is null. -/
def Record.Differs (xs ys : Record) : Prop := ∃ m n, m ≠ n ∧ (some m, some n) ∈ xs.zip ys

namespace Interpretation

variable {I : Interpretation} {s : Shape} {ls : List Reading}

/-- The members of a tuple beside the values of a row. -/
theorem read_zip (hcols : s.columns = upTo ls.length) (i : Nat) :
    (ls.zip (firstColumns s.id i ls.length)).map (Prod.map I.read I.read) = (ls.map I.read).zip (I.record s i) := by
  have hread : (firstColumns s.id i ls.length).map I.read = I.record s i := by
    rw [record, hcols, upTo, firstColumns, map_map, map_map]
    refine map_congr_left fun c _ ↦ ?_
    simp [read, held]
  rw [← zip_map, hread]

/-- A tuple is known to be a row if both have the same values, and no null is among them. -/
theorem sameRow_iff_record (hcols : s.columns = upTo ls.length) (i : Nat) :
    I.sameRow s.id ls i = some 1 ↔ ls.map I.read = I.record s i ∧ none ∉ ls.map I.read := by
  rw [sameRow_eq_some_one_iff, ← Sql.forall_isTrue_compare_iff (by simp [record, hcols]), ← read_zip hcols,
    forall_mem_map]
  rfl

theorem differs_iff_record (hcols : s.columns = upTo ls.length) (i : Nat) :
    I.sameRow s.id ls i = some 0 ↔ Record.Differs (ls.map I.read) (I.record s i) := by
  rw [sameRow_eq_some_zero_iff, Record.Differs, ← read_zip hcols]
  simp only [Sql.compare_eq_some_zero_iff, mem_map, Prod.map, Prod.mk.injEq]
  constructor
  · rintro ⟨p, hp, m, n, hm, hn, hne⟩
    exact ⟨m, n, hne, p, hp, hm, hn⟩
  · rintro ⟨m, n, hne, p, hp, hm, hn⟩
    exact ⟨p, hp, m, n, hm, hn, hne⟩

theorem mem_bag {v : Record} : v ∈ I.bag s ↔ ∃ i < s.rows, I.deleted s.id i = false ∧ I.record s i = v := by
  simp [bag, mem_rowsThere, and_assoc]

/-- A tuple is in the rows if it is a record of the table and has no null. -/
theorem inRows_iff_mem (hcols : s.columns = upTo ls.length) :
    I.inRows s.id s.rows ls = some 1 ↔ ls.map I.read ∈ I.bag s ∧ none ∉ ls.map I.read := by
  simp only [inRows_eq_some_one_iff, mem_bag, sameRow_iff_record hcols]
  constructor
  · rintro ⟨i, hi, hthere, hsame, hnull⟩
    exact ⟨⟨i, hi, hthere, hsame.symm⟩, hnull⟩
  · rintro ⟨⟨i, hi, hthere, hsame⟩, hnull⟩
    exact ⟨i, hi, hthere, hsame.symm, hnull⟩

/-- A tuple is not in the rows if it is known to differ from every record of the table. -/
theorem inRows_iff_differs (hcols : s.columns = upTo ls.length) :
    I.inRows s.id s.rows ls = some 0 ↔ ∀ v ∈ I.bag s, Record.Differs (ls.map I.read) v := by
  simp only [inRows_eq_some_zero_iff, mem_bag, differs_iff_record hcols]
  constructor
  · rintro h _ ⟨i, hi, hthere, rfl⟩
    exact h i hi hthere
  · exact fun h i hi hthere ↦ h _ ⟨i, hi, hthere, rfl⟩

theorem bag_eq_zero_iff : I.bag s = 0 ↔ ∀ i < s.rows, I.deleted s.id i = true := by
  rw [bag, Multiset.map_eq_zero, Multiset.coe_eq_zero, eq_nil_iff_forall_not_mem]
  simp [mem_rowsThere]

/-- Whether a table has no row, or has one, which is never null. -/
theorem holds_noRow : ¬ I.Holds (noRow s.id s.rows).2 ∧ (I.Holds (noRow s.id s.rows).1 ↔ I.bag s = 0) := by
  refine ⟨I.not_holds_bot, ?_⟩
  simp [noRow, certain, bag_eq_zero_iff]

theorem holds_anyRow : ¬ I.Holds (someRow s.id s.rows).2 ∧
    (I.Holds (someRow s.id s.rows).1 ↔ I.bag s ≠ 0 ∨ (s.rows = 0 ∧ I.emptyOr = true)) := by
  refine ⟨I.not_holds_bot, ?_⟩
  simp [someRow, certain, holds_or, bag_eq_zero_iff]

/-- A tuple of terms can be compared with the rows of a table. -/
theorem inTable_ok (t : Int) (n : Nat) (h : ∀ l ∈ ls, l.1.isPlain = false) : ∃ a, inTable t n ls = .ok a := by
  refine exists_ok_bind_pure.2 (mapM_ok_iff.2 fun i _ ↦ exists_ok_bind_pure.2 ?_)
  exact (compareRow_ok_iff .eq fun p c ↦ .and [.and [.not p.1.2, .not p.2.2], c]).2
    fun p hp ↦ h p.1 (of_mem_zip hp).1

end Interpretation

namespace Expression

variable {r : Reader} {members : Node → Encoding Nat} {w : Workspace} {x y : Node}

theorem nullness_gives {negated : Bool} {place n : Nat} {w' : Workspace} (hy : y.isQuery = true)
    (hplace : Gives (members y) w place w') (hn : (w'.catalog.table place).rows = .ok n) :
    Gives (nullness members negated (arguments r [y])) w
      (if negated then someRow (w'.catalog.table place).id n else noRow (w'.catalog.table place).id n) w' := by
  simp only [nullness, arguments, argument, getElem?_cons_zero, pure_bind, hy, if_true, bind_iff, table_gives,
    lift_iff, pure_iff]
  exact ⟨place, w', hplace, _, _, ⟨rfl, rfl⟩, n, _, ⟨hn, rfl⟩, rfl, rfl⟩

/-- The tests of the table of a subquery, where `x` is read as a tuple `ls` as wide as the table. `x IN y` is true just
if the tuple is a row that is there and has no null, and `x NOT IN y` just if the tuple is known to differ from every
row that is there. `EXISTS y` is true just if a row is there, and `y IS NULL` just if none is. But `IN` and `EXISTS` are
also true of a table without any rows, if a disjunction of nothing is. -/
theorem subquery_tests {rows : Encoding Nat} (hr : r.function = rowFunction members rows) (hx : Side x)
    (hy : y.isQuery = true) (byname : Value) :
    (∀ (negated : Bool) t n ls w', ReadRows r members x y w t n ls w' → (∀ l ∈ ls, l.1.isPlain = false) →
      t.columns.map (·.id) = upTo ls.length →
      ∃ a, Gives (encode r (.expression (.str (if negated then "nin" else "in")) [x, y] byname)) w a w' ∧
        ∀ I : Interpretation, ¬ I.Holds a.2 ∧ (I.Holds a.1 ↔
          if negated then ∀ v ∈ I.bag ⟨t.id, n, t.columns.map (·.id)⟩, Record.Differs (ls.map I.read) v
          else (ls.map I.read ∈ I.bag ⟨t.id, n, t.columns.map (·.id)⟩ ∧ none ∉ ls.map I.read) ∨
            (n = 0 ∧ I.emptyOr = true))) ∧
    ∀ (negated : Bool) place n w', Gives (members y) w place w' → (w'.catalog.table place).rows = .ok n →
      ∃ a, Gives (encode r (.expression (.str (if negated then "is_not_null" else "is_null")) [y] byname)) w a w' ∧
        ∀ I : Interpretation, ¬ I.Holds a.2 ∧ (I.Holds a.1 ↔
          let rows := I.bag ⟨(w'.catalog.table place).id, n, (w'.catalog.table place).columns.map (·.id)⟩
          if negated then rows ≠ 0 ∨ (n = 0 ∧ I.emptyOr = true) else rows = 0) := by
  refine ⟨fun negated t n ls w' hread hplain hcols ↦ ?_, fun negated place n w' hplace hn ↦ ?_⟩
  · have hencode : encode r (.expression (.str (if negated then "nin" else "in")) [x, y] byname) =
        membership members negated (arguments r [x, y]) := by
      cases negated <;> (rw [encode, if_neg (by decide), hr]; rfl)
    obtain ⟨b, hb⟩ := Interpretation.inTable_ok t.id n hplain
    rw [hencode]
    cases negated with
    | false =>
      refine ⟨b, membership_gives_iff.2 (.inr ⟨t, n, ls, hread, hb⟩), fun I ↦ ?_⟩
      obtain ⟨hnull, hiff⟩ := I.holds_inTable hb
      exact ⟨hnull, hiff.trans (or_congr_left (I.inRows_iff_mem (s := ⟨t.id, n, _⟩) hcols))⟩
    | true =>
      obtain ⟨a, ha⟩ := Interpretation.notInTable_ok_iff.2 ⟨b, hb⟩
      refine ⟨a, membership_gives_iff.2 (.inr ⟨t, n, ls, hread, ha⟩), fun I ↦ ?_⟩
      obtain ⟨hnull, hiff⟩ := I.holds_notInTable (hread.ne_nil hx) ha
      exact ⟨hnull, hiff.trans (I.inRows_iff_differs (s := ⟨t.id, n, _⟩) hcols)⟩
  · have hencode : encode r (.expression (.str (if negated then "is_not_null" else "is_null")) [y] byname) =
        nullness members negated (arguments r [y]) := by
      cases negated <;> (rw [encode, if_neg (by decide), hr]; rfl)
    rw [hencode]
    refine ⟨_, nullness_gives hy hplace hn, fun I ↦ ?_⟩
    cases negated with
    | false => exact I.holds_noRow (s := ⟨_, n, _⟩)
    | true => exact I.holds_anyRow (s := ⟨_, n, _⟩)

/-- The readings of a table of one column with two rows, at its first row. -/
def firstRow : Reader := atRow (Query.nested 3) 0 0 none none 0 200

/-- The table of `SELECT a FROM t`. -/
def columnRows : Encoding Nat := subqueryTable (Query.nested 3) 0 selectColumn

/-- `a NOT IN (SELECT a FROM t)` is read as a test of the two rows. -/
theorem columnRows_tests : ∃ a w' l,
    Gives (encode firstRow (.expression (.str "nin") [.attr "a", selectColumn] .null)) twoRowsLoaded a w' ∧
    ∀ I : Interpretation, ¬ I.Holds a.2 ∧ (I.Holds a.1 ↔ ∀ v ∈ I.bag ⟨1, 2, [0]⟩, Record.Differs [I.read l] v) := by
  obtain ⟨v, hv⟩ : ∃ v, v = (exec columnRows twoRowsLoaded).2 := ⟨_, rfl⟩
  have hplace : Gives columnRows twoRowsLoaded 2 v := hv ▸ .of_toOption (by decide +kernel)
  have hrows : (v.catalog.table 2).rows.toOption = some 2 ∧ (v.catalog.table 2).id = 1 ∧
      (v.catalog.table 2).columns.map (·.id) = [0] := hv ▸ by decide +kernel
  have hcell : (exec (encode firstRow (.attr "a")) v).1.toOption.any (fun l ↦ !l.1.isPlain) := hv ▸ by decide +kernel
  obtain ⟨l, hl, hplain⟩ := (Option.any_eq_true _ _).1 hcell
  have hwidth : (v.catalog.table 2).columns.length = 1 := by simpa using congrArg List.length hrows.2.2
  obtain ⟨w', hw⟩ : ∃ w', Gives (inTurn [encode firstRow (.attr "a")]) v [l] w' :=
    ⟨_, bind_iff.2 ⟨l, _, .of_toOption hl, pure_iff.2 ⟨rfl, rfl⟩⟩⟩
  obtain ⟨a, ha, htest⟩ := (subquery_tests (r := firstRow) (x := .attr "a") (w := twoRowsLoaded) rfl trivial rfl .null).1
    true _ 2 [l] w' ⟨2, v, rfl, hplace, rfl, hwidth ▸ hw, ok_of_toOption hrows.1⟩ (by simpa using hplain)
      hrows.2.2
  rw [hrows.2.1, hrows.2.2] at htest
  exact ⟨a, w', l, ha, htest⟩

end Expression

end QueryEquiv
