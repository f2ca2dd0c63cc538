import QueryEquiv.Equivalence
import QueryEquiv.Proofs.Meaning
import QueryEquiv.Proofs.Tables
import QueryEquiv.Verdict

/-!
# The rows of a table as a bag

In an interpretation a table holds a bag of records: those of its rows that are there, where a null is
no value at all. What an unknown that is null or that belongs to a deleted row stands for is not seen.

The comparison of two results counts: it says that both have equally many rows, and that every row of the
first is in both equally often. That is enough for the bags to be the same (`equal_holds_iff_bag_eq`),
since a bag that is contained in another of the same size is the other. Records of different widths are
never the same, so results of different widths are the same just if both are empty; the comparison says the
opposite of them (`difference_holds_iff`).
-/

namespace QueryEquiv

open Gives List Operator Results Workspace Shape

variable {s t : Shape} {α : Type}

/-- The values of a row, nothing for a null. -/
abbrev Record := List (Option Int)

namespace Interpretation

variable (I : Interpretation)

/-- What a cell holds. -/
def held (table row column : Int) : Option Int :=
  if I.null table row column then none else some (I.cell table row column)

/-- What the cells of a row hold. -/
def record (s : Shape) (row : Nat) : Record := s.columns.map (I.held s.id row)

def rowsThere (s : Shape) : List Nat := (List.range s.rows).filter fun row ↦ !I.deleted s.id row

/-- The rows of a table, each as often as it is there. -/
def bag (s : Shape) : Multiset Record := Multiset.map (I.record s) (I.rowsThere s)

theorem mem_rowsThere {row : Nat} : row ∈ I.rowsThere s ↔ row < s.rows ∧ I.deleted s.id row = false := by
  simp [rowsThere]

@[simp] theorem holds_present (table : Int) (row : Nat) :
    I.Holds (present table row) ↔ I.deleted table row = false := by
  simp [present]

theorem eval_sum_indicator (l : List α) (c : α → Term) :
    I.eval (.sum (l.map fun a ↦ .indicator (c a))) = l.countP fun a ↦ I.Holds (c a) := by
  induction l with
  | nil => simp
  | cons a l ih =>
    rw [eval_sum, map_map] at ih ⊢
    rw [map_cons, sum_cons, ih, countP_cons, Function.comp_apply, eval_indicator]
    by_cases h : I.Holds (c a) <;> simp [h, add_comm]

theorem eval_size (s : Shape) : I.eval s.size = (I.bag s).card := by
  rw [Shape.size, eval_sum_indicator, bag, Multiset.card_map, Multiset.coe_card, rowsThere, countP_eq_length_filter]
  congr 3
  funext row
  simp

theorem holds_sameCell (a b : Int × Nat × Int) :
    I.Holds (sameCell a b) ↔ I.held a.1 a.2.1 a.2.2 = I.held b.1 b.2.1 b.2.2 := by
  cases ha : I.null a.1 a.2.1 a.2.2 <;> cases hb : I.null b.1 b.2.1 b.2.2 <;>
    simp [sameCell, held, ha, hb]

private theorem map_eq_map_iff_zip {β γ : Type} {f : α → γ} {g : β → γ} {l : List α} {m : List β}
    (h : l.length = m.length) : l.map f = m.map g ↔ ∀ p ∈ l.zip m, f p.1 = g p.2 := by
  induction l generalizing m with
  | nil => simp [length_eq_zero_iff.1 h.symm]
  | cons a l ih =>
    cases m with
    | nil => cases h
    | cons b m => simp [ih (Nat.succ.inj h)]

theorem holds_isRow (width : s.columns.length = t.columns.length) (row i : Nat) :
    I.Holds (t.isRow (s.tuple row) i) ↔ I.deleted t.id i = false ∧ I.record t i = I.record s row := by
  have hrecord : I.record s row = (s.tuple row).map fun c ↦ I.held c.1 c.2.1 c.2.2 := by
    simp [record, tuple]
  rw [hrecord, record, map_eq_map_iff_zip (by simp [tuple, width])]
  simp only [isRow, holds_and, forall_mem_cons, forall_mem_map, holds_present, holds_sameCell]

theorem eval_multiplicity (width : s.columns.length = t.columns.length) (row : Nat) :
    I.eval (t.multiplicity (s.tuple row)) = (I.bag t).count (I.record s row) := by
  rw [Shape.multiplicity, eval_sum_indicator, bag, Multiset.count_map,
    ← Multiset.countP_eq_card_filter, Multiset.coe_countP, rowsThere, countP_filter]
  congr 2
  funext i
  simp [holds_isRow I width, and_comm, @eq_comm _ (I.record s row)]

/-- A bag whose members are equally often in another of the same size is the other. -/
private theorem eq_of_card_eq_of_count_eq [DecidableEq α] {m n : Multiset α} (hcard : m.card = n.card)
    (hcount : ∀ a ∈ m, m.count a = n.count a) : m = n := by
  refine Multiset.eq_of_le_of_card_le (Multiset.le_iff_count.2 fun a ↦ ?_) hcard.ge
  by_cases ha : a ∈ m
  · exact (hcount a ha).le
  · rw [Multiset.count_eq_zero_of_notMem ha]
    exact Nat.zero_le _

/-- Equal sizes, and equal counts of the rows of one table, make two bags the same. -/
theorem holds_bags_iff (width : s.columns.length = t.columns.length) :
    I.Holds (.and [.eq s.size t.size, s.sameMultiplicities t]) ↔ I.bag s = I.bag t := by
  have hcounts : I.Holds (s.sameMultiplicities t) ↔
      ∀ a ∈ I.bag s, (I.bag s).count a = (I.bag t).count a := by
    simp only [sameMultiplicities, holds_and, forall_mem_map, holds_implies, holds_present,
      holds_eq, eval_multiplicity I rfl, eval_multiplicity I width, Int.ofNat_inj, mem_range]
    simp only [bag, Multiset.forall_mem_map_iff, Multiset.mem_coe, mem_rowsThere, and_imp]
  have hsizes : I.Holds (.eq s.size t.size) ↔ (I.bag s).card = (I.bag t).card := by
    rw [holds_eq, eval_size, eval_size, Int.ofNat_inj]
  rw [holds_and₂, hsizes, hcounts]
  exact ⟨fun h ↦ eq_of_card_eq_of_count_eq h.1 h.2, fun h ↦ by simp [h]⟩

end Interpretation

theorem Results.Shape.columns_ofTable {t : Table} (h : ofTable t = .ok s) : s.columns = t.columns.map (·.id) := by
  simp only [ofTable, Outcome.bind_ok_iff, Outcome.pure_ok_iff] at h
  obtain ⟨n, -, rfl⟩ := h
  rfl

/-- Two results, of which one is not sorted, are compared by their bags if they have the same width. Else it is asked
whether one of them has a row. -/
theorem Results.equal_gives {w : Workspace} {a b : Nat} (hs : ofTable (w.catalog.table a) = .ok s)
    (ht : ofTable (w.catalog.table b) = .ok t)
    (unsorted : s.columns.length = t.columns.length → ¬ ((w.catalog.table a).mentionsIfAny "Sorted" ∧
      (w.catalog.table b).mentionsIfAny "Sorted")) :
    Gives (equal a b) w (if s.columns.length = t.columns.length then .and [.eq s.size t.size, s.sameMultiplicities t]
      else s.someRow t) w := by
  have hcolumns {p : Nat} {s : Shape} (h : ofTable (w.catalog.table p) = .ok s) :
      (w.catalog.table p).columns.length = s.columns.length := by
    rw [columns_ofTable h, length_map]
  simp only [equal, bind_iff, table_gives, lift_iff]
  refine ⟨_, _, ⟨rfl, rfl⟩, _, _, ⟨rfl, rfl⟩, _, _, ⟨hs, rfl⟩, _, _, ⟨ht, rfl⟩, ?_⟩
  rw [hcolumns hs, hcolumns ht]
  by_cases width : s.columns.length = t.columns.length
  · rw [if_pos (beq_iff_eq.2 width), if_neg (by simpa using unsorted width), if_pos width]
    exact pure_iff.2 ⟨rfl, rfl⟩
  · rw [if_neg (mt beq_iff_eq.1 width), if_neg width]
    exact pure_iff.2 ⟨rfl, rfl⟩

/-- The comparison of two results of the same width, of which one is not sorted, succeeds and leaves the
workspace as it is, and the formula that it gives holds in just those interpretations in which the two
results have the same rows equally often. -/
theorem equal_holds_iff_bag_eq {w : Workspace} {a b : Nat} {s t : Shape}
    (hs : Shape.ofTable (w.catalog.table a) = .ok s) (ht : Shape.ofTable (w.catalog.table b) = .ok t)
    (width : s.columns.length = t.columns.length)
    (unsorted : ¬ ((w.catalog.table a).mentionsIfAny "Sorted" ∧
      (w.catalog.table b).mentionsIfAny "Sorted")) :
    ∃ f, Gives (equal a b) w f w ∧ ∀ I : Interpretation, I.Holds f ↔ I.bag s = I.bag t :=
  ⟨_, equal_gives hs ht fun _ ↦ unsorted, fun I ↦ by rw [if_pos width, I.holds_bags_iff width]⟩

/-- A table of two columns and two rows, and a sorted one of three rows. -/
def unevenTables : Workspace where
  catalog := { tables := #[
    { id := 0, name := .str "t", bound := .int 2,
      columns := [.computed 0 (.str "a") .null, .computed 1 (.str "b") .null] },
    { id := 1, name := .str "u", bound := .int 3, lineage := some "Sorted from T0",
      columns := [.computed 0 (.str "c") .null, .computed 1 (.str "d") .null] }] }

/-- Tables with room for two and for three rows are compared by their bags, as the second has one row more
that may be deleted. -/
theorem unevenTables_equal : ∃ f, Gives (equal 0 1) unevenTables f unevenTables ∧
    ∀ I : Interpretation, I.Holds f ↔ I.bag ⟨0, 2, [0, 1]⟩ = I.bag ⟨1, 3, [0, 1]⟩ :=
  equal_holds_iff_bag_eq rfl rfl rfl (by decide +kernel)

/-! ## Results of different widths -/

namespace Interpretation

variable (I : Interpretation)

theorem length_of_mem_bag {r : Record} (h : r ∈ I.bag s) : r.length = s.columns.length := by
  obtain ⟨row, -, rfl⟩ := Multiset.mem_map.1 h
  rw [record, length_map]

/-- Results of different widths have no record in common, so they are the same only if both are empty. -/
theorem bag_eq_bag_iff_of_width_ne (width : s.columns.length ≠ t.columns.length) :
    I.bag s = I.bag t ↔ I.bag s = 0 ∧ I.bag t = 0 := by
  refine ⟨fun h ↦ ?_, fun h ↦ h.1.trans h.2.symm⟩
  have hempty : I.bag s = 0 := by
    refine Multiset.eq_zero_of_forall_notMem fun r hr ↦ width ?_
    rw [← I.length_of_mem_bag hr, I.length_of_mem_bag (h ▸ hr)]
  exact ⟨hempty, h ▸ hempty⟩

theorem holds_someRow (s t : Shape) : I.Holds (s.someRow t) ↔ ¬ (I.bag s = 0 ∧ I.bag t = 0) := by
  have hsize (u : Shape) : I.Holds (.cmp .gt u.size .zero) ↔ I.bag u ≠ 0 := by
    rw [holds_cmp, eval_size, eval_zero, Comparison.holds, decide_eq_true_eq, Int.natCast_pos, Multiset.card_pos]
  rw [someRow, holds_or₂, hsize, hsize, not_and_or]

end Interpretation

/-- The goal that two results differ says so if they have the same width and one is not sorted. If they have
different widths it says the opposite: that both are empty, which is the one case in which they are the same. -/
theorem difference_holds_iff {w : Workspace} {a b : Nat} {s t : Shape}
    (hs : Shape.ofTable (w.catalog.table a) = .ok s) (ht : Shape.ofTable (w.catalog.table b) = .ok t)
    (unsorted : s.columns.length = t.columns.length → ¬ ((w.catalog.table a).mentionsIfAny "Sorted" ∧
      (w.catalog.table b).mentionsIfAny "Sorted")) :
    ∃ f, Gives (equal a b) w f w ∧
      Gives (Verdict.difference [a, b]) w ⟨⟩ { w with formulas := w.formulas.append (.not f) (some "neq") } ∧
      ∀ I : Interpretation,
        (s.columns.length = t.columns.length → (I.Holds (.not f) ↔ I.bag s ≠ I.bag t)) ∧
        (s.columns.length ≠ t.columns.length → (I.Holds f ↔ I.bag s ≠ 0 ∨ I.bag t ≠ 0) ∧
          (I.Holds (.not f) ↔ I.bag s = I.bag t)) := by
  have hf := equal_gives hs ht unsorted
  refine ⟨_, hf, bind_iff.2 ⟨_, w, hf, modify_iff.2 rfl⟩, fun I ↦ ⟨fun width ↦ ?_, fun width ↦ ⟨?_, ?_⟩⟩⟩
  · rw [if_pos width, I.holds_not, I.holds_bags_iff width]
  · rw [if_neg width, I.holds_someRow, not_and_or]
  · rw [if_neg width, I.holds_not, I.holds_someRow, not_not, I.bag_eq_bag_iff_of_width_ne width]

/-- A table of one column and one row, and a table of two columns and two rows. -/
def unevenColumns : Workspace where
  catalog := { tables := #[
    { id := 0, name := .str "t", bound := .int 1, columns := [.computed 0 (.str "a") .null] },
    { id := 1, name := .str "u", bound := .int 2,
      columns := [.computed 0 (.str "b") .null, .computed 1 (.str "c") .null] }] }

/-- The goal that a column differs from two columns is that there is no row. -/
theorem unevenColumns_difference : ∃ f, Gives (equal 0 1) unevenColumns f unevenColumns ∧
    Gives (Verdict.difference [0, 1]) unevenColumns ⟨⟩
      { unevenColumns with formulas := unevenColumns.formulas.append (.not f) (some "neq") } ∧
    ∀ I : Interpretation,
      (1 = 2 → (I.Holds (.not f) ↔ I.bag ⟨0, 1, [0]⟩ ≠ I.bag ⟨1, 2, [0, 1]⟩)) ∧
      (1 ≠ 2 → (I.Holds f ↔ I.bag ⟨0, 1, [0]⟩ ≠ 0 ∨ I.bag ⟨1, 2, [0, 1]⟩ ≠ 0) ∧
        (I.Holds (.not f) ↔ I.bag ⟨0, 1, [0]⟩ = I.bag ⟨1, 2, [0, 1]⟩)) :=
  difference_holds_iff (s := ⟨0, 1, [0]⟩) (t := ⟨1, 2, [0, 1]⟩) rfl rfl fun h ↦ absurd h (by decide)

end QueryEquiv
