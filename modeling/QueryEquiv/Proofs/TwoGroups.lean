import QueryEquiv.Proofs.Bags
import QueryEquiv.Proofs.Fractions
import QueryEquiv.Proofs.Sheets
import QueryEquiv.Verdict

/-!
# Results in two groups

The condition that results fall into two groups says of each result that it is in one of them and equal to
the representative of its group, and of the representatives that they differ. Being equal to the same table
is what makes results of one group equal to each other, and those of different groups different
(`splits_of_assigned`). This needs nothing of the numbers of the tables.

Conversely a representative has room for every result, so if the results have two bags between them then
each of the two can be put into a representative (`exists_assigned`). Here the representatives must not be
results themselves, and different results must have different numbers, as their groups are kept by number.

The sizes of the groups are bounded by halves of integers or other fractions, so the condition is read in the
rational numbers.
-/

namespace QueryEquiv

open Term Catalog Interpretation Gives List Results Workspace Shape

/-- The formula that two tables hold the same rows equally often. -/
def Results.Shape.same (s t : Shape) : Term := .and [.eq s.size t.size, s.sameMultiplicities t]

theorem Results.Shape.whole_size (s : Shape) : s.size.Whole := by
  refine whole_sum ?_
  simp [Operator.present]

theorem Results.Shape.whole_sameCell (a b : Int × Nat × Int) : (sameCell a b).Whole := by simp [sameCell]

theorem Results.Shape.whole_multiplicity (t : Shape) (tuple : List (Int × Nat × Int)) : (t.multiplicity tuple).Whole := by
  refine whole_sum (forall_mem_map.2 fun row _ ↦ ?_)
  rw [whole_indicator, isRow, whole_and, forall_mem_cons, forall_mem_map]
  exact ⟨by simp [Operator.present], fun p _ ↦ whole_sameCell _ _⟩

theorem Results.Shape.whole_same (s t : Shape) : (s.same t).Whole := by
  simp [same, sameMultiplicities, whole_size, whole_multiplicity, Operator.present]

namespace Disambiguation

/-- A result is in one of two groups, and is equal to the representative of the group. -/
def assigned (a b s : Shape) : List Term :=
  [.or [.belongs s.id 0, .belongs s.id 1], .implies (.belongs s.id 0) (s.same a),
    .implies (.belongs s.id 1) (s.same b),
    .eq (.sum [.indicator (.belongs s.id 0), .indicator (.belongs s.id 1)]) .one]

/-- The size of a group is between two bounds. -/
def sized (ids : List Int) (least most : Value) (group : Nat) : Term :=
  .and [.ge (members ids group) (.int least), .le (members ids group) (.int most)]

/-- The condition on results in two groups with representatives. -/
def separation (shapes : List Shape) (a b : Shape) (least most : Value) : Term :=
  .and ((shapes.map (assigned a b)).flatten ++
    [sized (shapes.map (·.id)) least most 0, sized (shapes.map (·.id)) least most 1] ++
    [.not (a.same b), .not (b.same a)])

/-! ## The bounds -/

/-- The bounds on the sizes of two groups: half of the results, less and more a tolerance. -/
structure Bounds (n : Nat) (tolerance : Value) (lo hi : ℚ) : Prop where
  least : ∃ v, (Value.float (n.toFloat / 2)).arith .sub tolerance = .ok v ∧ v.fraction? = some lo
  most : ∃ v, (Value.float (n.toFloat / 2)).arith .add tolerance = .ok v ∧ v.fraction? = some hi

def IsHalfOf (v : Value) (k : Int) : Prop := v.isNumber = true ∧ ∃ x, v.toFloat = .ok x ∧ IsHalf x k

theorem isHalfOf_int {r : Int} (h : (2 * r).natAbs < 2 ^ 53) : IsHalfOf (.int r) (2 * r) := by
  have hhalf := isHalf_ofInt h
  refine ⟨rfl, Float.ofInt r, ?_, hhalf⟩
  have hfinite : (Float.ofInt r).isInf = false := hhalf.isInf
  change (if (Float.ofInt r).isInf then _ else _) = _
  rw [hfinite]
  rfl

private theorem arith_float {v : Value} {x y : Float} (hv : v.isNumber = true) (hy : v.toFloat = .ok y) :
    (Value.float x).arith .sub v = .ok (.float (x - y)) ∧ (Value.float x).arith .add v = .ok (.float (x + y)) := by
  have hsub : (do return Value.float ((← (Value.float x).toFloat) - (← v.toFloat)) : Outcome Value) =
      .ok (.float (x - y)) := by
    rw [hy]
    rfl
  have hadd : (do return Value.float ((← (Value.float x).toFloat) + (← v.toFloat)) : Outcome Value) =
      .ok (.float (x + y)) := by
    rw [hy]
    rfl
  cases v with
  | int n => exact ⟨hsub, hadd⟩
  | bool b => exact ⟨hsub, hadd⟩
  | float z => exact ⟨hsub, hadd⟩
  | _ => cases hv

variable {n : Nat} {tolerance : Value}

/-- Bounds that are halves of integers are exact. -/
theorem bounds_of_isHalfOf {k : Int} (h : IsHalfOf tolerance k)
    (hsmall : n + k.natAbs < 2 ^ 52) : Bounds n tolerance ((n - k) / 2) ((n + k) / 2) := by
  obtain ⟨hnumber, x, hx, hhalf⟩ := h
  have hn : IsHalf (n.toFloat / 2) n := isHalf_div_two (by omega)
  obtain ⟨hsub, hadd⟩ := arith_float (x := n.toFloat / 2) hnumber hx
  constructor
  · refine ⟨_, hsub, ?_⟩
    rw [(hn.sub hhalf (by omega)).fraction?]
    norm_cast
  · refine ⟨_, hadd, ?_⟩
    rw [(hn.add hhalf (by omega)).fraction?]
    norm_cast

theorem Bounds.unique {lo hi lo' hi' : ℚ} (h : Bounds n tolerance lo hi)
    (h' : Bounds n tolerance lo' hi') : lo = lo' ∧ hi = hi' := by
  obtain ⟨⟨l, hl, hlo⟩, m, hm, hhi⟩ := h
  obtain ⟨⟨l', hl', hlo'⟩, m', hm', hhi'⟩ := h'
  rw [hl, Except.ok.injEq] at hl'
  rw [hm, Except.ok.injEq] at hm'
  rw [← hl', hlo, Option.some.injEq] at hlo'
  rw [← hm', hhi, Option.some.injEq] at hhi'
  exact ⟨hlo', hhi'⟩

theorem sizes_ok {ids : List Int} {lo hi : ℚ} (h : Bounds ids.length tolerance lo hi) :
    ∃ least most, least.fraction? = some (max 1 lo) ∧ most.fraction? = some hi ∧
      ∀ group, sizes ids tolerance group = .ok (sized ids least most group) := by
  obtain ⟨⟨l, hl, hlo⟩, m, hm, hhi⟩ := h
  have hleast : (if decide (lo < 1) = true then Value.int 1 else l).fraction? = some (max 1 lo) := by
    by_cases h : lo < 1
    · rw [if_pos (decide_eq_true h), max_eq_left h.le]
      rfl
    · rw [if_neg (by simpa using h), max_eq_right (not_lt.1 h), hlo]
  refine ⟨_, m, hleast, hhi, fun group ↦ ?_⟩
  simp only [sizes, Outcome.bind_ok_iff, Outcome.pure_ok_iff]
  exact ⟨l, hl, _, Value.before_one hlo, m, hm, rfl⟩

/-! ## The formula of a run -/

private theorem before_of_integer? {a b : Value} {m n : Int} (ha : a.integer? = some m) (hb : b.integer? = some n) :
    a.before b = .ok (decide (m < n)) := by
  cases a with
  | int _ | bool _ =>
    cases b with
    | int _ | bool _ =>
      obtain rfl := Option.some.inj ha
      obtain rfl := Option.some.inj hb
      rfl
    | _ => cases hb
  | _ => cases ha

/-- Going through numbers, the greatest so far is one of them and the first. -/
theorem foldlM_greatest (vs : List Value) (h : ∀ v ∈ vs, v.integer?.isSome) (best : Value) (hbest : best.integer?.isSome) :
    ∃ v ∈ best :: vs, vs.foldlM (fun best v ↦ do return if ← best.before v then v else best) best = .ok v ∧
      ∀ u ∈ best :: vs, u.integer?.getD 0 ≤ v.integer?.getD 0 := by
  induction vs generalizing best with
  | nil => exact ⟨best, mem_cons_self, rfl, by simp⟩
  | cons v vs ih =>
    rw [forall_mem_cons] at h
    obtain ⟨m, hm⟩ := Option.isSome_iff_exists.1 hbest
    obtain ⟨n, hn⟩ := Option.isSome_iff_exists.1 h.1
    have hbefore := before_of_integer? hm hn
    obtain ⟨u, hu, hfold, hmax⟩ := ih h.2 (if decide (m < n) then v else best) (by split <;> simp [hm, hn])
    refine ⟨u, ?_, ?_, ?_⟩
    · rcases mem_cons.1 hu with rfl | hu
      · split <;> simp
      · simp [hu]
    · rw [foldlM_cons, hbefore]
      exact hfold
    · rw [forall_mem_cons] at hmax
      -- The result is not less than the greater of the two that were compared.
      have hfirst : m ≤ u.integer?.getD 0 ∧ n ≤ u.integer?.getD 0 := by
        have hge := hmax.1
        by_cases hlt : m < n
        · rw [if_pos (decide_eq_true hlt), hn] at hge
          exact ⟨hlt.le.trans hge, hge⟩
        · rw [if_neg (by simpa using hlt), hm] at hge
          exact ⟨hge, (not_lt.1 hlt).trans hge⟩
      rw [forall_mem_cons, forall_mem_cons, hm, hn]
      exact ⟨hfirst.1, hfirst.2, hmax.2⟩

theorem greatest_ok {vs : List Value} (hne : vs ≠ []) (h : ∀ v ∈ vs, v.integer?.isSome) :
    ∃ v ∈ vs, greatest vs = .ok v ∧ ∀ u ∈ vs, u.integer?.getD 0 ≤ v.integer?.getD 0 := by
  cases vs with
  | nil => exact absurd rfl hne
  | cons v vs =>
    rw [forall_mem_cons] at h
    exact foldlM_greatest vs h.2 v h.1

theorem emptyTable_gives (w : Workspace) {rows : Value} (c : Nat)
    (hrows : Table.rows { (default : Table) with bound := rows } = .ok n) :
    ∃ t : Table, Gives (emptyTable rows (.int c)) w w.catalog.tables.size
        { w with lastTable := w.lastTable + 1, catalog := (w.catalog.add t).2 } ∧
      ofTable t = .ok ⟨w.lastTable + 1, n, upTo c⟩ ∧ t.lineage = none := by
  obtain ⟨name, hname⟩ : ∃ name, s!"empty_table_{rows.text}x{(Value.int c).text}" = name := ⟨_, rfl⟩
  obtain ⟨column, hcolumn, hid⟩ : ∃ column : Nat → Column,
      (∀ i : Nat, Column.make i (.str (toString i)) (.str "int") (.str name) .null = .ok (column i)) ∧
        ∀ i : Nat, (column i).id = i :=
    ⟨fun i ↦ ⟨i, .str (toString i), .str "int", .str name, .null, [Text.lower name]⟩, fun _ ↦ rfl, fun _ ↦ rfl⟩
  have hcolumns (v : Workspace) : Gives
      ((List.range c).mapM fun (i : Nat) ↦
        (liftM (Column.make i (.str (toString i)) (.str "int") (.str name) .null) : Encoding Column)) v
      ((List.range c).map column) v := mapM_map fun i _ ↦ lift_iff.2 ⟨hcolumn i, rfl⟩
  refine ⟨{ id := w.lastTable + 1, name := .str name, bound := rows, columns := (List.range c).map column }, ?_, ?_, rfl⟩
  · simp only [emptyTable, bind_iff, newTableId_gives, lift_iff, enter_gives, hname]
    exact ⟨_, _, ⟨rfl, rfl⟩, c, _, ⟨rfl, rfl⟩, _, _, hcolumns _, rfl, rfl⟩
  · refine ofTable_ok_iff.2 ⟨rfl, hrows, ?_⟩
    rw [map_map]
    exact map_congr_left fun i _ ↦ hid i

theorem lt_size_of_ofTable {w : Workspace} {o : Nat} {s : Shape} (h : ofTable (w.catalog.table o) = .ok s) :
    o < w.catalog.tables.size := by
  by_contra hle
  rw [table_of_size_le (not_lt.1 hle)] at h
  obtain ⟨-, hrows, -⟩ := ofTable_ok_iff.1 h
  cases hrows

section Run

variable {w v : Workspace} {outputs : List Nat} {shape : Nat → Shape} {width : Nat}

theorem ofTable_add {o : Nat} {s : Shape} (h : ofTable (w.catalog.table o) = .ok s) {t : Table}
    (hv : v.catalog = (w.catalog.add t).2) : ofTable (v.catalog.table o) = .ok s := by
  rw [hv, table_add_of_lt (lt_size_of_ofTable h), h]

/-- Every result fits into a representative. -/
theorem representative_gives (h : ∀ o ∈ outputs, ofTable (w.catalog.table o) = .ok (shape o))
    (hne : outputs ≠ []) (hwidth : ∀ o ∈ outputs, (shape o).columns.length = width) :
    ∃ (t : Table) (n : Nat), Gives (representative outputs) w w.catalog.tables.size
        { w with lastTable := w.lastTable + 1, catalog := (w.catalog.add t).2 } ∧
      ofTable t = .ok ⟨w.lastTable + 1, n, upTo width⟩ ∧ t.lineage = none ∧ ∀ o ∈ outputs, (shape o).rows ≤ n := by
  have htables : Gives (outputs.mapM table) w (outputs.map w.catalog.table) w :=
    mapM_map fun _ _ ↦ table_gives.2 ⟨rfl, rfl⟩
  have hbounds {o : Nat} (ho : o ∈ outputs) : ∃ k, (w.catalog.table o).bound.integer? = some k ∧
      (shape o).rows = k.toNat := Table.rows_eq_ok.1 (ofTable_ok_iff.1 (h o ho)).2.1
  have hnumbers : ∀ v ∈ (outputs.map w.catalog.table).map (·.bound), v.integer?.isSome := by
    rw [map_map, forall_mem_map]
    intro o ho
    obtain ⟨k, hk, -⟩ := hbounds ho
    exact Option.isSome_iff_exists.2 ⟨k, hk⟩
  have hcounts : ∀ v ∈ (outputs.map w.catalog.table).map fun t ↦ Value.int t.columns.length, v.integer?.isSome := by
    simp [Value.integer?]
  obtain ⟨bound, hbound, hgreatest, hmost⟩ := greatest_ok (by simpa using hne) hnumbers
  obtain ⟨columns, hcolumns, hwide, -⟩ := greatest_ok (by simpa using hne) hcounts
  obtain rfl : columns = .int width := by
    rw [map_map] at hcolumns
    obtain ⟨o, ho, rfl⟩ := mem_map.1 hcolumns
    rw [← hwidth o ho, columns_ofTable (h o ho), length_map]
    rfl
  rw [map_map] at hbound hmost
  obtain ⟨o, ho, rfl⟩ := mem_map.1 hbound
  obtain ⟨k, hk, -⟩ := hbounds ho
  obtain ⟨t, hgives, hshape, hlineage⟩ := emptyTable_gives w (n := k.toNat) width (Table.rows_eq_ok.2 ⟨k, hk, rfl⟩)
  refine ⟨t, k.toNat, ?_, hshape, hlineage, fun u hu ↦ ?_⟩
  · simp only [representative, bind_iff, lift_iff]
    exact ⟨_, _, htables, _, _, ⟨hgreatest, rfl⟩, _, _, ⟨hwide, rfl⟩, hgives⟩
  · obtain ⟨m, hm, hrows⟩ := hbounds hu
    have hle := forall_mem_map.1 hmost u hu
    simp only [Function.comp_apply, hm, hk, Option.getD_some] at hle
    omega

/-- A table that says nothing of where it comes from is not sorted, and is compared by its bag. -/
theorem same_gives {x y : Nat} {c d : Shape} (hc : ofTable (v.catalog.table x) = .ok c)
    (hd : ofTable (v.catalog.table y) = .ok d) (hwidth : c.columns.length = d.columns.length)
    (hy : (v.catalog.table y).lineage = none) : Gives (equal x y) v (c.same d) v := by
  have h := Results.equal_gives hc hd fun _ ↦ by simp [Table.mentionsIfAny, hy]
  rwa [if_pos hwidth] at h

theorem membership_gives {a b s : Shape} {p q o : Nat} (hs : ofTable (v.catalog.table o) = .ok s)
    (ha : ofTable (v.catalog.table p) = .ok a) (hb : ofTable (v.catalog.table q) = .ok b)
    (hla : (v.catalog.table p).lineage = none) (hlb : (v.catalog.table q).lineage = none)
    (hwa : s.columns.length = a.columns.length) (hwb : s.columns.length = b.columns.length) :
    Gives (membership [p, q] o) v (assigned a b s) v := by
  have hid : (v.catalog.table o).id = s.id := (ofTable_ok_iff.1 hs).1
  have hequal {c : Shape} {r : Nat} (hc : ofTable (v.catalog.table r) = .ok c)
      (hl : (v.catalog.table r).lineage = none) (hw : s.columns.length = c.columns.length) (g : Int) :
      Gives (do return implies (.belongs (v.catalog.table o).id g) (← Results.equal o r)) v
        (.implies (.belongs s.id g) (s.same c)) v := by
    rw [hid]
    exact bind_iff.2 ⟨_, v, same_gives hs hc hw hl, pure_iff.2 ⟨rfl, rfl⟩⟩
  refine bind_iff.2 ⟨_, v, table_gives.2 ⟨rfl, rfl⟩, bind_iff.2
    ⟨[.implies (.belongs s.id 0) (s.same a), .implies (.belongs s.id 1) (s.same b)], v, ?_, ?_⟩⟩
  · exact mapM_of_forall₂ (.cons (hequal ha hla hwa 0) (.cons (hequal hb hlb hwb 1) .nil))
  · rw [hid]
    exact pure_iff.2 ⟨rfl, rfl⟩

/-- Two tables after the results are representatives of given shapes. -/
structure Represented (outputs : List Nat) (shape : Nat → Shape) (p : Nat) (a b : Shape) (v : Workspace) : Prop where
  result : ∀ o ∈ outputs, Shape.ofTable (v.catalog.table o) = .ok (shape o)
  first : Shape.ofTable (v.catalog.table p) = .ok a
  second : Shape.ofTable (v.catalog.table (p + 1)) = .ok b
  unsorted₁ : (v.catalog.table p).lineage = none
  unsorted₂ : (v.catalog.table (p + 1)).lineage = none

/-- The representatives are two new tables that have room for every result. -/
theorem representatives_gives (h : ∀ o ∈ outputs, ofTable (w.catalog.table o) = .ok (shape o))
    (hne : outputs ≠ []) (hwidth : ∀ o ∈ outputs, (shape o).columns.length = width) :
    ∃ (p m n : Nat) (w' : Workspace), (∀ o ∈ outputs, (shape o).rows ≤ m ∧ (shape o).rows ≤ n) ∧
      w'.formulas = w.formulas ∧ Gives (groups.mapM fun _ ↦ representative outputs) w [p, p + 1] w' ∧
      Represented outputs shape p ⟨w.lastTable + 1, m, upTo width⟩ ⟨w.lastTable + 2, n, upTo width⟩ w' := by
  obtain ⟨t, m, hfirst, hta, htl, hm⟩ := representative_gives h hne hwidth
  set w₁ : Workspace := { w with lastTable := w.lastTable + 1, catalog := (w.catalog.add t).2 } with hw₁
  have h₁ (o : Nat) (ho : o ∈ outputs) : ofTable (w₁.catalog.table o) = .ok (shape o) := ofTable_add (h o ho) rfl
  obtain ⟨u, n, hsecond, hua, hul, hn⟩ := representative_gives h₁ hne hwidth
  set w₂ : Workspace := { w₁ with lastTable := w₁.lastTable + 1, catalog := (w₁.catalog.add u).2 } with hw₂
  have hsize : w₁.catalog.tables.size = w.catalog.tables.size + 1 := size_add
  have ht : w₂.catalog.table w.catalog.tables.size = t := by
    rw [hw₂, table_add_of_lt (by omega)]
    exact table_add_self
  have hu : w₂.catalog.table (w.catalog.tables.size + 1) = u := by
    rw [← hsize]
    exact table_add_self
  have hlast : w₁.lastTable + 1 = w.lastTable + 2 := by
    change w.lastTable + 1 + 1 = w.lastTable + 2
    omega
  refine ⟨w.catalog.tables.size, m, n, w₂, fun o ho ↦ ⟨hm o ho, hn o ho⟩, rfl, ?_, ?_⟩
  · simp only [groups, mapM_cons, mapM_nil, pure_bind, bind_iff, pure_iff]
    exact ⟨_, w₁, hfirst, _, w₂, ⟨_, w₂, hsecond, rfl, rfl⟩, by rw [hsize], rfl⟩
  · exact ⟨fun o ho ↦ ofTable_add (h₁ o ho) rfl, by rw [ht, hta], by rw [hu, hua, hlast], by rw [ht, htl], by rw [hu, hul]⟩

/-- The condition is found for results of the same width, if there are numbers for the bounds. -/
theorem condition_gives (h : ∀ o ∈ outputs, ofTable (w.catalog.table o) = .ok (shape o))
    (hne : outputs ≠ []) (hwidth : ∀ o ∈ outputs, (shape o).columns.length = width) {tolerance : Value} {lo hi : ℚ}
    (hbounds : Bounds outputs.length tolerance lo hi) : ∃ (m n : Nat) (least most : Value) (w' : Workspace),
      (∀ o ∈ outputs, (shape o).rows ≤ m ∧ (shape o).rows ≤ n) ∧
      least.fraction? = some (max 1 lo) ∧ most.fraction? = some hi ∧ w'.formulas = w.formulas ∧
      Gives (condition outputs tolerance) w
        (separation (outputs.map shape) ⟨w.lastTable + 1, m, upTo width⟩ ⟨w.lastTable + 2, n, upTo width⟩ least most)
        w' := by
  obtain ⟨p, m, n, v, hroom, hformulas, hrepresentatives, hv⟩ := representatives_gives h hne hwidth
  have hcount : Bounds (outputs.map fun o ↦ (shape o).id).length tolerance lo hi := by rwa [length_map]
  obtain ⟨least, most, hleast, hmost, hsizes⟩ := sizes_ok hcount
  refine ⟨m, n, least, most, v, hroom, hleast, hmost, hformulas, ?_⟩
  set a : Shape := ⟨w.lastTable + 1, m, upTo width⟩
  set b : Shape := ⟨w.lastTable + 2, n, upTo width⟩
  have hwide (o : Nat) (ho : o ∈ outputs) : (shape o).columns.length = (upTo width).length := by
    rw [hwidth o ho, length_upTo]
  have hmembers : Gives (outputs.mapM (membership [p, p + 1])) v (outputs.map fun o ↦ assigned a b (shape o)) v := by
    refine mapM_map fun o ho ↦ ?_
    exact membership_gives (hv.result o ho) hv.first hv.second hv.unsorted₁ hv.unsorted₂ (hwide o ho) (hwide o ho)
  have hids : Gives (outputs.mapM fun o ↦ do return (← table o).id) v (outputs.map fun o ↦ (shape o).id) v := by
    refine mapM_map fun o ho ↦ bind_iff.2 ⟨_, v, table_gives.2 ⟨rfl, rfl⟩, pure_iff.2 ⟨?_, rfl⟩⟩
    exact (ofTable_ok_iff.1 (hv.result o ho)).1.symm
  have hpairs : ([p, p + 1].flatMap fun r ↦ ([p, p + 1].filter (· != r)).map (r, ·)) = [(p, p + 1), (p + 1, p)] := by
    simp
  refine bind_iff.2 ⟨_, v, hrepresentatives, bind_iff.2 ⟨_, v, hmembers, bind_iff.2 ⟨_, v, hids,
    bind_iff.2 ⟨_, v, mapM_of_forall₂ (.cons (lift_iff.2 ⟨hsizes 0, rfl⟩)
      (.cons (lift_iff.2 ⟨hsizes 1, rfl⟩) .nil)), ?_⟩⟩⟩⟩
  rw [hpairs]
  refine bind_iff.2 ⟨[.not (a.same b), .not (b.same a)], v, mapM_of_forall₂ (.cons ?_ (.cons ?_ .nil)),
    pure_iff.2 ⟨?_, rfl⟩⟩
  · exact bind_iff.2 ⟨_, v, same_gives hv.first hv.second rfl hv.unsorted₂, pure_iff.2 ⟨rfl, rfl⟩⟩
  · exact bind_iff.2 ⟨_, v, same_gives hv.second hv.first rfl hv.unsorted₁, pure_iff.2 ⟨rfl, rfl⟩⟩
  · rw [separation, map_map, map_map]
    rfl

end Run

/-! ## What the condition says -/

theorem whole_members (ids : List Int) (group : Nat) : (members ids group).Whole := by
  refine whole_sum ?_
  simp

theorem mem_groups {g : Nat} : g ∈ groups ↔ g = 0 ∨ g = 1 := by simp [groups]

/-- The sizes that a group may have. -/
def Admits (lo hi : ℚ) (n : Nat) : Prop := 0 < n ∧ lo ≤ n ∧ n ≤ hi

end Disambiguation

/-- A term is about neither of two tables, and not about groups of results. -/
def Term.Spared (a b : Int) : Term → Prop
  | .cell t _ _ | .null t _ _ | .deleted t _ => t ≠ a ∧ t ≠ b
  | .belongs .. => False
  | _ => True

namespace Interpretation

open Disambiguation

variable (I : Interpretation)

/-- How many results belong to a group. -/
def population (shapes : List Shape) (group : Nat) : Nat := shapes.countP fun s ↦ I.belongs s.id group

variable {shapes : List Shape} {lo hi : ℚ} {s t a b : Shape}

theorem satisfies_sized {least most : Value} (hleast : least.fraction? = some (max 1 lo))
    (hmost : most.fraction? = some hi) (group : Nat) :
    I.Satisfies (sized (shapes.map (·.id)) least most group) ↔ Admits lo hi (I.population shapes group) := by
  have hcount : I.exact (members (shapes.map (·.id)) group) = I.population shapes group := by
    rw [exact_eq_eval I _ (whole_members _ _), members, eval_sum_indicator, countP_map, population]
    norm_cast
    refine countP_congr fun s _ ↦ ?_
    simp
  have hge : I.Satisfies (.ge (members (shapes.map (·.id)) group) (.int least)) ↔
      max 1 lo ≤ (I.population shapes group : ℚ) := by
    rw [ge, satisfies_cmp, hcount, exact_int I hleast, Comparison.relates, decide_eq_true_iff]
  have hle : I.Satisfies (.le (members (shapes.map (·.id)) group) (.int most)) ↔
      (I.population shapes group : ℚ) ≤ hi := by
    rw [le, satisfies_cmp, hcount, exact_int I hmost, Comparison.relates, decide_eq_true_iff]
  rw [sized, satisfies_and, forall_mem_cons, forall_mem_singleton, hge, hle, Admits, max_le_iff, and_assoc,
    Nat.one_le_cast]
  rfl

/-- A result is in exactly one of two groups, and has the bag of its representative. -/
def Assigned (a b s : Shape) : Prop :=
  (I.belongs s.id 0 = true ∧ I.belongs s.id 1 = false ∧ I.bag s = I.bag a) ∨
    (I.belongs s.id 0 = false ∧ I.belongs s.id 1 = true ∧ I.bag s = I.bag b)

theorem holds_same (hwidth : s.columns.length = t.columns.length) :
    I.Holds (s.same t) ↔ I.bag s = I.bag t := I.holds_bags_iff hwidth

theorem satisfies_assigned (ha : s.columns.length = a.columns.length)
    (hb : s.columns.length = b.columns.length) : (∀ t ∈ assigned a b s, I.Satisfies t) ↔ I.Assigned a b s := by
  have hwhole : (and (assigned a b s)).Whole := by
    have hsum : (sum [.indicator (.belongs s.id 0), .indicator (.belongs s.id 1)]).Whole :=
      whole_sum (by simp)
    have hone : one.Whole := rfl
    simp [assigned, whole_same, hsum, hone]
  rw [← satisfies_and, I.satisfies_iff_holds hwhole, holds_and]
  cases h₀ : I.belongs s.id 0 <;> cases h₁ : I.belongs s.id 1 <;>
    simp [assigned, Assigned, I.holds_same ha, I.holds_same hb, h₀, h₁, eval_indicator, holds_or]

/-- The condition says that every result is in one group with the bag of its representative, that the groups have
sizes within the bounds, and that the representatives have different bags. -/
theorem satisfies_separation {least most : Value}
    (ha : ∀ s ∈ shapes, s.columns.length = a.columns.length) (hb : a.columns.length = b.columns.length)
    (hleast : least.fraction? = some (max 1 lo)) (hmost : most.fraction? = some hi) :
    I.Satisfies (separation shapes a b least most) ↔
      (∀ s ∈ shapes, I.Assigned a b s) ∧ (∀ g ∈ groups, Admits lo hi (I.population shapes g)) ∧ I.bag a ≠ I.bag b := by
  have hassigned : (∀ t ∈ (shapes.map (assigned a b)).flatten, I.Satisfies t) ↔ ∀ s ∈ shapes, I.Assigned a b s := by
    rw [forall_mem_flatten, forall_mem_map]
    exact forall₂_congr fun s hs ↦ I.satisfies_assigned (ha s hs) ((ha s hs).trans hb)
  have hdiffer {c d : Shape} (h : c.columns.length = d.columns.length) :
      I.Satisfies (.not (c.same d)) ↔ I.bag c ≠ I.bag d := by
    rw [I.satisfies_iff_holds (whole_not _ |>.2 (whole_same c d)), holds_not, I.holds_same h]
  rw [separation, satisfies_and, forall_mem_append, forall_mem_append, hassigned, forall_mem_cons,
    forall_mem_singleton, I.satisfies_sized hleast hmost, I.satisfies_sized hleast hmost, forall_mem_cons,
    forall_mem_singleton, hdiffer hb, hdiffer hb.symm, and_assoc, groups, forall_mem_cons,
    forall_mem_singleton, ne_comm (a := I.bag b), and_self]

/-- The results fall into two groups: each is in exactly one, the groups have sizes within bounds and are not empty,
and results are in one group just if they have the same bag. -/
structure Splits (shapes : List Shape) (lo hi : ℚ) : Prop where
  once : ∀ s ∈ shapes, ∃! g, g ∈ groups ∧ I.belongs s.id g
  admitted : ∀ g ∈ groups, Admits lo hi (I.population shapes g)
  together : ∀ s ∈ shapes, ∀ t ∈ shapes, (∃ g ∈ groups, I.belongs s.id g ∧ I.belongs t.id g) ↔ I.bag s = I.bag t

variable {I}

theorem splits_of_assigned (h : ∀ s ∈ shapes, I.Assigned a b s)
    (hsizes : ∀ g ∈ groups, Admits lo hi (I.population shapes g)) (hdiffer : I.bag a ≠ I.bag b) :
    I.Splits shapes lo hi where
  once s hs := by
    rcases h s hs with ⟨h₀, h₁, -⟩ | ⟨h₀, h₁, -⟩
    · refine ⟨0, ⟨by decide, h₀⟩, ?_⟩
      rintro g ⟨hg, hin⟩
      rcases mem_groups.1 hg with rfl | rfl
      · rfl
      · exact absurd hin (by simp [h₁])
    · refine ⟨1, ⟨by decide, h₁⟩, ?_⟩
      rintro g ⟨hg, hin⟩
      rcases mem_groups.1 hg with rfl | rfl
      · exact absurd hin (by simp [h₀])
      · rfl
  admitted := hsizes
  together s hs t ht := by
    rcases h s hs with ⟨hs₀, hs₁, hsa⟩ | ⟨hs₀, hs₁, hsb⟩ <;> rcases h t ht with ⟨ht₀, ht₁, hta⟩ | ⟨ht₀, ht₁, htb⟩
    · simp [groups, hs₀, ht₀, hsa, hta]
    · simp [groups, hs₁, ht₀, hsa, htb, hdiffer]
    · simp [groups, hs₀, ht₁, hsb, hta, hdiffer.symm]
    · simp [groups, hs₁, ht₁, hsb, htb]

/-! ## Finding groups -/

/-- The results have two bags between them, each as often as a group may have results. -/
def TwoClasses (I : Interpretation) (shapes : List Shape) (lo hi : ℚ) : Prop :=
  ∃ a b : Multiset Record, a ≠ b ∧ (∀ s ∈ shapes, I.bag s = a ∨ I.bag s = b) ∧
    ∀ c ∈ [a, b], Admits lo hi (shapes.countP fun s ↦ I.bag s = c)

/-- The interpretation in which a table holds the rows of another one. -/
def holding (I : Interpretation) (id : Int) (s : Shape) : Interpretation :=
  { I with
    cell := fun t row c ↦ if t = id then I.cell s.id row (s.columns.getD c.toNat 0) else I.cell t row c
    null := fun t row c ↦ if t = id then I.null s.id row (s.columns.getD c.toNat 0) else I.null t row c
    deleted := fun t row ↦ if t = id then I.deleted s.id row || decide (s.rows ≤ row.toNat) else I.deleted t row }

theorem bag_holding_of_ne {id : Int} (h : t.id ≠ id) : (I.holding id s).bag t = I.bag t := by
  have hheld (row c : Int) : (I.holding id s).held t.id row c = I.held t.id row c := by
    simp [held, holding, h]
  have hdeleted (row : Int) : (I.holding id s).deleted t.id row = I.deleted t.id row := if_neg h
  have hrecord : (I.holding id s).record t = I.record t := by
    funext row
    exact map_congr_left fun c _ ↦ hheld row c
  simp only [bag, rowsThere, hrecord, hdeleted]

theorem bag_holding_self {id : Int} {n : Nat} (h : s.rows ≤ n) :
    (I.holding id s).bag ⟨id, n, upTo s.columns.length⟩ = I.bag s := by
  have hrecord : (I.holding id s).record ⟨id, n, upTo s.columns.length⟩ = I.record s := by
    funext row
    refine ext_getElem (by simp [record]) fun c _ hc ↦ ?_
    have hlt : c < s.columns.length := by simpa [record] using hc
    simp [record, upTo, held, holding, hlt]
  have hrows : (I.holding id s).rowsThere ⟨id, n, upTo s.columns.length⟩ = I.rowsThere s := by
    obtain ⟨k, rfl⟩ := Nat.exists_eq_add_of_le h
    have hdeleted (row : Nat) : (I.holding id s).deleted id row = (I.deleted s.id row || decide (s.rows ≤ row)) :=
      if_pos rfl
    simp only [rowsThere, range_add, filter_append, hdeleted]
    have hbeyond : ((List.range k).map (s.rows + ·)).filter
        (fun row : Nat ↦ !(I.deleted s.id row || decide (s.rows ≤ row))) = [] := by
      simp
    rw [hbeyond, append_nil]
    refine filter_congr fun row hrow ↦ ?_
    simp [mem_range.1 hrow]
  rw [bag, bag, hrecord, hrows]

/-- The interpretation in which results are in groups by their bags. -/
def sorting (I : Interpretation) (shapes : List Shape) (x y : Multiset Record) : Interpretation :=
  { I with belongs := fun q g ↦ shapes.any fun s ↦ s.id = q && I.bag s = if g = 0 then x else y }

theorem belongs_sorting (hids : ∀ s ∈ shapes, ∀ t ∈ shapes, s.id = t.id → s = t)
    (hs : s ∈ shapes) (x y : Multiset Record) (g : Int) :
    (I.sorting shapes x y).belongs s.id g = decide (I.bag s = if g = 0 then x else y) := by
  rw [Bool.eq_iff_iff, decide_eq_true_iff]
  change (shapes.any fun t ↦ t.id = s.id && I.bag t = if g = 0 then x else y) = true ↔ _
  simp only [any_eq_true, Bool.and_eq_true, decide_eq_true_iff]
  constructor
  · rintro ⟨t, ht, hid, hbag⟩
    rwa [hids s hs t ht hid.symm]
  · exact fun hbag ↦ ⟨s, hs, rfl, hbag⟩

/-- Only the two tables and the groups are changed. -/
theorem agreeOn_sorting_holding {p q : Int} {x y : Multiset Record} :
    AgreeOn (Spared p q) I (((I.holding p s).holding q t).sorting shapes x y) := by
  refine ⟨rfl, rfl, fun u hu hspared ↦ ?_⟩
  cases u with
  | cell => exact ((if_neg hspared.2).trans (if_neg hspared.1)).symm
  | null => exact congrArg Bool.toInt ((if_neg hspared.2).trans (if_neg hspared.1)).symm
  | deleted => exact congrArg Bool.toInt ((if_neg hspared.2).trans (if_neg hspared.1)).symm
  | belongs => exact hspared.elim
  | grouping | size | choice => rfl
  | _ => exact hu.elim

/-- Results with two bags between them can be put into groups with representatives that have room for them. -/
theorem exists_assigned {m n width : Nat} {p q : Int} (hpq : p ≠ q)
    (hfresh : ∀ s ∈ shapes, s.id ≠ p ∧ s.id ≠ q) (hids : ∀ s ∈ shapes, ∀ t ∈ shapes, s.id = t.id → s = t)
    (hroom : ∀ s ∈ shapes, s.rows ≤ m ∧ s.rows ≤ n) (hwidth : ∀ s ∈ shapes, s.columns.length = width)
    (h : I.TwoClasses shapes lo hi) :
    ∃ J, AgreeOn (Spared p q) I J ∧ (∀ s ∈ shapes, J.Assigned ⟨p, m, upTo width⟩ ⟨q, n, upTo width⟩ s) ∧
      (∀ g ∈ groups, Admits lo hi (J.population shapes g)) ∧ J.bag ⟨p, m, upTo width⟩ ≠ J.bag ⟨q, n, upTo width⟩ := by
  obtain ⟨x, y, hxy, heach, hsizes⟩ := h
  have hx := hsizes x (by simp)
  have hy := hsizes y (by simp)
  obtain ⟨s, hs, hsx⟩ := countP_pos_iff.1 hx.1
  obtain ⟨t, ht, hty⟩ := countP_pos_iff.1 hy.1
  rw [decide_eq_true_iff] at hsx hty
  -- The first representative holds a result with the one bag, and the second holds one with the other.
  set K := (I.holding p s).holding q t with hK
  have hkept {u : Shape} (hu : u ∈ shapes) : K.bag u = I.bag u := by
    rw [hK, bag_holding_of_ne (hfresh u hu).2, bag_holding_of_ne (hfresh u hu).1]
  have hfirst : K.bag ⟨p, m, upTo width⟩ = x := by
    rw [hK, bag_holding_of_ne hpq, ← hwidth s hs, bag_holding_self (hroom s hs).1, hsx]
  have hsecond : K.bag ⟨q, n, upTo width⟩ = y := by
    rw [hK, ← hwidth t ht, bag_holding_self (hroom t ht).2, bag_holding_of_ne (hfresh t ht).1, hty]
  set J := K.sorting shapes x y with hJ
  have hbelongs {u : Shape} (hu : u ∈ shapes) (g : Int) : J.belongs u.id g = decide (I.bag u = if g = 0 then x else y) := by
    rw [hJ, belongs_sorting hids hu, hkept hu]
  refine ⟨J, ?_, fun u hu ↦ ?_, fun g hg ↦ ?_, ?_⟩
  · exact agreeOn_sorting_holding
  · have hbag : J.bag u = I.bag u := hkept hu
    rw [Assigned, hbelongs hu, hbelongs hu, hbag]
    change _ ∧ _ ∧ I.bag u = K.bag _ ∨ _ ∧ _ ∧ I.bag u = K.bag _
    rw [hfirst, hsecond]
    rcases heach u hu with hu | hu
    · simp [hu, hxy]
    · simp [hu, hxy.symm]
  · have hcount : J.population shapes g = shapes.countP fun u ↦ I.bag u = if (g : Int) = 0 then x else y :=
      countP_congr fun u hu ↦ by rw [hbelongs hu]
    rw [hcount]
    rcases mem_groups.1 hg with rfl | rfl
    · exact hx
    · exact hy
  · change K.bag _ ≠ K.bag _
    rwa [hfirst, hsecond]

end Interpretation

open Disambiguation

/-- The goal that results fall into two groups is a formula that is found for results of the same width. Wherever it
is satisfied each result is in exactly one of the groups, the groups have sizes within the bounds and are not empty,
and results are in one group just if they have the same rows equally often. Conversely, if the results have two bags
between them that each occur as often as the bounds allow, then the formula can be satisfied by a change of the two
representatives and of what belongs to which group, as long as the results are tables with numbers of their own. The
bounds are what the arithmetic of floats makes of them, which is exact for a tolerance that is half of an integer. -/
theorem disambiguation_separates {w : Workspace} {outputs : List Nat} {shape : Nat → Shape} {width : Nat}
    {tolerance : Value} {lo hi : ℚ} (h : ∀ o ∈ outputs, Shape.ofTable (w.catalog.table o) = .ok (shape o))
    (hne : outputs ≠ []) (hwidth : ∀ o ∈ outputs, (shape o).columns.length = width)
    (hbounds : Bounds outputs.length tolerance lo hi) :
    ∃ f w', Gives (Verdict.disambiguation tolerance outputs) w () w' ∧
      w'.formulas = w.formulas.append f (some "disambiguation") ∧
      (∀ I : Interpretation, I.Satisfies f → I.Splits (outputs.map shape) lo hi) ∧
      ((∀ o ∈ outputs, (shape o).id ≤ w.lastTable) →
        (∀ o ∈ outputs, ∀ o' ∈ outputs, (shape o).id = (shape o').id → shape o = shape o') →
        ∀ I : Interpretation, I.TwoClasses (outputs.map shape) lo hi →
          ∃ J, I.AgreeOn (Term.Spared (w.lastTable + 1) (w.lastTable + 2)) J ∧ J.Satisfies f) ∧
      ∀ k, IsHalfOf tolerance k → outputs.length + k.natAbs < 2 ^ 52 →
        lo = (outputs.length - k) / 2 ∧ hi = (outputs.length + k) / 2 := by
  obtain ⟨m, n, least, most, v, hroom, hleast, hmost, hformulas, hgives⟩ := condition_gives h hne hwidth hbounds
  have hwide (s : Shape) (hs : s ∈ outputs.map shape) : s.columns.length = (upTo width).length := by
    obtain ⟨o, ho, rfl⟩ := mem_map.1 hs
    rw [hwidth o ho, length_upTo]
  have hiff (I : Interpretation) := I.satisfies_separation (a := ⟨w.lastTable + 1, m, upTo width⟩)
    (b := ⟨w.lastTable + 2, n, upTo width⟩) hwide rfl hleast hmost
  refine ⟨separation (outputs.map shape) ⟨w.lastTable + 1, m, upTo width⟩ ⟨w.lastTable + 2, n, upTo width⟩ least most, _,
    bind_iff.2 ⟨_, v, hgives, modify_iff.2 rfl⟩, ?_, fun I hI ↦ ?_, fun hused hids I hI ↦ ?_,
    fun k hk hsmall ↦ hbounds.unique (bounds_of_isHalfOf hk hsmall)⟩
  · rw [← hformulas]
  · obtain ⟨hassigned, hsizes, hdiffer⟩ := (hiff I).1 hI
    exact splits_of_assigned hassigned hsizes hdiffer
  · have hfresh (o : Nat) (ho : o ∈ outputs) : (shape o).id ≠ w.lastTable + 1 ∧ (shape o).id ≠ w.lastTable + 2 := by
      have := hused o ho
      omega
    obtain ⟨J, hagree, hJ⟩ := exists_assigned (by omega) (forall_mem_map.2 hfresh)
      (forall_mem_map.2 fun o ho ↦ forall_mem_map.2 (hids o ho)) (forall_mem_map.2 hroom)
      (forall_mem_map.2 hwidth) hI
    exact ⟨J, hagree, (hiff J).2 hJ⟩

/-- Three tables of a column, with room for one, one and two rows. -/
def threeTables : Workspace where
  lastTable := 2
  catalog := { tables := #[
    { id := 0, name := .str "r", bound := .int 1, columns := [.computed 0 (.str "a") .null] },
    { id := 1, name := .str "s", bound := .int 1, columns := [.computed 0 (.str "b") .null] },
    { id := 2, name := .str "t", bound := .int 2, columns := [.computed 0 (.str "c") .null] }] }

/-- Three results are told apart in groups of one and of two, and if one of them has a row and the others have none
then that is found. -/
theorem threeTables_disambiguation : ∃ f w', Gives (Verdict.disambiguation (.int 1) [0, 1, 2]) threeTables () w' ∧
    w'.formulas = threeTables.formulas.append f (some "disambiguation") ∧
    (∀ I : Interpretation, I.Satisfies f → I.Splits [⟨0, 1, [0]⟩, ⟨1, 1, [0]⟩, ⟨2, 2, [0]⟩] (1 / 2) (5 / 2)) ∧
    ∀ I : Interpretation, I.deleted 0 0 = false → (∀ row, I.deleted 1 row = true ∧ I.deleted 2 row = true) →
      ∃ J, I.AgreeOn (Term.Spared 3 4) J ∧ J.Satisfies f := by
  have hhalf : IsHalfOf (.int 1) 2 := isHalfOf_int (r := 1) (by decide)
  let shape (o : Nat) : Shape := ⟨o, o.max 1, [0]⟩
  have hshape : ∀ o ∈ [0, 1, 2], ofTable (threeTables.catalog.table o) = .ok (shape o) :=
    forall_mem_cons.2 ⟨rfl, forall_mem_cons.2 ⟨rfl, forall_mem_singleton.2 rfl⟩⟩
  have hwidth : ∀ o ∈ [0, 1, 2], (shape o).columns.length = 1 := fun _ _ ↦ rfl
  obtain ⟨f, w', hgives, hformulas, hsplits, hexists, -⟩ :=
    disambiguation_separates hshape (by decide) hwidth (bounds_of_isHalfOf hhalf (by decide))
  refine ⟨f, w', hgives, hformulas, fun I hI ↦ ?_, fun I hfirst hothers ↦ hexists (by decide) ?_ I ?_⟩
  · have := hsplits I hI
    norm_num at this ⊢
    exact this
  · intro o _ o' _ hid
    rw [Int.ofNat_inj.1 hid]
  · have hone : I.bag ⟨0, 1, [0]⟩ = {[I.held 0 0 0]} := by
      simp [bag, rowsThere, record, range_succ, hfirst]
    have hnone {t : Int} {n : Nat} (ht : t = 1 ∨ t = 2) : I.bag ⟨t, n, [0]⟩ = 0 := by
      have hdeleted (row : Int) : I.deleted t row = true := by
        rcases ht with rfl | rfl
        · exact (hothers row).1
        · exact (hothers row).2
      simp [bag, rowsThere, hdeleted]
    refine ⟨{[I.held 0 0 0]}, 0, by simp, ?_, ?_⟩
    · simp [shape, hone, hnone]
    · simp [shape, hone, hnone, Admits]
      norm_num

end QueryEquiv
