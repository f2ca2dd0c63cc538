import QueryEquiv.Proofs.Lineages

/-!
# Choices are decisions

The search excludes a conflict by the choices of the tables that the labels in it stand for. This makes sense
only if each of these choices is a decision, that is, if the formulas under the label leave nothing but one and
zero for it.

How many choices a table has follows from its bound and from the words in its lineage; which choices a formula
decides follows from the loops of its operator. The two agree for filters, projections, groupings, unions, the
elimination of duplicates, and for joins of pairs (`choices_decided`). They do not agree for outer joins, whose
formulas decide only on the pairs.

Each operator is looked at once. What it does to the labels is related to the workspace before it (`Settles`),
so that queries inside its expressions, which are encoded while its own formula is still missing, do no harm.
-/

namespace QueryEquiv

open Table Formulas Catalog Outcome List Workspace Expression Operator Search Option Value

variable {a v : Value} {k : Int} {fs : Formulas} {m n p place : Nat} {t : Table} {ls : List (Option String)}

/-! ## Bounds -/

/-- A sum or product is a whole number only where both operands are. -/
theorem Value.arith_eq_ok {op : Arith} (hop : op = .add ∨ op = .mul) {b : Value} (h : Value.arith op a b = .ok v)
    (hv : v.integer? = some k) :
    ∃ i j, a.integer? = some i ∧ b.integer? = some j ∧ v = .int (if op = .add then i + j else i * j) := by
  unfold arith at h
  split at h
  · cases h
    cases hv
  · cases h
    cases hv
  · split at h
    · cases h
      exact ⟨_, _, ‹_›, ‹_›, rfl⟩
    · simp at hop
    · cases h
      exact ⟨_, _, ‹_›, ‹_›, rfl⟩
    · split at h
      · cases h
        cases hv
      · cases h
        cases hv
      · simp only [bind_ok_iff, pure_ok_iff] at h
        obtain ⟨_, -, _, -, rfl⟩ := h
        cases hv
    · split at h
      · cases h
        cases hv
      · cases h
        cases hv
      · simp only [bind_ok_iff, pure_ok_iff] at h
        obtain ⟨_, -, _, -, rfl⟩ := h
        cases hv
    · split at h
      · simp only [bind_ok_iff] at h
        obtain ⟨_, -, _, -, h⟩ := h
        rcases hop with rfl | rfl
        · obtain rfl := pure_ok_iff.1 h
          cases hv
        · obtain rfl := pure_ok_iff.1 h
          cases hv
      · cases h

namespace Table

variable {t : Table} {n : Nat}

/-- A table has a choice for each row, or two if it is grouped. -/
theorem choiceCount_of_rows (h : t.rows = .ok n) :
    choiceCount t = .ok (if t.mentionsIfAny "Grouped" then n * 2 else n) := by
  obtain ⟨i, hi, rfl⟩ := rows_eq_ok.1 h
  unfold choiceCount
  cases hb : t.bound with
  | int k =>
    obtain rfl : k = i := by simpa [hb, integer?] using hi
    split_ifs <;> simp [arith, integer?, bind, Except.bind, pure, Except.pure]
    omega
  | bool b =>
    obtain rfl : (if b then 1 else 0) = i := by simpa [hb, integer?] using hi
    by_cases hm : t.mentionsIfAny "Grouped" = true <;> cases b <;>
      simp [hm, arith, integer?, bind, Except.bind, pure, Except.pure]
  | _ => simp [hb, integer?] at hi

/-- What tells its lineage and begins with none of the two words is not taken for a grouping or for what has no
duplicates. -/
theorem Told.plain (h : t.Told) {first : String} (hfirst : t.Begins first)
    (hword : ∀ word ∈ ["Group", "Duplicate"], ¬ first.toList <+: word.toList ∧ ¬ word.toList <+: first.toList) :
    t.mentionsIfAny "Group" = false ∧ t.mentionsIfAny "Duplicate" = false :=
  ⟨h.not_mentions "Group" hfirst (by decide) (hword _ (by decide)).1 (hword _ (by decide)).2,
    h.not_mentions "Duplicate" hfirst (by decide) (hword _ (by decide)).1 (hword _ (by decide)).2⟩

end Table

namespace Operator.Join.Kind

/-- The largest number of rows of a join of tables with so many rows. -/
def count : Kind → Int → Int → Int
  | inner, i, j | product, i, j => i * j
  | left, i, j => i * j + i
  | right, i, j => i * j + j
  | full, i, j => i * j + i + j

theorem bound_eq_ok {kind : Kind} {b : Value} (h : kind.bound a b = .ok v) (hv : v.integer? = some k) :
    ∃ i j, a.integer? = some i ∧ b.integer? = some j ∧ v = .int (kind.count i j) := by
  unfold bound at h
  obtain ⟨pairs, hpairs, h⟩ := bind_ok_iff.1 h
  have product {x : Int} (hx : pairs.integer? = some x) :
      ∃ i j, a.integer? = some i ∧ b.integer? = some j ∧ pairs = .int (i * j) := by
    simpa using arith_eq_ok (.inr rfl) hpairs hx
  have sum {c d u : Value} {x : Int} (h : c.arith .add d = .ok u) (hu : u.integer? = some x) :
      ∃ i j, c.integer? = some i ∧ d.integer? = some j ∧ u = .int (i + j) := by
    simpa using arith_eq_ok (.inl rfl) h hu
  have plain (h : pure pairs = Except.ok (ε := Fault) v) :
      ∃ i j, a.integer? = some i ∧ b.integer? = some j ∧ v = .int (i * j) := by
    obtain rfl := pure_ok_iff.1 h
    exact product hv
  cases kind with
  | inner => exact plain h
  | product => exact plain h
  | left =>
    obtain ⟨x, y, hx, hy, rfl⟩ := sum h hv
    obtain ⟨i, j, hi, hj, rfl⟩ := product hx
    obtain rfl : i = y := some_inj.1 (hi.symm.trans hy)
    cases hx
    exact ⟨i, j, hi, hj, rfl⟩
  | right =>
    obtain ⟨x, y, hx, hy, rfl⟩ := sum h hv
    obtain ⟨i, j, hi, hj, rfl⟩ := product hx
    obtain rfl : j = y := some_inj.1 (hj.symm.trans hy)
    cases hx
    exact ⟨i, j, hi, hj, rfl⟩
  | full =>
    obtain ⟨more, hmore, h⟩ := bind_ok_iff.1 h
    obtain ⟨z, y', hz, hy', rfl⟩ := sum h hv
    obtain ⟨x, y, hx, hy, rfl⟩ := sum hmore hz
    obtain ⟨i, j, hi, hj, rfl⟩ := product hx
    obtain rfl : i = y := some_inj.1 (hi.symm.trans hy)
    obtain rfl : j = y' := some_inj.1 (hj.symm.trans hy')
    cases hx
    cases hz
    exact ⟨i, j, hi, hj, rfl⟩

end Operator.Join.Kind

/-- The rows of a union are at most those of its inputs together. -/
theorem union_bound {ts : List Table} (h : ts.foldlM (fun (n : Value) t ↦ n.arith .add t.bound) a = .ok v)
    (hv : v.integer? = some k) :
    ∃ (i : Int) (ns : List Nat), a.integer? = some i ∧ Forall₂ (fun t n ↦ t.rows = .ok n) ts ns ∧
      k ≤ i + (ns.sum : Nat) := by
  induction ts generalizing a with
  | nil =>
    obtain rfl := pure_ok_iff.1 h
    exact ⟨k, [], hv, .nil, by simp⟩
  | cons t ts ih =>
    rw [foldlM_cons, bind_ok_iff] at h
    obtain ⟨b, hb, h⟩ := h
    obtain ⟨i, ns, hi, hns, hk⟩ := ih h
    obtain ⟨x, y, hx, hy, rfl⟩ := arith_eq_ok (.inl rfl) hb hi
    cases hi
    refine ⟨x, y.toNat :: ns, hx, .cons (rows_eq_ok.2 ⟨y, hy, rfl⟩) hns, hk.trans ?_⟩
    rw [sum_cons, if_pos rfl]
    push_cast
    have := Int.self_le_toNat y
    omega

/-! ## Labels -/

/-- A table bears a label: that of its clause and that of the grouping behind it, or that of the elimination of
duplicates. Sorted tables have no choices of their own and bear none. -/
def Table.Bears (t : Table) (l : String) : Prop :=
  t.Made ∧ ¬ t.Begins "Sorted" ∧ ∃ o, t.origin = some o ∧
    (t.mentionsIfAny "Duplicate" = true ∧ o.distinct = some (some l) ∨
      t.mentionsIfAny "Duplicate" = false ∧
        (o.label = some l ∨ t.mentionsIfAny "Group" = true ∧ o.grouping = some (some l)))

/-- The formulas under a label leave only one and zero for the first choices of a table. -/
def Formulas.Decides (fs : Formulas) (l : String) (id : Int) (count : Nat) : Prop :=
  ∀ I : Interpretation, (∀ f ∈ fs.entries, f.label = l → I.Holds f.term) →
    ∀ b < count, I.choice id (b : Nat) = 1 ∨ I.choice id (b : Nat) = 0

/-- A table has a bound, or it is sorted and had it before it got a limit. -/
def Workspace.Bounds (w : Workspace) (place : Nat) (i : Int) : Prop :=
  (w.catalog.table place).bound.integer? = some i ∨ (w.catalog.table place).Begins "Sorted"

/-- The tables that have more choices than their formulas decide: outer joins, of which at most the pairs are decided,
and joins of two tables whose bounds are negative, so that their product is not. -/
inductive Workspace.Spares (w : Workspace) (t : Table) : Nat → Prop
  | outer {left right : Nat} {i j : Int} {kind : Join.Kind} (hkind : kind = .left ∨ kind = .right)
      (ancestors : t.ancestors = [.one left, .one right]) (hleft : w.Bounds left i) (hright : w.Bounds right j)
      (bound : t.bound = .int (kind.count i j)) : w.Spares t (i.toNat * j.toNat)
  | full {left right : Nat} {i j : Int} (ancestors : t.ancestors = [.one left, .one right])
      (hleft : w.Bounds left i) (hright : w.Bounds right j) (bound : t.bound = .int (i * j + i + j)) : w.Spares t 0
  | negative {left right : Nat} {i j : Int} (ancestors : t.ancestors = [.one left, .one right])
      (hleft : w.Bounds left i) (hright : w.Bounds right j) (hi : i < 0) (hj : j < 0)
      (bound : t.bound = .int (i * j)) : w.Spares t 0

/-- A table of a number has choices, which are decided under a label, all of them unless it is spared. -/
def Workspace.Settled (w : Workspace) (l : String) (id : Int) : Prop :=
  ∃ p n m, (w.catalog.table p).id = id ∧ (w.catalog.table p).Made ∧ ¬ (w.catalog.table p).Begins "Sorted" ∧
    choiceCount (w.catalog.table p) = .ok n ∧ w.formulas.Decides l id m ∧ (m = n ∨ w.Spares (w.catalog.table p) m)

section Labels

variable {w w' : Workspace} {t u : Table} {l : String} {id : Int}

theorem Formulas.Decides.extend {gs : Formulas} (h : fs.Decides l id n) (hext : gs.Extends fs) : gs.Decides l id n :=
  fun I hI ↦ h I (hext I l hI)

theorem Formulas.decides_append {term : Term} (h : term.Decides id n) : (fs.append term (some l)).Decides l id n :=
  fun I hI ↦ h I (holds_under_append hI).1

/-- Who bears a label is told by the lineage and the labels of the clause. -/
theorem Table.bears_congr (hlineage : t.lineage = u.lineage) (horigin : t.origin = u.origin) :
    t.Bears l ↔ u.Bears l := by
  simp only [Bears, Made, Begins, mentionsIfAny, hlineage, horigin]

theorem Table.Stems.bears_iff (h : t.Stems u) (horigin : t.origin = u.origin) : t.Bears l ↔ u.Bears l := by
  rw [Bears, Bears, h.made_iff, h.sorted_iff, h.mentionsIfAny_eq, h.mentionsIfAny_eq, horigin]

theorem Catalog.Like.bears_iff (h : Like t u) : t.Bears l ↔ u.Bears l := by
  obtain ⟨as, rfl⟩ := h
  exact bears_congr rfl rfl

theorem Chain.bears_iff (h : Chain w w') (hp : p < w.catalog.tables.size) :
    (w'.catalog.table p).Bears l ↔ (w.catalog.table p).Bears l := by
  obtain ⟨hkin, horigin⟩ := h.kin hp
  exact (hkin.stems (.inl horigin)).bears_iff horigin

theorem Catalog.lt_size_of_bears {c : Catalog} (h : (c.table p).Bears l) : p < c.tables.size :=
  lt_size_of_made h.1

/-- What a number stands for does not change once it is in use. -/
theorem Change.lookup_full {w₀ : Workspace} (h : Change w₀ w w') (hid : id ≤ w.lastTable) :
    w'.formulas.fullTable.lookup id = w.formulas.fullTable.lookup id := by
  cases h with
  | still h => rw [h.full]
  | make _ hnew _ _ _ _ formulas =>
    rcases formulas with rfl | ⟨-, full, rfl⟩
    · rfl
    · refine lookup_put.trans (if_neg (mt beq_iff_eq.1 ?_))
      omega
  | project => rfl
  | share shares => rw [shares.full]

theorem Chain.lookup_full (h : Chain w w') (hid : id ≤ w.lastTable) :
    w'.formulas.fullTable.lookup id = w.formulas.fullTable.lookup id :=
  (h.induct (P := fun v ↦ w.lastTable ≤ v.lastTable ∧
      v.formulas.fullTable.lookup id = w.formulas.fullTable.lookup id) ⟨le_rfl, rfl⟩ fun _ _ hv hc ↦
    ⟨hv.1.trans hc.last_le, (hc.lookup_full (hid.trans hv.1)).trans hv.2⟩).2

theorem fullId_congr {w w' : Workspace} {q : Nat} (hid : (w'.catalog.table q).id = (w.catalog.table p).id)
    (hlookup : w'.formulas.fullTable.lookup (w.catalog.table p).id = w.formulas.fullTable.lookup (w.catalog.table p).id) :
    w'.fullId q = w.fullId p := by
  rw [fullId, fullId, hid, hlookup]

theorem Chain.fullId_eq (h : Chain w w') (hw : Kept w) (hp : (w.catalog.table p).Made) : w'.fullId p = w.fullId p :=
  fullId_congr (h.kin (lt_size_of_made hp)).1.id (h.lookup_full (hw.counted p hp))

namespace Workspace

theorem Bounds.lt_size {i : Int} (h : w.Bounds place i) : place < w.catalog.tables.size := by
  by_contra hge
  rw [Bounds, table_of_size_le (not_lt.1 hge)] at h
  rcases h with h | ⟨s, hs, -⟩
  · cases h
  · cases hs

theorem Bounds.chain {i : Int} (h : w.Bounds place i) (hc : Chain w w') : w'.Bounds place i := by
  have hkin := (hc.kin h.lt_size).1
  rw [Bounds, hkin.bound]
  exact h.imp_right hkin.begins

theorem Spares.congr (h : w.Spares u m) (hancestors : t.ancestors = u.ancestors) (hbound : t.bound = u.bound)
    (hbounds : ∀ {place i}, w.Bounds place i → w'.Bounds place i) : w'.Spares t m := by
  cases h with
  | outer hkind ancestors hleft hright bound =>
    exact .outer hkind (hancestors.trans ancestors) (hbounds hleft) (hbounds hright) (hbound.trans bound)
  | full ancestors hleft hright bound =>
    exact .full (hancestors.trans ancestors) (hbounds hleft) (hbounds hright) (hbound.trans bound)
  | negative ancestors hleft hright hi hj bound =>
    exact .negative (hancestors.trans ancestors) (hbounds hleft) (hbounds hright) hi hj (hbound.trans bound)

theorem Spares.length_ancestors (h : w.Spares t m) : t.ancestors.length = 2 := by
  cases h with
  | outer _ ancestors | full ancestors | negative ancestors =>
    rw [ancestors]
    rfl

/-- Where all bounds are one, no table is an outer join, and none has a negative bound. -/
theorem not_spares (hone : ∀ p < w.catalog.tables.size, (w.catalog.table p).bound.integer? = some 1 ∧
    ¬ (w.catalog.table p).Begins "Sorted") : ¬ w.Spares (w.catalog.table p) m := by
  intro hspares
  have bounded {p : Nat} {i : Int} (h : w.Bounds p i) : i = 1 := by
    obtain ⟨hbound, hnot⟩ := hone p h.lt_size
    rw [h.resolve_right hnot] at hbound
    exact some_inj.1 hbound
  have hp : (w.catalog.table p).bound.integer? = some 1 := by
    refine (hone p (lt_of_not_ge fun hge ↦ ?_)).1
    have htwo := hspares.length_ancestors
    rw [table_of_size_le hge] at htwo
    cases htwo
  cases hspares with
  | outer hkind _ hleft hright hbound =>
    obtain rfl := bounded hleft
    obtain rfl := bounded hright
    rw [hbound] at hp
    rcases hkind with rfl | rfl <;> cases hp
  | full _ hleft hright hbound =>
    obtain rfl := bounded hleft
    obtain rfl := bounded hright
    rw [hbound] at hp
    cases hp
  | negative _ hleft _ hi =>
    obtain rfl := bounded hleft
    exact absurd hi (by decide)

theorem Settled.chain (h : w.Settled l id) (hc : Chain w w') : w'.Settled l id := by
  obtain ⟨p, n, m, hid, hmade, hsorted, hn, hm, hmn⟩ := h
  have hp := lt_size_of_made hmade
  obtain ⟨hkin, horigin⟩ := hc.kin hp
  have hstems := hkin.stems (.inl horigin)
  refine ⟨p, n, m, hkin.id.trans hid, hkin.made_iff.2 hmade, mt hstems.sorted_iff.1 hsorted, ?_,
    hm.extend hc.extends_formulas, hmn.imp_right fun h ↦ h.congr hkin.ancestors hkin.bound fun h ↦ h.chain hc⟩
  rw [hstems.choiceCount_eq hsorted, hn]

end Workspace

end Labels

/-! ## Steps -/

/-- Whoever bears a label after a number of steps has it settled, or stands for the same number as a table that bore
it before. -/
structure Settles (w₀ w : Workspace) : Prop where
  chain : Chain w₀ w
  bears : Kept w₀ → Aligned w₀ → w.Told → ∀ q l, (w.catalog.table q).Bears l →
    w.Settled l (w.fullId q) ∨ ∃ p, (w₀.catalog.table p).Bears l ∧ w₀.fullId p = w.fullId q

namespace Settles

variable {w₀ w w' : Workspace}

/-- What bore a label before stands for the same number. -/
theorem older (hc : Chain w₀ w) (hkept : Kept w₀) {q : Nat} {l : String} (hq : q < w₀.catalog.tables.size)
    (h : (w.catalog.table q).Bears l) : (w₀.catalog.table q).Bears l ∧ w₀.fullId q = w.fullId q := by
  have hbears := (hc.bears_iff hq).1 h
  exact ⟨hbears, (hc.fullId_eq hkept hbears.1).symm⟩

theorem still (h : Chain w w') (hsize : w'.catalog.tables.size = w.catalog.tables.size) : Settles w w' := by
  refine ⟨h, fun hkept _ _ q l hq ↦ .inr ⟨q, older h hkept ?_ hq⟩⟩
  rw [← hsize]
  exact lt_size_of_bears hq

theorem passage : Passage Settles where
  chain h := h.chain
  trans {w₀ w w'} h g := by
    refine ⟨h.chain.trans g.chain, fun hkept haligned htold q l hq ↦ ?_⟩
    have htold' := g.chain.told htold
    have hkept' := h.chain.kept hkept
    rcases g.bears hkept' (h.chain.aligned hkept htold' haligned) htold q l hq with hs | ⟨p, hp, hid⟩
    · exact .inl hs
    · rw [← hid]
      exact (h.bears hkept haligned htold' p l hp).imp_left fun hs ↦ hs.chain g.chain
  calm h := still h.chain h.size

theorem copy {c : Catalog} (h : Copied w.catalog c) : Settles w { w with catalog := c } := by
  refine ⟨(Chain.refl w).step (.copy h), fun _ _ _ q l hq ↦ ?_⟩
  obtain ⟨p, hlike⟩ := h.like q
  have hid : Workspace.fullId { w with catalog := c } q = w.fullId p := fullId_congr hlike.stems.id rfl
  exact .inr ⟨p, hlike.bears_iff.1 hq, hid.symm⟩

theorem share {db : Database} (h : Shares w place n t db fs) : Settles w
      { w with lastTable := w.lastTable + 1, catalog := (w.catalog.add t).2, database := db, formulas := fs } := by
  have hchain := (Chain.refl w).step (.share h)
  refine ⟨hchain, fun hkept _ htold q l hq ↦ .inr ⟨q, older hchain hkept ?_ hq⟩⟩
  have hlt := lt_size_of_bears hq
  rcases eq_or_ne q w.catalog.tables.size with rfl | hne
  · -- The alias is recognised as a scanned table, so no operator has made it.
    have hself : (w.catalog.add t).2.table w.catalog.tables.size = t := table_add_self
    rw [hself] at hq
    exact absurd (h.begins htold) hq.1.not_begins
  · have : (w.catalog.add t).2.tables.size = w.catalog.tables.size + 1 := size_add
    have : q < (w.catalog.add t).2.tables.size := hlt
    omega

section Applying

variable {place : Nat} {t : Table} {v v₁ : Workspace} {cut : Option Nat} {term : Term} {label : Option String} {out : Nat}

/-- After a table was made and maybe cut down, a label is borne by the table itself or was borne before. -/
theorem bears_made (hkept : Kept w) (hmade : Placed w place t v) (hcut : Cut v place cut v₁) {l : String}
    (hp : (v₁.catalog.table p).Bears l) : t.Bears l ∧ (w.formulas.fullTable.lookup t.id = none → v₁.fullId p = t.id) ∨
      ∃ q, (w.catalog.table q).Bears l ∧ w.fullId q = v₁.fullId p := by
  have hlast : t.id ≤ v.lastTable := by
    have := (hmade.chain.kept hkept).counted place (hmade.table ▸ hmade.made)
    rwa [hmade.table] at this
  have hself (hnone : w.formulas.fullTable.lookup t.id = none) : v.fullId place = t.id := by
    rw [fullId, hmade.table, hmade.full, hnone]
    rfl
  rcases eq_or_ne p (cut.getD place) with rfl | hne
  · rw [bears_congr hcut.lineage hcut.origin, hmade.table] at hp
    refine .inl ⟨hp, fun hnone ↦ ?_⟩
    rw [hcut.full (by rw [hmade.table, hmade.full, hnone]), hmade.table]
  · obtain ⟨q, hlike⟩ := hcut.like p hne
    rw [hlike.bears_iff] at hp
    rcases eq_or_ne q place with rfl | hqne
    · rw [hmade.table] at hp
      refine .inl ⟨hp, fun hnone ↦ (fullId_congr hlike.stems.id ?_).trans (hself hnone)⟩
      rw [hmade.table]
      exact hcut.chain.lookup_full hlast
    · obtain ⟨r, hlike'⟩ := hmade.like q hqne
      rw [hlike'.bears_iff] at hp
      exact .inr ⟨r, hp, (fullId_congr (hlike.stems.id.trans hlike'.stems.id)
        ((hmade.chain.trans hcut.chain).lookup_full (hkept.counted r hp.1))).symm⟩

/-- An operator settles the labels of its table, or the table takes them over. -/
theorem applied (h : Applied Settles w t term label out w')
    (hfull : Kept w → Aligned w → w.Told → w.formulas.fullTable.lookup t.id = none)
    (hself : Kept w → Aligned w → w.Told → t.Told → ∀ l, t.Bears l →
      (label = some l ∧ ∃ n m, choiceCount t = .ok n ∧ term.Decides t.id m ∧ (m = n ∨ w.Spares t m)) ∨
        ∃ p, (w.catalog.table p).Bears l ∧ w.fullId p = t.id) : Settles w w' := by
  have hchain := h.chain passage.walk
  cases h with
  | @intro place v v₁ u cut hmade hcut hreads =>
    refine ⟨hchain, fun hkept haligned htold q l hq ↦ ?_⟩
    have hcutChain := hmade.chain.trans hcut.chain
    have hlast := (Chain.refl u).append term label
    have htoldu := hlast.told htold
    have htold₁ := hreads.chain.told htoldu
    have htold₀ := hcutChain.told htold₁
    have htoldt := hcut.chain.told htold₁ place hmade.entered
    rw [hmade.table] at htoldt
    have hid : Workspace.fullId { u with formulas := u.formulas.append term label } q = u.fullId q :=
      fullId_congr rfl (by rw [fullTable_append])
    rw [hid]
    rcases hreads.bears (hcutChain.kept hkept) (hcutChain.aligned hkept htold₁ haligned) htoldu q l hq with
      hs | ⟨p, hp, hpid⟩
    · exact .inl (hs.chain hlast)
    rw [← hpid]
    rcases bears_made hkept hmade hcut hp with ⟨hbears, hfid⟩ | hold
    · rw [hfid (hfull hkept haligned htold₀)]
      refine (hself hkept haligned htold₀ htoldt l hbears).imp_left ?_
      rintro ⟨rfl, n, m, hn, hm, hmn⟩
      have hrest : Chain v { u with formulas := u.formulas.append term (some l) } :=
        (hcut.chain.trans hreads.chain).append term (some l)
      have hkin := (hrest.kin hmade.entered).1
      rw [hmade.table] at hkin
      refine ⟨place, n, m, hkin.id, hkin.made_iff.2 hbears.1, mt (hkin.begins_iff).1 hbears.2.1, ?_,
        decides_append hm, hmn.imp_right fun h ↦ h.congr hkin.ancestors hkin.bound fun h ↦ h.chain hchain⟩
      rw [← hn]
      exact choiceCount_congr hkin.bound ((hkin.stems (.inr hbears.1)).mentionsIfAny_eq)
    · exact .inr hold

/-- A limit changes the bound of a sorted table only, and that settles nothing. -/
theorem limited {u : Workspace} (h : Limited w place u w') (hu : Settles w u) : Settles w w' := by
  cases h with
  | none => exact hu
  | some limit hnew hentered hsorted =>
    have hchange : Change w u { u with catalog := u.catalog.modify place ({ · with bound := limit }) } :=
      .limit limit hnew hsorted
    have hself : ((u.catalog.modify place ({ · with bound := limit })).table place).Begins "Sorted" := by
      rw [table_modify_self hentered]
      exact hsorted
    have hsame {q : Nat} (hq : place ≠ q) :
        (u.catalog.modify place ({ · with bound := limit })).table q = u.catalog.table q :=
      table_modify_of_ne hq
    refine ⟨hu.chain.step hchange, fun hkept haligned htold q l hq ↦ ?_⟩
    have hne : place ≠ q := fun h ↦ hq.2.1 (h ▸ hself)
    dsimp only at hq
    rw [hsame hne] at hq
    rw [show Workspace.fullId { u with catalog := u.catalog.modify place ({ · with bound := limit }) } q = u.fullId q
      from fullId_congr (congrArg Table.id (hsame hne)) rfl]
    refine (hu.bears hkept haligned (hchange.told htold) q l hq).imp_left ?_
    rintro ⟨p, n, m, hid, hmade, hp, hn, hm, hmn⟩
    refine ⟨p, n, m, ?_⟩
    dsimp only
    have hne : place ≠ p := fun h ↦ hp (h ▸ hsorted)
    rw [hsame hne]
    refine ⟨hid, hmade, hp, hn, hm, hmn.imp_right fun h ↦ h.congr rfl rfl ?_⟩
    intro r i hr
    rw [Bounds] at hr ⊢
    dsimp only
    rcases eq_or_ne place r with rfl | hne
    · exact .inr hself
    · rwa [hsame hne]

end Applying

/-! ### Operators -/

section Operators

variable {t : Table} {term : Term} {label : Option String} {out : Nat}

theorem fresh (h : Applied Settles w t term label out w') (hid : t.id = w.lastTable + 1)
    (hself : t.Told → ∀ l, t.Bears l →
      label = some l ∧ ∃ n m, choiceCount t = .ok n ∧ term.Decides t.id m ∧ (m = n ∨ w.Spares t m)) : Settles w w' := by
  refine applied h (fun hkept _ _ ↦ ?_) fun _ _ _ htold l hl ↦ .inl (hself htold l hl)
  rw [hid]
  exact hkept.lookup_next

theorem ordered (h : Ordered Settles w out w') : Settles w w' := by
  cases h with
  | intro id sorted _ _ applied hlimited => exact limited hlimited (fresh applied id fun _ _ hl ↦ absurd sorted hl.2.1)

/-- Most operators have one label and a choice for each row. -/
theorem plain (h : Applied Settles w t term label out w') (hid : t.id = w.lastTable + 1) {first : String}
    (hfirst : t.Begins first)
    (hword : ∀ word ∈ ["Group", "Duplicate"], ¬ first.toList <+: word.toList ∧ ¬ word.toList <+: first.toList)
    (horigin : ∀ o, t.origin = some o → o.label = label)
    (hdecides : ∀ n, t.rows = .ok n → ∃ m, term.Decides t.id m ∧ (m = n ∨ w.Spares t m)) : Settles w w' := by
  refine fresh h hid fun htold l hl ↦ ?_
  obtain ⟨hgroup, hduplicate⟩ := htold.plain hfirst hword
  obtain ⟨-, -, o, ho, hl⟩ := hl
  obtain ⟨n, hn⟩ := h.rows
  obtain ⟨m, hm, hmn⟩ := hdecides n hn
  refine ⟨?_, n, m, ?_, hm, hmn⟩
  · rw [← horigin o ho]
    simpa [hgroup, hduplicate] using hl
  · rw [choiceCount_of_rows hn, if_neg]
    intro hgrouped
    rw [mentions_of_part hgrouped] at hgroup
    cases hgroup

/-- The pairs of a join are decided. These are all its choices, but for outer joins and negative bounds. -/
theorem spares_joined {left right k : Nat} {kind : Join.Kind} {r : Join.Request} {bound : Value} {text : String}
    (hbound : kind.bound (w.catalog.table left).bound (w.catalog.table right).bound = .ok bound)
    (hdecides : kind = .full ∨ RowsOf w left right m n ∧ term.Decides (w.lastTable + 1) (m * n))
    (hk : (joinedTable w left right r bound text).rows = .ok k) :
    ∃ m, term.Decides (w.lastTable + 1) m ∧ (m = k ∨ w.Spares (joinedTable w left right r bound text) m) := by
  obtain ⟨x, hx, rfl⟩ := rows_eq_ok.1 hk
  obtain ⟨i, j, hi, hj, rfl⟩ := Join.Kind.bound_eq_ok hbound hx
  have hleft : w.Bounds left i := .inl hi
  have hright : w.Bounds right j := .inl hj
  have none : term.Decides (w.lastTable + 1) 0 := fun _ _ _ hb ↦ absurd hb (Nat.not_lt_zero _)
  have pairs (hkind : kind ≠ .full) : term.Decides (w.lastTable + 1) (i.toNat * j.toNat) := by
    obtain ⟨hrows, hdecides⟩ := hdecides.resolve_left hkind
    obtain ⟨_, hi', rfl⟩ := rows_eq_ok.1 (hrows.left hleft.lt_size)
    obtain ⟨_, hj', rfl⟩ := rows_eq_ok.1 (hrows.right hright.lt_size)
    cases hi.symm.trans hi'
    cases hj.symm.trans hj'
    exact hdecides
  have inner (hkind : kind ≠ .full) (hx : x = i * j) (hcount : kind.count i j = i * j) :
      ∃ m, term.Decides (w.lastTable + 1) m ∧
        (m = x.toNat ∨ w.Spares (joinedTable w left right r (.int (kind.count i j)) text) m) := by
    by_cases hneg : i < 0 ∧ j < 0
    · exact ⟨0, none, .inr (.negative rfl hleft hright hneg.1 hneg.2 (congrArg int hcount))⟩
    · refine ⟨_, pairs hkind, .inl ?_⟩
      rw [hx]
      rcases lt_or_ge i 0 with hi | hi
      · have hj : 0 ≤ j := by omega
        rw [Int.toNat_of_nonpos hi.le, Int.toNat_of_nonpos (mul_nonpos_of_nonpos_of_nonneg hi.le hj), zero_mul]
      · rcases lt_or_ge j 0 with hj | hj
        · rw [Int.toNat_of_nonpos hj.le, Int.toNat_of_nonpos (mul_nonpos_of_nonneg_of_nonpos hi hj.le), mul_zero]
        · rw [Int.toNat_mul hi hj]
  cases hx
  cases kind with
  | inner => exact inner (by decide) rfl rfl
  | product => exact inner (by decide) rfl rfl
  | left => exact ⟨_, pairs (by decide), .inr (.outer (.inl rfl) rfl hleft hright rfl)⟩
  | right => exact ⟨_, pairs (by decide), .inr (.outer (.inr rfl) rfl hleft hright rfl)⟩
  | full => exact ⟨0, none, .inr (.full rfl hleft hright rfl)⟩

theorem union_decides {inputs ns : List Nat} {bound : Value}
    (hbound : (inputs.map w.catalog.table).foldlM (fun (n : Value) t ↦ n.arith .add t.bound) (.int 0) = .ok bound)
    (hrows : (∀ p ∈ inputs, p < w.catalog.tables.size) →
      Forall₂ (fun input n ↦ (w.catalog.table input).rows = .ok n) inputs ns)
    (hk : bound.integer? = some k) : k.toNat ≤ ns.sum := by
  obtain ⟨i, ns', hi, hns, hle⟩ := union_bound hbound hk
  cases hi
  rw [forall₂_map_left_iff] at hns
  have hin : ∀ p ∈ inputs, p < w.catalog.tables.size := by
    refine ((forall₂_and_left _ _).1 (hns.imp fun p n hn ↦ ⟨?_, hn⟩)).1
    obtain ⟨i, hi, -⟩ := rows_eq_ok.1 hn
    exact Bounds.lt_size (.inl hi)
  have hunique : Relator.RightUnique fun input n ↦ (w.catalog.table input).rows = .ok n :=
    fun _ _ _ h h' ↦ Except.ok.inj (h.symm.trans h')
  rw [right_unique_forall₂' hunique (hrows hin) hns]
  omega

theorem grouping (h : Grouping Settles w place w') : Settles w w' := by
  cases h with
  | @intro input rows _ label keys K H v u hrows hlength hmade hreads =>
    have h : Applied Settles w (groupedTable w input label keys)
        (GroupBy.formula (w.catalog.table input).id (w.lastTable + 1) K H) label place _ :=
      .intro hmade (.none hmade.entered) hreads
    refine fresh h rfl fun htold l hl ↦ ?_
    have hword := groupedTable_begins (w := w) input label keys
    have hduplicate := htold.not_mentions "Duplicate" hword
    have hcount := choiceCount_of_rows (t := groupedTable w input label keys) hrows
    rw [mentions_of_part hword.mentions] at hcount
    obtain ⟨-, -, o, ⟨⟩, hl⟩ := hl
    refine ⟨?_, rows * 2, rows * 2, hcount, ?_, .inl rfl⟩
    · simpa [hduplicate] using hl
    · intro I hI
      rw [← hlength]
      exact (Interpretation.holds_formula_iff.1 hI).2.2

theorem projection (h : GroupProjection Settles w place out w') : Settles w w' := by
  cases h with
  | @intro members start _ source columns as origin c term _ hgrouped horigin hgrouping hrows hdecides h =>
    have place_begins (htold : w.Told) := htold.table place "Grouped from" (by decide) hgrouped
    refine applied h (fun _ haligned htold ↦ haligned.groups place (place_begins htold))
      fun _ haligned htold htold' l hl ↦ ?_
    have hbegins := place_begins htold
    have hword := (labelled_kin c _).begins
      (grouped_begins members source columns { w.catalog.table place with ancestors := as })
    have hduplicate := htold'.not_mentions "Duplicate" hword
    have hcount := choiceCount_of_rows (t := labelled c (projected members source "Grouped and projected" columns
      { w.catalog.table place with ancestors := as })) hrows
    rw [mentions_of_part hword.mentions] at hcount
    obtain ⟨-, -, o, ⟨⟩, hl⟩ := hl
    rw [hduplicate] at hl
    rcases hl.resolve_left (by simp) with ⟨-, hlabel | ⟨-, hgroup⟩⟩
    · exact .inl ⟨hlabel, _, _, hcount, hdecides, .inl rfl⟩
    · -- The label of the grouping is that of the table that the projection has taken over.
      right
      refine ⟨place, ⟨hbegins.of_grouped.1, hbegins.of_grouped.2, origin, horigin, .inr ⟨?_, .inl ?_⟩⟩, ?_⟩
      · exact (htold.table place).not_mentions "Duplicate" hbegins
      · rw [← hgrouping]
        simpa using hgroup
      · rw [fullId, haligned.groups place hbegins]
        rfl

theorem stage (h : Stage Settles w out w') : Settles w w' := by
  cases h with
  | filter hrows hdecides h =>
    refine plain h rfl (filteredTable_begins ..) (by decide) (by rintro _ ⟨⟩; rfl) fun n hn ↦ ⟨n, ?_, .inl rfl⟩
    cases hrows.symm.trans hn
    exact hdecides
  | join hbound hdecides h =>
    exact plain h rfl (joinedTable_begins ..) (by decide) (by rintro _ ⟨⟩; rfl) fun n hn ↦
      spares_joined hbound hdecides hn
  | union hbound hrows hdecides h =>
    refine plain h rfl (unionTable_begins ..) (by decide) (by rintro _ ⟨⟩; rfl) fun n hn ↦ ⟨n, ?_, .inl rfl⟩
    obtain ⟨k, hk, rfl⟩ := rows_eq_ok.1 hn
    exact fun I hI b hb ↦ hdecides I hI b (hb.trans_le (union_decides hbound hrows hk))
  | project hrows hdecides h =>
    refine plain h rfl ((labelled_kin _ _).begins (projectedTable_begins ..)) (by decide) (by rintro _ ⟨⟩; rfl)
      fun n hn ↦ ⟨n, ?_, .inl rfl⟩
    cases hrows.symm.trans hn
    exact hdecides
  | @distinct input rows _ origin label term _ hlabel hrows hdecides h =>
    refine fresh h rfl fun htold l hl ↦ ?_
    have hword := distinctTable_begins (w := w) input origin
    have hgroup := htold.not_mentions "Group" hword
    have hgrouped : (distinctTable w input origin).mentionsIfAny "Grouped" = false := by
      rw [Bool.eq_false_iff]
      intro hgrouped
      rw [mentions_of_part hgrouped] at hgroup
      cases hgroup
    have hcount := choiceCount_of_rows (t := distinctTable w input origin) hrows
    rw [hgrouped] at hcount
    obtain ⟨-, -, o, ⟨⟩, hl⟩ := hl
    refine ⟨?_, rows, rows, hcount, hdecides, .inl rfl⟩
    rw [mentions_of_part hword.mentions] at hl
    simpa [hlabel] using hl
  | order h => exact ordered h
  | projectGroups h => exact projection h

end Operators

theorem route : Route Settles where
  toPassage := passage
  innate := Node.innate_true
  copy := copy
  rename h _ hkin horigin _ :=
    passage.trans h (still ((Chain.refl _).step (.rename _ hkin (.inr horigin))) (size_modify _))
  share h _ _ _ := share h
  stage := stage
  grouped h g := passage.trans (grouping h) (projection g)

end Settles

/-! ## Labels that are found -/

section Found

variable {w : Workspace} {l : String} {id : Int}

/-- A label is found for the table that one of the registered tables stands for. -/
theorem mem_collect {places : List (Int × Nat)} {found found' : List (Option String × Int)} {label : Option String}
    (h : collect w places found = .ok found') (hmem : (label, id) ∈ found') :
    (label, id) ∈ found ∨ ∃ e ∈ places, w.fullId e.2 = id ∧
      ∃ ls, labelsOf (w.catalog.table e.2) = .ok ls ∧ label ∈ ls := by
  have put_all {ls : List (Option String)} {id' : Int} {fs : List (Option String × Int)}
      (h : (label, id) ∈ ls.foldl (fun fs l ↦ put l id' fs) fs) :
      (label, id) ∈ fs ∨ id' = id ∧ label ∈ ls := by
    induction ls generalizing fs with
    | nil => exact .inl h
    | cons l ls ih =>
      rcases ih h with hfs | ⟨hid, hl⟩
      · rcases mem_put hfs with heq | hfs
        · cases heq
          exact .inr ⟨rfl, mem_cons_self⟩
        · exact .inl hfs
      · exact .inr ⟨hid, mem_cons_of_mem _ hl⟩
  induction places generalizing found with
  | nil =>
    cases h
    exact .inl hmem
  | cons e places ih =>
    rw [collect, bind_ok_iff] at h
    obtain ⟨ls, hls, h⟩ := h
    rcases ih h with hput | ⟨e', he', hrest⟩
    · rcases put_all hput with hfound | ⟨hid, hl⟩
      · exact .inl hfound
      · exact .inr ⟨e, mem_cons_self, hid, ls, hls, hl⟩
    · exact .inr ⟨e', mem_cons_of_mem _ he', hrest⟩

/-- The labels of a table that tells where it comes from. -/
theorem labelsOf_eq_ok {s : String} {o : Origin} (hs : t.lineage = some s)
    (ho : t.origin = some o) : labelsOf t = .ok ls ↔
      if t.mentionsIfAny "Duplicate" then ∃ x, o.distinct = some x ∧ ls = [x]
      else if t.mentionsIfAny "Group" then ∃ x, o.grouping = some x ∧ ls = [o.label, x]
      else ls = [o.label] := by
  simp only [labelsOf, mentionsIfAny, hs, ho, any_some]
  split_ifs
  · cases h : o.distinct <;> simp [h, bind, Except.bind, pure, Except.pure, eq_comm]
  · cases h : o.grouping <;> simp [h, bind, Except.bind, pure, Except.pure, eq_comm]
  · simp [pure, Except.pure, eq_comm]

theorem Table.bears_of_labels (h : labelsOf t = .ok ls) (hl : some l ∈ ls) (hmade : ¬ t.Made → t.origin = none)
    (hsorted : ¬ t.Begins "Sorted") : t.Bears l := by
  rcases hlineage : t.lineage with _ | s
  · rw [labelsOf, hlineage] at h
    cases h
    cases hl
  rcases horigin : t.origin with _ | o
  · -- Without labels of a clause there is nothing to be found.
    simp only [labelsOf, hlineage, horigin] at h
    split at h
    · cases h
    · split at h
      · cases h
      · cases h
        cases hl
  refine ⟨?_, hsorted, o, horigin, ?_⟩
  · by_contra hm
    rw [hmade hm] at horigin
    cases horigin
  · rw [labelsOf_eq_ok hlineage horigin] at h
    split_ifs at h with hduplicate hgroup
    · obtain ⟨x, hx, rfl⟩ := h
      exact .inl ⟨hduplicate, by rw [hx, mem_singleton.1 hl]⟩
    · obtain ⟨x, hx, rfl⟩ := h
      exact .inr ⟨Bool.eq_false_iff.2 hduplicate, by simpa [hgroup, hx, eq_comm] using hl⟩
    · subst h
      exact .inr ⟨Bool.eq_false_iff.2 hduplicate, .inl (mem_singleton.1 hl).symm⟩

/-- What a table stands for was made by an operator, and its choices are decided by the formulas under each label that is
listed for the table. -/
theorem listed_settled {schema : Value} (h : Encodings schema w) (htold : w.Told)
    (hls : labelsOf (w.catalog.table p) = .ok ls) (hl : some l ∈ ls) (hsorted : ¬ (w.catalog.table p).Begins "Sorted") :
    ∃ place, (w.database.place? (w.fullId p) = some place ∧ (w.catalog.table place).Made) ∧
      ∃ n m, choiceCount (w.catalog.table place) = .ok n ∧ w.formulas.Decides l (w.fullId p) m ∧
        (m = n ∨ ∃ q, (w.catalog.table q).id = w.fullId p ∧ w.Spares (w.catalog.table q) m) := by
  obtain ⟨_, _, _, _, v₀, v, hv, hroute⟩ := h.route
  have hstart := start_unmade.start hv
  obtain ⟨hkept, haligned⟩ := unmade_kept hstart.1 hstart.2
  have hsettles := hroute Settles Settles.route
  have hkept' := hsettles.chain.kept hkept
  have haligned' := hsettles.chain.aligned hkept htold haligned
  have hbears := bears_of_labels hls hl (fun hm ↦ (hkept'.unmade p hm).1) hsorted
  obtain ⟨q, n, m, hq, hmade, hsorted', hn, hm, hmn⟩ :=
    (hsettles.bears hkept haligned htold p l hbears).resolve_right fun ⟨q, hq, _⟩ ↦
      not_made (hstart.2 q).1 hq.1
  -- The table that is registered under the number has as many choices.
  obtain ⟨place, hplace, hsame, hmade'⟩ := hkept'.registered q hmade
  refine ⟨place, ⟨hq ▸ hplace, hmade'⟩, n, m, ?_, hm, hmn.imp_right fun hs ↦ ⟨q, hq, hs⟩⟩
  rw [(haligned'.uniform q place hmade hmade' hsame hsorted').2, hn]

theorem listed_decided {schema : Value} (h : Encodings schema w) (htold : w.Told)
    (hls : labelsOf (w.catalog.table p) = .ok ls) (hl : some l ∈ ls) (hsorted : ¬ (w.catalog.table p).Begins "Sorted") :
    ∃ place n m, w.database.place? (w.fullId p) = some place ∧ choiceCount (w.catalog.table place) = .ok n ∧
      w.formulas.Decides l (w.fullId p) m ∧
      (m = n ∨ ∃ q, (w.catalog.table q).id = w.fullId p ∧ w.Spares (w.catalog.table q) m) := by
  obtain ⟨place, ⟨hplace, -⟩, n, m, hrest⟩ := listed_settled h htold hls hl hsorted
  exact ⟨place, n, m, hplace, hrest⟩

/-- Of every label in a conflict, the choices that are read for its table are decided by the formulas under it.
Sorted tables apart, the only choices that are read and not decided are those of outer joins beyond the pairs of rows,
those of full joins, and those of joins of tables whose bounds are both negative. -/
theorem choices_decided {schema : Value} (h : Encodings schema w) (htold : w.Told) {found : List (Option String × Int)}
    (hfound : tablesOfLabels w = .ok found) (hmem : (some l, id) ∈ found) :
    ∃ e ∈ w.database.places, w.fullId e.2 = id ∧ (∃ ls, labelsOf (w.catalog.table e.2) = .ok ls ∧ some l ∈ ls) ∧
      ((w.catalog.table e.2).Begins "Sorted" ∨
        ∃ place n m, w.database.place? id = some place ∧ choiceCount (w.catalog.table place) = .ok n ∧
          w.formulas.Decides l id m ∧
          (m = n ∨ ∃ p, (w.catalog.table p).id = id ∧ w.Spares (w.catalog.table p) m)) := by
  obtain ⟨e, he, hid, ls, hls, hl⟩ := (mem_collect hfound hmem).resolve_left (by simp)
  subst hid
  exact ⟨e, he, rfl, ⟨ls, hls, hl⟩, or_iff_not_imp_left.2 fun hsorted ↦ listed_decided h htold hls hl hsorted⟩

/-- The workspace after `SELECT a FROM t`. -/
def columnEncoded : Workspace := (exec (Query.table selectColumn) { singleTableLoaded with currentQuery := .int 1 }).2

/-- The projection in `SELECT a FROM t` has one choice, which its formulas decide. -/
theorem columnEncoded_decided : tablesOfLabels columnEncoded = .ok [(some "project$1", 1)] ∧
    columnEncoded.formulas.Decides "project$1" 1 1 := by
  have hquery : Gives (Query.table selectColumn) { singleTableLoaded with currentQuery := .int 1 } 2 columnEncoded :=
    .of_toOption (by decide +kernel)
  have hfound : tablesOfLabels columnEncoded = .ok [(some "project$1", 1)] :=
    ok_of_toOption (by decide +kernel)
  refine ⟨hfound, ?_⟩
  obtain ⟨e, he, -, -, hsorted | ⟨place, n, m, hplace, hn, hm, hmn⟩⟩ :=
    choices_decided (.query (.int 1) (.start singleTable_loads) hquery) (by decide +kernel) hfound mem_cons_self
  · have hnone : ∀ e ∈ columnEncoded.database.places, ¬ (columnEncoded.catalog.table e.2).Begins "Sorted" := by
      decide +kernel
    exact absurd hsorted (hnone e he)
  · obtain rfl : place = 2 := by
      have : columnEncoded.database.place? 1 = some 2 := by decide +kernel
      simpa [this] using hplace.symm
    obtain rfl : n = 1 := by
      have : choiceCount (columnEncoded.catalog.table 2) = .ok 1 := ok_of_toOption (by decide +kernel)
      exact Except.ok.inj (hn.symm.trans this)
    rcases hmn with rfl | ⟨p, -, hspares⟩
    · exact hm
    · exact absurd hspares (Workspace.not_spares (by decide +kernel))

end Found

end QueryEquiv
