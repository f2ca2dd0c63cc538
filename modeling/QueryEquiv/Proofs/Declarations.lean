import QueryEquiv.Proofs.Conflicts
import QueryEquiv.Proofs.LetterCase
import QueryEquiv.Proofs.Lineages
import QueryEquiv.Proofs.Sheets

/-!
# What declared constraints say

Keys, references and columns without nulls. What such a declaration demands is said of the rows that are there
(`Demands`). Its formula says just that, with one exception: of a primary key it also demands that the rows that are
not there have no null in it. So the formula of declarations implies what they demand, and what they demand can be had
with the formula by changing nulls of rows that are not there (`declared_iff`).

Some columns are found by comparing names in lower case, others by comparing with the name as it is kept. Both find the
same, since names are kept in lower case.
-/

namespace QueryEquiv

open Text Gives List Workspace Integrity Operator Results

/-! ## Attributes -/

/-- An attribute, by the names of a table and of a column. -/
structure Attribute where
  table : String
  column : String
  table_plain : '.' ∉ table.toList
  column_plain : '.' ∉ column.toList

namespace Attribute

variable (a : Attribute)

def text : String := a.table ++ "." ++ a.column

theorem toList_text : a.text.toList = a.table.toList ++ '.' :: a.column.toList := by
  simp [text, String.toList_append]

theorem dotted_text : dotted (.str a.text) = .ok [a.table, a.column] := by
  rw [dotted_str, partsOf, a.toList_text, splitOnP_append_cons _ _ rfl, splitOnP_of_notMem '.' a.table_plain,
    splitOnP_of_notMem '.' a.column_plain]
  simp

/-- An attribute can be told from a text by its full stop. -/
theorem isColumnName_text : isColumnName (.str a.text) = true := by
  rw [isColumnName, occursIn_iff, a.toList_text]
  exact ⟨a.table.toList, a.column.toList, by simp⟩

end Attribute

/-- An attribute names columns of a table: all those of its name, in whatever letters. -/
structure Attribute.Names (w : Workspace) (a : Attribute) (s : Shape) : Prop where
  exist : s.columns ≠ []
  found : ∃ place rows, findNamed w (Text.lower a.table) w.database.places = .ok place ∧
    (w.catalog.table place).rows = .ok rows ∧
    s = ⟨(w.catalog.table place).id, rows,
      ((w.catalog.table place).columns.filter (·.name.same (.str (Text.lower a.column)))).map (·.id)⟩

/-! ## Demands -/

/-- What a declaration demands of an interpretation. -/
inductive Demands (w : Workspace) : Value → (Interpretation → Prop) → Prop
  /-- The rows that are there differ in the columns of a key, where nulls are alike; a primary key has no nulls. -/
  | key (primary : Bool) {a : Attribute} {as : List Attribute} {s : Shape} {parts : List Shape}
      (names : List.Forall₂ (Attribute.Names w) (a :: as) (s :: parts)) (table : ∀ b ∈ as, Text.lower b.table = Text.lower a.table) :
      Demands w (.object [(if primary then "primary" else "distinct", .list ((a :: as).map (.str ·.text)))]) fun I ↦
        let key : Shape := { s with columns := (s :: parts).flatMap (·.columns) }
        ((I.rowsThere key).map (I.record key)).Nodup ∧ (primary = true → ∀ r ∈ I.rowsThere key, none ∉ I.record key r)
  /-- Every value that is not null is the value of a row of the other table. Of several columns of its name, the last
  one counts there. -/
  | reference {a b : Attribute} {s t : Shape} (source : a.Names w s) (target : b.Names w t) :
      Demands w (.object [("eq", .list [.str a.text, .str b.text])]) fun I ↦
        ∀ r ∈ I.rowsThere s, ∀ v, some v ∈ I.record s r → ∃ q ∈ I.rowsThere t, (I.record t q).getLast? = some (some v)
  | notNull {a : Attribute} {s : Shape} (names : a.Names w s) :
      Demands w (.object [("not_null", .str a.text)]) fun I ↦ ∀ r ∈ I.rowsThere s, none ∉ I.record s r

/-- An interpretation without the nulls of rows that are not there. -/
def Interpretation.tidy (I : Interpretation) : Interpretation :=
  { I with null := fun t r c ↦ I.null t r c && !I.deleted t r }

variable {w : Workspace} {c : Value} {d : Interpretation → Prop}

/-- Nulls of rows that are not there do not matter. -/
theorem Demands.tidy (h : Demands w c d) {I : Interpretation} (hI : d I) : d I.tidy := by
  have record (s : Shape) {r : Nat} (hr : r ∈ I.rowsThere s) : I.tidy.record s r = I.record s r := by
    refine map_congr_left fun c _ ↦ ?_
    simp only [Interpretation.held, Interpretation.tidy, (I.mem_rowsThere.1 hr).2, Bool.not_false, Bool.and_true]
  have there (s : Shape) : I.tidy.rowsThere s = I.rowsThere s := rfl
  cases h with
  | key primary names table =>
    simp only [there, map_congr_left fun r hr ↦ record _ hr] at hI ⊢
    exact ⟨hI.1, fun hp r hr ↦ by rw [record _ hr]; exact hI.2 hp r hr⟩
  | reference source target =>
    intro r hr v hv
    rw [there] at hr
    rw [record _ hr] at hv
    obtain ⟨q, hq, hlast⟩ := hI r hr v hv
    exact ⟨q, hq, by rwa [record _ hq]⟩
  | notNull names =>
    intro r hr
    rw [there] at hr
    rw [record _ hr]
    exact hI r hr

/-! ## Formulas -/

namespace Interpretation

variable (I : Interpretation)

theorem holds_differIn (t : Int) (i j : Nat) (c : Int) :
    I.Holds (differIn t i j c) ↔ I.held t i c ≠ I.held t j c := by
  cases hi : I.null t i c <;> cases hj : I.null t j c <;> simp [differIn, held, hi, hj]

theorem holds_flatMap {α : Type} (l : List α) (f : α → List Term) :
    I.Holds (.and (l.flatMap f)) ↔ ∀ a ∈ l, ∀ t ∈ f a, I.Holds t := by
  rw [holds_and]
  exact forall_mem_flatMap

variable {s : Shape}

theorem none_mem_record {r : Nat} : none ∈ I.record s r ↔ ∃ c ∈ s.columns, I.null s.id r c = true := by
  simp [record, held]

/-- The formula of a key says more of the rows that are not there: they have no nulls either. -/
theorem holds_key {columns : List Int} (hs : columns ≠ []) (hcolumns : ∀ c, c ∈ s.columns ↔ c ∈ columns)
    (primary : Bool) : I.Holds (key s.id columns s.rows primary) ↔ ((I.rowsThere s).map (I.record s)).Nodup ∧
      (primary = true → ∀ r < s.rows, none ∉ I.record s r) := by
  have nodup : (I.rowsThere s).Nodup := nodup_range.filter _
  have differ (i j : Nat) : I.record s i ≠ I.record s j ↔ ∃ c ∈ columns, I.held s.id i c ≠ I.held s.id j c := by
    simp [record, hcolumns]
  have rows : I.Holds (key s.id columns s.rows primary) ↔
      (∀ i < s.rows, ∀ j < i, I.deleted s.id i = false → I.deleted s.id j = false → I.record s i ≠ I.record s j) ∧
      (primary = true → ∀ r < s.rows, none ∉ I.record s r) := by
    simp only [differ, none_mem_record, hcolumns]
    rw [key, holds_flatMap]
    cases primary <;> simp [differsFromEarlier, holds_differIn, holds_or, hs, forall_and]
  rw [rows, nodup_map_iff_inj_on nodup]
  refine and_congr_left fun _ ↦ ⟨fun h i hi j hj he ↦ ?_, fun h i hi j hj hpi hpj he ↦ ?_⟩
  · rw [I.mem_rowsThere] at hi hj
    rcases lt_trichotomy i j with hlt | rfl | hlt
    · exact absurd he.symm (h j hj.1 i hlt hj.2 hi.2)
    · rfl
    · exact absurd he (h i hi.1 j hlt hi.2 hj.2)
  · exact hj.ne' (h i (I.mem_rowsThere.2 ⟨hi, hpi⟩) j (I.mem_rowsThere.2 ⟨hj.trans hi, hpj⟩) he)

theorem holds_references {t : Shape} {r : Nat} (hr : r < t.rows) (c d : Int) :
    I.Holds (references s.id r c t.id t.rows d) ↔ (I.deleted s.id r = false → ∀ v, I.held s.id r c = some v →
      ∃ q ∈ I.rowsThere t, I.held t.id q d = some v) := by
  have hne : t.rows ≠ 0 := by omega
  cases hc : I.null s.id r c <;>
    simp [references, holds_or, held, hc, hne, mem_rowsThere, and_assoc, eq_comm (a := I.cell s.id r c)]

theorem holds_allReferences {t : Shape} {d : Int} (hrows : s.rows = t.rows) (hd : t.columns.getLast? = some d) :
    I.Holds (.and ((List.range s.rows).flatMap fun r ↦ s.columns.map fun c ↦ references s.id r c t.id t.rows d)) ↔
      ∀ r ∈ I.rowsThere s, ∀ v, some v ∈ I.record s r → ∃ q ∈ I.rowsThere t, (I.record t q).getLast? = some (some v) := by
  have last (q : Nat) : (I.record t q).getLast? = some (I.held t.id q d) := by
    rw [record, getLast?_map, hd, Option.map_some]
  simp only [holds_flatMap, forall_mem_map, mem_range, last, Option.some_inj]
  constructor
  · intro h r hr v hv
    obtain ⟨hr, hthere⟩ := I.mem_rowsThere.1 hr
    obtain ⟨c, hc, hv⟩ := mem_map.1 hv
    exact (I.holds_references (hrows ▸ hr) c d).1 (h r hr c hc) hthere v hv
  · intro h r hr c hc
    exact (I.holds_references (hrows ▸ hr) c d).2 fun hthere v hv ↦
      h r (I.mem_rowsThere.2 ⟨hr, hthere⟩) v (mem_map.2 ⟨c, hc, hv⟩)

theorem holds_noNulls (s : Shape) : I.Holds (.and ((List.range s.rows).flatMap fun (r : Nat) ↦
      s.columns.map fun c ↦ .implies (present s.id r) (.not (.null s.id r c)))) ↔
      ∀ r ∈ I.rowsThere s, none ∉ I.record s r := by
  simp only [holds_flatMap, forall_mem_map, mem_range, none_mem_record, mem_rowsThere, holds_implies,
    holds_present, holds_not, holds_null, and_imp, not_exists, not_and]
  exact forall₂_congr fun _ _ ↦ ⟨fun h there c hc ↦ h c hc there, fun h c hc there ↦ h there c hc⟩

end Interpretation

/-! ## Encoding -/

/-- The tables of a schema have the same bound, and their columns have names in lower case. -/
def Workspace.Uniform (w : Workspace) : Prop :=
  ∀ p, ((w.catalog.table p).columns ≠ [] → (w.catalog.table p).bound = w.bound) ∧
    ∀ c ∈ (w.catalog.table p).columns, ∃ s, c.name = .str (Text.lower s)

theorem start_uniform : Loads Uniform where
  empty hc _ _ _ p := by
    rw [hc, Catalog.table_of_size_le (Nat.zero_le p)]
    exact ⟨absurd rfl, fun c hc ↦ absurd hc not_mem_nil⟩
  same hc _ _ _ hb h := by
    unfold Workspace.Uniform
    rw [hc, hb]
    exact h
  add {w _ _ _} _ hnames _ h p := by
    rcases eq_or_ne p w.catalog.tables.size with rfl | hne
    · rw [Catalog.table_add_self]
      exact ⟨fun _ ↦ rfl, hnames⟩
    · rw [Catalog.table_add_of_ne hne]
      exact h p

section

variable {α β : Type} {f : α → Encoding β} {w w' : Workspace} {a : α} {b : β}

theorem Gives.bind {x : Encoding α} {v : Workspace} (hx : Gives x w a v) (hf : Gives (f a) v b w') :
    Gives (x >>= f) w b w' :=
  bind_iff.2 ⟨a, v, hx, hf⟩

theorem Gives.lift_bind {x : Outcome α} (hx : x = .ok a) (hf : Gives (f a) w b w') : Gives (liftM x >>= f) w b w' :=
  bind (lift_iff.2 ⟨hx, rfl⟩) hf

end

section Encoding

variable {w : Workspace} {t : Table} {a : Attribute} {n : Nat}

theorem named_eq {c : Column} (hc : ∃ s, c.name = .str (lower s)) :
    named c [a.table, a.column] = .ok (c.name.same (.str (lower a.column))) := by
  obtain ⟨s, hs⟩ := hc
  rw [named, hs, lowered, lower_lower]
  rfl

theorem lastNamed_eq (ht : ∀ c ∈ t.columns, ∃ s, c.name = .str (lower s)) : lastNamed t [a.table, a.column] =
      .ok ((t.columns.filter (·.name.same (.str (lower a.column)))).map (·.id)).getLast? := by
  have fold (cs : List Column) (hcs : ∀ c ∈ cs, ∃ s, c.name = .str (lower s)) (found : Option Int) :
      (cs.foldlM (fun found c ↦ do if ← named c [a.table, a.column] then return some c.id else return found) found :
        Outcome _) = .ok (((cs.filter (·.name.same (.str (lower a.column)))).map (·.id)).getLast?.or found) := by
    induction cs generalizing found with
    | nil => rfl
    | cons c cs ih =>
      rw [forall_mem_cons] at hcs
      rw [foldlM_cons, named_eq hcs.1, filter_cons]
      cases c.name.same (.str (lower a.column))
      · exact ih hcs.2 found
      · refine (ih hcs.2 (some c.id)).trans ?_
        simp [getLast?_cons, Option.or_some]
  simpa [lastNamed] using fold t.columns ht none

/-- The formulas for cells, where the test picks columns and never fails. -/
theorem forCells_eq (hn : t.rows = .ok n) {test : Column → Outcome Bool} {p : Column → Bool}
    (ht : ∀ c ∈ t.columns, test c = .ok (p c)) (f : Nat → Column → Term) :
    forCells t test (fun row c ↦ return f row c) =
      .ok ((List.range n).flatMap fun row ↦ (t.columns.filter p).map (f row)) := by
  have columns (row : Nat) (cs : List Column) (hcs : ∀ c ∈ cs, test c = .ok (p c)) :
      (cs.mapM fun c ↦ do if ← test c then return [← (return f row c)] else return []) >>= (fun parts ↦ return parts.flatten) =
        (.ok ((cs.filter p).map (f row)) : Outcome _) := by
    induction cs with
    | nil => rfl
    | cons c cs ih =>
      rw [forall_mem_cons] at hcs
      obtain ⟨parts, hparts, h⟩ := Outcome.bind_ok_iff.1 (ih hcs.2)
      rw [mapM_cons, hcs.1, hparts, filter_cons]
      cases p c
      · exact h
      · exact congrArg (Except.map (f row c :: ·)) h
  have rows (rs : List Nat) : rs.flatMapM (fun row ↦ do
      let parts ← t.columns.mapM fun c ↦ do if ← test c then return [← (return f row c)] else return []
      return parts.flatten) = (.ok (rs.flatMap fun row ↦ (t.columns.filter p).map (f row)) : Outcome _) := by
    induction rs with
    | nil => rfl
    | cons row rs ih =>
      rw [flatMapM_cons, columns row _ ht, ih]
      rfl
  rw [forCells, hn]
  exact rows (List.range n)

variable {s : Shape} {as : List Attribute} {parts : List Shape}

theorem Attribute.Names.reads (h : a.Names w s) (hw : w.Uniform) :
    ∃ place t, findNamed w (lower a.table) w.database.places = .ok place ∧ w.catalog.table place = t ∧ t.id = s.id ∧
      t.rows = .ok s.rows ∧ t.bound = w.bound ∧ lastNamed t [a.table, a.column] = .ok s.columns.getLast? ∧
      ∀ f : Nat → Int → Term, forCells t (named · [a.table, a.column]) (fun row c ↦ return f row c.id) =
        .ok ((List.range s.rows).flatMap fun row ↦ s.columns.map (f row)) := by
  obtain ⟨exist, place, rows, hplace, hrows, rfl⟩ := h
  refine ⟨place, _, hplace, rfl, rfl, hrows, (hw place).1 ?_, lastNamed_eq (hw place).2, fun f ↦ ?_⟩
  · rintro hnone
    simp [hnone] at exist
  · rw [forCells_eq hrows (fun c hc ↦ named_eq ((hw place).2 c hc)) fun row c ↦ f row c.id]
    simp only [map_map]
    rfl

theorem encodeNotNull_gives (h : a.Names w s) (hw : w.Uniform) :
    Gives (encodeNotNull (.object [("not_null", .str a.text)])) w (.and ((List.range s.rows).flatMap fun (row : Nat) ↦
      s.columns.map fun c ↦ .implies (present s.id row) (.not (.null s.id row c)))) w := by
  obtain ⟨place, t, hplace, rfl, hid, hrows, -, -, hcells⟩ := h.reads hw
  refine lift_bind rfl (lift_bind a.dotted_text ?_)
  refine bind (lift_iff.2 ⟨hplace, rfl⟩) (bind rfl ?_)
  rw [hid]
  exact lift_bind (hcells fun row c ↦ .implies (present s.id row) (.not (.null s.id row c))) rfl

theorem encodeForeignKey_gives {b : Attribute} {u : Shape} (ha : a.Names w s) (hb : b.Names w u) (hw : w.Uniform) :
    s.rows = u.rows ∧ ∃ d ts, u.columns.getLast? = some d ∧
      Gives (encodeForeignKey (.object [("eq", .list [.str a.text, .str b.text])])) w (.and ((List.range s.rows).flatMap
        fun row ↦ s.columns.map fun c ↦ references s.id row c u.id u.rows d)) { w with extra := ts } := by
  obtain ⟨place, t, hplace, rfl, hid, hrows, hbound, -, hcells⟩ := ha.reads hw
  obtain ⟨place', t', hplace', rfl, hid', hrows', hbound', hlast, -⟩ := hb.reads hw
  obtain ⟨d, hd⟩ := Option.ne_none_iff_exists'.1 (mt getLast?_eq_none_iff.1 hb.exist)
  have hsame : s.rows = u.rows := by
    rw [Table.rows, hbound, ← hbound'] at hrows
    exact Except.ok.inj (hrows.symm.trans hrows')
  refine ⟨hsame, d, w.extra ++ [.implies (rowCount s.id s.rows) (rowCount u.id u.rows)], hd, ?_⟩
  refine lift_bind rfl (lift_bind rfl ?_)
  rw [b.isColumnName_text]
  refine lift_bind rfl (lift_bind a.dotted_text (lift_bind b.dotted_text ?_))
  refine bind (lift_iff.2 ⟨hplace, rfl⟩) (bind rfl ?_)
  refine bind (lift_iff.2 ⟨hplace', rfl⟩) (bind rfl ?_)
  refine lift_bind hrows (lift_bind hrows' ?_)
  rw [hid, hid']
  refine bind rfl (lift_bind (hlast.trans (congrArg _ hd)) ?_)
  exact lift_bind (hcells fun row c ↦ references s.id row c u.id u.rows d) rfl

theorem flatMap_columns (names : Forall₂ (Attribute.Names w) as parts)
    {place : Nat} (hplace : ∀ b ∈ as, findNamed w (lower b.table) w.database.places = .ok place) :
    parts.flatMap (·.columns) = as.flatMap fun b ↦
      ((w.catalog.table place).columns.filter (·.name.same (.str (lower b.column)))).map (·.id) := by
  induction names with
  | nil => rfl
  | cons head _ ih =>
    rw [forall_mem_cons] at hplace
    obtain ⟨-, place', rows, hplace', -, rfl⟩ := head
    obtain rfl : place = place' := Except.ok.inj (hplace.1.symm.trans hplace')
    rw [flatMap_cons, flatMap_cons, ih hplace.2]

theorem encodeKey_gives (primary : Bool) (names : Forall₂ (Attribute.Names w) (a :: as) (s :: parts))
    (table : ∀ b ∈ as, lower b.table = lower a.table) :
    let kind := if primary then "primary" else "distinct"
    ∃ columns, (∀ c, c ∈ (s :: parts).flatMap (·.columns) ↔ c ∈ columns) ∧
      Gives (encodeKey (.object [(kind, .list ((a :: as).map (.str ·.text)))]) kind) w
        (key s.id columns s.rows primary) w := by
  intro kind
  obtain ⟨-, place, rows, hplace, hrows, hs⟩ := (forall₂_cons.1 names).1
  have columns := flatMap_columns names (forall_mem_cons.2 ⟨hplace, fun b hb ↦ by rw [table b hb, hplace]⟩)
  refine ⟨((w.catalog.table place).columns.filter fun c ↦ ((a :: as).map (lower ·.column)).any fun n ↦
    c.name.same (.str n)).map (·.id), fun c ↦ ?_, ?_⟩
  · rw [columns]
    simp only [mem_flatMap, mem_map, mem_filter, any_map, any_eq_true, Function.comp_apply]
    tauto
  · refine lift_bind (a := .list ((a :: as).map (.str ·.text))) (by simp [Value.entry, Value.lookup]) ?_
    refine lift_bind rfl (lift_bind a.dotted_text ?_)
    refine bind (lift_iff.2 ⟨hplace, rfl⟩) (bind rfl (lift_bind rfl ?_))
    refine bind (a := (a :: as).map (lower ·.column)) (mapM_of_forall₂ ?_) (lift_bind hrows ?_)
    · rw [forall₂_map_left_iff, forall₂_map_right_iff, forall₂_same]
      exact fun b _ ↦ lift_bind b.dotted_text (lift_bind rfl rfl)
    · have hkind : (kind == "primary") = primary := by cases primary <;> rfl
      rw [hs, ← hkind]
      rfl

end Encoding

/-! ## All declarations -/

theorem findNamed_extra (w : Workspace) (ts : List Term) (name : String) (l : List (Int × Nat)) :
    findNamed { w with extra := ts } name l = findNamed w name l := by
  induction l with
  | nil => rfl
  | cons e l ih =>
    rw [findNamed, findNamed, ih]

theorem Attribute.Names.extra {a : Attribute} {s : Shape} (ts : List Term) (h : a.Names w s) :
    a.Names { w with extra := ts } s := by
  obtain ⟨exist, place, rows, hplace, h⟩ := h
  exact ⟨exist, place, rows, (findNamed_extra w ts _ _).trans hplace, h⟩

theorem Demands.extra (ts : List Term) (h : Demands w c d) : Demands { w with extra := ts } c d := by
  cases h with
  | key primary names table => exact key primary (names.imp fun _ _ h ↦ h.extra ts) table
  | reference source target => exact reference (source.extra ts) (target.extra ts)
  | notNull names => exact notNull (names.extra ts)

/-- The formula of one declaration. -/
theorem Demands.encoded (h : Demands w c d) (hw : w.Uniform) :
    ∃ f ts, Gives (encodeOne c) w [f] { w with extra := ts } ∧
      ∀ I : Interpretation, (I.Holds f → d I) ∧ (d I → I.tidy.Holds f) := by
  have tidy {I : Interpretation} : d I → d I.tidy := h.tidy
  cases h with
  | @key primary a as s parts names table =>
    obtain ⟨columns, hcolumns, hg⟩ := encodeKey_gives primary names table
    have hne : columns ≠ [] := by
      obtain ⟨c, hc⟩ := exists_mem_of_ne_nil _ (forall₂_cons.1 names).1.exist
      exact ne_nil_of_mem ((hcolumns c).1 (mem_flatMap.2 ⟨s, mem_cons_self, hc⟩))
    have holds (I : Interpretation) :=
      I.holds_key (s := { s with columns := (s :: parts).flatMap (·.columns) }) hne hcolumns primary
    refine ⟨Integrity.key s.id columns s.rows primary, w.extra, ?_, fun I ↦ ⟨fun h ↦ ?_, fun h ↦ ?_⟩⟩
    · cases primary <;> exact lift_bind rfl (bind hg rfl)
    · exact ((holds I).1 h).imp_right fun h hp r hr ↦ h hp r (I.mem_rowsThere.1 hr).1
    · refine (holds I.tidy).2 ((tidy h).imp_right fun h hp r hr ↦ ?_)
      cases hr' : I.deleted s.id r with
      | false => exact h hp r (I.tidy.mem_rowsThere.2 ⟨hr, hr'⟩)
      | true =>
        rw [I.tidy.none_mem_record]
        rintro ⟨c, -, hnull⟩
        simp [Interpretation.tidy, hr'] at hnull
  | reference source target =>
    obtain ⟨hrows, e, ts, he, hg⟩ := encodeForeignKey_gives source target hw
    exact ⟨_, ts, lift_bind rfl (bind hg rfl), fun I ↦ ⟨(I.holds_allReferences hrows he).1,
      fun h ↦ (I.tidy.holds_allReferences hrows he).2 (tidy h)⟩⟩
  | @notNull a s names =>
    exact ⟨_, w.extra, lift_bind rfl (bind (encodeNotNull_gives names hw) rfl), fun I ↦
      ⟨(I.holds_noNulls s).1, fun h ↦ (I.tidy.holds_noNulls s).2 (tidy h)⟩⟩

/-- The formulas of a list of declarations, one after the other. -/
theorem Demands.encoded_all {cs : List Value} {ds : List (Interpretation → Prop)}
    (h : Forall₂ (Demands w) cs ds) (hw : w.Uniform) :
    ∃ fs ts, Gives (cs.mapM encodeOne) w fs { w with extra := ts } ∧ ∀ I : Interpretation,
      (I.Holds (.and fs.flatten) → ∀ d ∈ ds, d I) ∧ ((∀ d ∈ ds, d I) → I.tidy.Holds (.and fs.flatten)) := by
  induction cs generalizing ds w with
  | nil =>
    obtain rfl := forall₂_nil_left_iff.1 h
    exact ⟨[], w.extra, rfl, fun I ↦ by simp⟩
  | cons c cs ih =>
    obtain ⟨d, ds, hc, hcs, rfl⟩ := forall₂_cons_left_iff.1 h
    obtain ⟨f, ts, hg, hf⟩ := hc.encoded hw
    obtain ⟨fs, ts', hgs, hfs⟩ := ih (w := { w with extra := ts }) (hcs.imp fun _ _ h ↦ h.extra ts) hw
    refine ⟨[f] :: fs, ts', ?_, fun I ↦ ?_⟩
    · rw [mapM_cons]
      exact bind hg (bind hgs rfl)
    · have cons (J : Interpretation) : J.Holds (.and ([f] :: fs).flatten) ↔ J.Holds f ∧ J.Holds (.and fs.flatten) := by
        simp
      rw [cons, cons, forall_mem_cons]
      exact ⟨And.imp (hf I).1 (hfs I).1, And.imp (hf I).2 (hfs I).2⟩

/-- A list of declarations has a formula that says what they demand, up to nulls of rows that are not there. -/
theorem declared_iff {schema bound timeBudget sizes : Value} {constraints : List Value} {w₀ w : Workspace}
    (hstart : Gives (start schema constraints bound timeBudget sizes) w₀ () w) {cs : List Value}
    {ds : List (Interpretation → Prop)} (h : List.Forall₂ (Demands w) cs ds) :
    ∃ f w', Gives (Integrity.encode cs) w f w' ∧ ∀ I : Interpretation, (I.Holds f → ∀ d ∈ ds, d I) ∧
      ((∀ d ∈ ds, d I) → ∃ null, (∀ t r c, I.deleted t r = false → null t r c = I.null t r c) ∧
        Interpretation.Holds { I with null } f) := by
  obtain ⟨fs, ts, hg, hfs⟩ := Demands.encoded_all h (start_uniform.start hstart)
  refine ⟨.and fs.flatten, _, bind hg rfl, fun I ↦ ⟨(hfs I).1, fun hI ↦ ⟨I.tidy.null, ?_, (hfs I).2 hI⟩⟩⟩
  intro t r c there
  simp [Interpretation.tidy, there]

/-- A schema of one table whose key has two columns, and which refers to itself. -/
def staff : Value :=
  .list [.object [("TableName", .str "staff"),
    ("PKeys", .list [.object [("Name", .str "id"), ("Type", .str "int")],
      .object [("Name", .str "team"), ("Type", .str "int")]]),
    ("FKeys", .list [.object [("FName", .str "boss"), ("PTable", .int 0), ("PName", .str "id")]]),
    ("Others", .list [])]]

def staffLoaded : Workspace := (exec (start staff [] (.int 2) (.int 60) .null) {}).2

namespace Staff

def id : Attribute := ⟨"Staff", "id", by decide, by decide⟩

def team : Attribute := ⟨"STAFF", "Team", by decide, by decide⟩

def boss : Attribute := ⟨"staff", "BOSS", by decide, by decide⟩

theorem names {a : Attribute} {column : String} {columns : List Int} (hne : columns ≠ [])
    (ha : lower a.table = "staff" ∧ lower a.column = column)
    (hcolumns : ((staffLoaded.catalog.table 0).columns.filter (·.name.same (.str column))).map (·.id) = columns) :
    a.Names staffLoaded ⟨0, 2, columns⟩ := by
  have hplace : findNamed staffLoaded "staff" staffLoaded.database.places = .ok 0 :=
    Outcome.ok_of_toOption (by decide +kernel)
  have hrows : (staffLoaded.catalog.table 0).rows = .ok 2 := Outcome.ok_of_toOption (by decide +kernel)
  have hid : (staffLoaded.catalog.table 0).id = 0 := by decide +kernel
  exact ⟨hne, 0, 2, ha.1 ▸ hplace, hrows, by rw [hid, ha.2, hcolumns]⟩

end Staff

theorem declared_iff_staff :
    let key : Shape := ⟨0, 2, [0, 1]⟩
    let boss : Shape := ⟨0, 2, [2]⟩
    let id : Shape := ⟨0, 2, [0]⟩
    let ds : List (Interpretation → Prop) :=
      [fun I ↦ ((I.rowsThere key).map (I.record key)).Nodup ∧ (true = true → ∀ r ∈ I.rowsThere key, none ∉ I.record key r),
        fun I ↦ ∀ r ∈ I.rowsThere boss, ∀ v, some v ∈ I.record boss r →
          ∃ q ∈ I.rowsThere id, (I.record id q).getLast? = some (some v),
        fun I ↦ ∀ r ∈ I.rowsThere boss, none ∉ I.record boss r]
    Gives (start staff [] (.int 2) (.int 60) .null) {} () staffLoaded ∧
    ∃ f w', Gives (Integrity.encode [.object [("primary", .list [.str Staff.id.text, .str Staff.team.text])],
        .object [("eq", .list [.str Staff.boss.text, .str Staff.id.text])], .object [("not_null", .str Staff.boss.text)]])
        staffLoaded f w' ∧ ∀ I : Interpretation, (I.Holds f → ∀ d ∈ ds, d I) ∧
      ((∀ d ∈ ds, d I) → ∃ null, (∀ t r c, I.deleted t r = false → null t r c = I.null t r c) ∧
        Interpretation.Holds { I with null } f) := by
  intro key boss id ds
  have hstart : Gives (start staff [] (.int 2) (.int 60) .null) {} () staffLoaded := .of_toOption (by decide +kernel)
  have lid : lower Staff.id.table = "staff" ∧ lower Staff.id.column = "id" := by decide +kernel
  have lteam : lower Staff.team.table = "staff" ∧ lower Staff.team.column = "team" := by decide +kernel
  have lboss : lower Staff.boss.table = "staff" ∧ lower Staff.boss.column = "boss" := by decide +kernel
  have hid : Staff.id.Names staffLoaded id := Staff.names (by decide) lid (by decide +kernel)
  have hteam : Staff.team.Names staffLoaded ⟨0, 2, [1]⟩ := Staff.names (by decide) lteam (by decide +kernel)
  have hboss : Staff.boss.Names staffLoaded boss := Staff.names (by decide) lboss (by decide +kernel)
  have hkey := Demands.key true (.cons hid (.cons hteam .nil)) (by simp [lid, lteam])
  exact ⟨hstart, declared_iff hstart (.cons hkey (.cons (.reference hboss hid) (.cons (.notNull hboss) .nil)))⟩

end QueryEquiv
