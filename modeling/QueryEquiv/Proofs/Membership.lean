import QueryEquiv.Proofs.Evaluation

/-!
# Membership and its negation

The test that a value is not among others, or that a tuple is in no row of a table, is encoded by a path of
its own and not as the negation of a membership test. Here both are encoded in one workspace and compared in
every interpretation.

Among values, the negated test is null if a value is equal and another is null, where the membership test is
null if no value is equal and one is null. So the two agree where no value is null, and where the left side
is. In a table neither test is ever null: the membership test is true if a row is known to be the tuple, the
negated test if every row is known to differ. So they agree where the membership is not unknown.
-/

namespace QueryEquiv

open Term Sql Reading Outcome Interpretation Gives List Workspace Expression

/-! ## Connectives of three values -/

namespace Sql

/-- A comparison is true if it is neither false nor null. -/
theorem isTrue_compare_iff {op : Comparison} {a b : Option Int} :
    IsTrue (compare op a b) ↔ compare op a b ≠ some 0 ∧ compare op a b ≠ none := by
  cases a with
  | none => simp [compare, IsTrue]
  | some m =>
    cases b with
    | none => simp [compare, IsTrue]
    | some n => simp [compare, IsTrue]

variable {xs : List (Option Int)}

theorem conjunction_eq_some_one_iff : conjunction xs = some 1 ↔ some 0 ∉ xs ∧ none ∉ xs := by
  rw [conjunction]
  by_cases hzero : some 0 ∈ xs
  · simp [hzero]
  · by_cases hnone : none ∈ xs <;> simp [hzero, hnone]

theorem conjunction_eq_some_zero_iff : conjunction xs = some 0 ↔ some 0 ∈ xs := by
  rw [conjunction]
  by_cases hzero : some 0 ∈ xs
  · simp [hzero]
  · by_cases hnone : none ∈ xs <;> simp [hzero, hnone]

theorem disjunction_eq_some_one_iff : disjunction xs = some 1 ↔ ∃ x ∈ xs, IsTrue x := by
  rw [disjunction]
  by_cases hone : ∃ x ∈ xs, IsTrue x
  · simp [hone]
  · by_cases hnone : none ∈ xs <;> simp [hone, hnone]

theorem disjunction_eq_some_zero_iff : disjunction xs = some 0 ↔ ∀ x ∈ xs, x = some 0 := by
  rw [disjunction]
  by_cases hone : ∃ x ∈ xs, IsTrue x
  · obtain ⟨x, hx, htrue⟩ := hone
    rw [if_pos ⟨x, hx, htrue⟩]
    refine iff_of_false (by simp) fun hall ↦ ?_
    rw [hall x hx] at htrue
    exact htrue rfl
  · rw [if_neg hone]
    by_cases hnone : none ∈ xs
    · rw [if_pos hnone]
      exact iff_of_false (by simp) fun hall ↦ absurd (hall none hnone) (by simp)
    · rw [if_neg hnone]
      refine iff_of_true rfl fun x hx ↦ ?_
      push Not at hone
      cases x with
      | none => exact absurd hx hnone
      | some n => exact congrArg some (not_not.1 (hone _ hx))

/-- A disjunction is true, false or null. -/
theorem disjunction_cases (xs : List (Option Int)) :
    disjunction xs = some 1 ∨ disjunction xs = some 0 ∨ disjunction xs = none := by
  unfold disjunction
  split
  · exact .inl rfl
  · split
    · exact .inr (.inr rfl)
    · exact .inr (.inl rfl)

end Sql

/-- What follows without failing does not matter to success. -/
theorem Outcome.exists_ok_bind_pure {α β : Type} {x : Outcome α} {g : α → β} :
    (∃ b, (x >>= fun a ↦ pure (g a)) = .ok b) ↔ ∃ a, x = .ok a := by
  cases x <;> simp [bind, Except.bind, pure, Except.pure]

/-- A list is mapped successfully exactly if each member is. -/
theorem Outcome.mapM_ok_iff {α β : Type} {f : α → Outcome β} {l : List α} :
    (∃ bs, l.mapM f = .ok bs) ↔ ∀ a ∈ l, ∃ b, f a = .ok b := by
  induction l with
  | nil => simp [pure, Except.pure]
  | cons a l ih =>
    rw [forall_mem_cons, ← ih, mapM_cons]
    simp only [bind_ok_iff, pure_ok_iff]
    constructor
    · rintro ⟨_, b, hb, bs, hbs, rfl⟩
      exact ⟨⟨b, hb⟩, bs, hbs⟩
    · rintro ⟨⟨b, hb⟩, bs, hbs⟩
      exact ⟨_, b, hb, bs, hbs, rfl⟩

theorem Term.compare_cell_ok_iff {op : Comparison} {a c : Term} {t i j : Int} :
    compare op a (.cell t i j) = .ok c ↔ a.isPlain = false ∧ c = .cmp op a (.cell t i j) := by
  cases a with
  | plain v => simp [compare, comparison, isPlain]
  | _ => simp [compare, comparison, isPlain, eq_comm]

theorem Reading.mem_firstColumns {t : Int} {i width : Nat} {r : Reading} (h : r ∈ firstColumns t i width) :
    ∃ c : Nat, r = (.cell t i c, .null t i c) := by
  obtain ⟨c, -, rfl⟩ := mem_map.1 h
  exact ⟨c, rfl⟩

namespace Interpretation

variable (I : Interpretation) {a b l r : Reading} {rs ls : List Reading} {t : Int} {i n : Nat}

/-- Two conditions are true in the same case, and null in the same case. -/
def Alike (a b : Reading) : Prop :=
  (Sql.IsTrue (I.read a) ↔ Sql.IsTrue (I.read b)) ∧ (I.read a = none ↔ I.read b = none)

theorem alike_iff : I.Alike a b ↔
    (¬ I.Holds a.2 ∧ I.Holds a.1 ↔ ¬ I.Holds b.2 ∧ I.Holds b.1) ∧ (I.Holds a.2 ↔ I.Holds b.2) := by
  rw [Alike, isTrue_read, isTrue_read, read_eq_none_iff, read_eq_none_iff]

/-- The comparison of a tuple with a row of a table. -/
def sameRow (t : Int) (ls : List Reading) (i : Nat) : Option Int :=
  Sql.conjunction ((ls.zip (Reading.firstColumns t i ls.length)).map fun p ↦
    Sql.compare .eq (I.read p.1) (I.read p.2))

/-- Whether a tuple is one of the rows of a table that are there. -/
def inRows (t : Int) (n : Nat) (ls : List Reading) : Option Int :=
  Sql.disjunction (((List.range n).filter fun (i : Nat) ↦ !I.deleted t i).map (I.sameRow t ls))

variable {I}

/-! ## Among values -/

theorem holds_memberNull {m : Term} (hne : rs ≠ []) : I.Holds (memberNull l m rs) ↔
    I.Holds l.2 ∨ ¬ I.Holds m ∧ none ∈ rs.map I.read := by
  by_cases hl : I.Holds l.2 <;> simp [memberNull, holds_anyNull (.inl hne), hl]

/-- The two tests among values succeed alike. -/
theorem notAmong_ok_iff : (∃ a, notAmong l rs = .ok a) ↔ ∃ b, among l rs = .ok b :=
  exists_ok_bind_pure.trans exists_ok_bind_pure.symm

/-- The negated test is the negation of the test if no value is null, or if the left side is. -/
theorem alike_notAmong (hne : rs ≠ []) (ha : notAmong l rs = .ok a) (hb : among l rs = .ok b) :
    I.Alike a (.not b.1, anyNull [b]) ↔ I.read l = none ∨ none ∉ rs.map I.read := by
  obtain ⟨ts, hts, ha⟩ := bind_ok_iff.1 ha
  obtain rfl := pure_ok_iff.1 ha
  obtain ⟨ts', hts', hb⟩ := bind_ok_iff.1 hb
  obtain rfl := pure_ok_iff.1 hb
  obtain rfl : ts = ts' := Except.ok.inj (hts.symm.trans hts')
  rw [alike_iff, read_eq_none_iff]
  simp only [anyNull, map_cons, map_nil, holds_or_cons, mem_singleton, exists_eq_left,
    holds_memberNull hne, holds_not, not_not]
  by_cases hl : I.Holds l.2
  · simp [hl]
  · by_cases hm : I.Holds (.or ts) <;> by_cases hn : none ∈ rs.map I.read <;> simp [hl, hm, hn]

/-! ## In a table -/

theorem sameRow_eq_some_one_iff : I.sameRow t ls i = some 1 ↔
    ∀ p ∈ ls.zip (firstColumns t i ls.length), IsTrue (compare .eq (I.read p.1) (I.read p.2)) := by
  rw [sameRow, conjunction_eq_some_one_iff]
  simp only [mem_map, not_exists, not_and, isTrue_compare_iff]
  exact forall₂_and.symm

theorem sameRow_eq_some_zero_iff : I.sameRow t ls i = some 0 ↔
    ∃ p ∈ ls.zip (firstColumns t i ls.length), compare .eq (I.read p.1) (I.read p.2) = some 0 := by
  rw [sameRow, conjunction_eq_some_zero_iff, mem_map]

/-- A tuple is in the rows if one of those that are there is the tuple. -/
theorem inRows_eq_some_one_iff : I.inRows t n ls = some 1 ↔
    ∃ i < n, I.deleted t i = false ∧ I.sameRow t ls i = some 1 := by
  have htrue (i : Nat) : IsTrue (I.sameRow t ls i) ↔ I.sameRow t ls i = some 1 := by
    unfold sameRow Sql.conjunction
    split
    · simp [IsTrue]
    · split <;> simp [IsTrue]
  rw [inRows, disjunction_eq_some_one_iff]
  simp [htrue, and_assoc]

/-- A tuple is not in the rows if all of those that are there differ from it. -/
theorem inRows_eq_some_zero_iff : I.inRows t n ls = some 0 ↔
    ∀ i < n, I.deleted t i = false → I.sameRow t ls i = some 0 := by
  rw [inRows, disjunction_eq_some_zero_iff, forall_mem_map]
  simp

/-- A column of a row is known to be the member of the tuple. -/
theorem holds_sameAt {c : Term} {j : Nat} (hc : compare .eq l.1 (.cell t i j) = .ok c) :
    I.Holds (.and [.and [.not l.2, .not (.null t i j)], c]) ↔
      IsTrue (compare .eq (I.read l) (I.read (.cell t i j, .null t i j))) := by
  obtain ⟨-, rfl⟩ := compare_cell_ok_iff.1 hc
  by_cases hl : I.Holds l.2 <;> by_cases hn : I.null t i j <;>
    simp [read, Sql.compare, Sql.IsTrue, holds_cmp, hl, hn, -ne_eq, toInt_ne_zero]

/-- A column of a row is known to differ from the member of the tuple. -/
theorem holds_differAt {c : Term} {j : Nat} (hc : compare .ne l.1 (.cell t i j) = .ok c) :
    I.Holds (.and [.not (.or [l.2, .null t i j]), c]) ↔
      compare .eq (I.read l) (I.read (.cell t i j, .null t i j)) = some 0 := by
  obtain ⟨-, rfl⟩ := compare_cell_ok_iff.1 hc
  have hzero (b : Bool) : b.toInt = 0 ↔ b = false := by cases b <;> decide
  by_cases hl : I.Holds l.2 <;> by_cases hn : I.null t i j <;>
    simp [read, Sql.compare, Comparison.holds, holds_cmp, hzero, hl, hn]

section

variable {α : Type} {f : α → Outcome Term} {xs : List α} {ts : List Term} {p : α → Prop} (h : xs.mapM f = .ok ts)
  (hp : ∀ x ∈ xs, ∀ u, f x = .ok u → (I.Holds u ↔ p x))
include h hp

theorem holds_or_mapM : I.Holds (.or ts) ↔ (∃ x ∈ xs, p x) ∨ (xs = [] ∧ I.emptyOr = true) := by
  rw [holds_or]
  refine or_congr ⟨?_, ?_⟩ (and_congr_left' ?_)
  · rintro ⟨u, hu, hholds⟩
    obtain ⟨x, hx, hxu⟩ := (mem_mapM h).2 _ hu
    exact ⟨x, hx, (hp x hx u hxu).1 hholds⟩
  · rintro ⟨x, hx, hpx⟩
    obtain ⟨u, hu, hxu⟩ := (mem_mapM h).1 _ hx
    exact ⟨u, hu, (hp x hx u hxu).2 hpx⟩
  · rw [← length_eq_zero_iff, ← length_eq_zero_iff, (mapM_ok h).length_eq]

theorem holds_and_mapM : I.Holds (.and ts) ↔ ∀ x ∈ xs, p x := by
  rw [holds_and]
  constructor
  · intro hall x hx
    obtain ⟨u, hu, hxu⟩ := (mem_mapM h).1 _ hx
    exact (hp x hx u hxu).1 (hall u hu)
  · intro hall u hu
    obtain ⟨x, hx, hxu⟩ := (mem_mapM h).2 _ hu
    exact (hp x hx u hxu).2 (hall x hx)

end

/-- The test in a table is true if the tuple is in the rows. It is never null, so it is false where this is
not known. -/
theorem holds_inTable (ha : inTable t n ls = .ok a) :
    ¬ I.Holds a.2 ∧ (I.Holds a.1 ↔ I.inRows t n ls = some 1 ∨ (n = 0 ∧ I.emptyOr = true)) := by
  obtain ⟨hits, hhits, ha⟩ := bind_ok_iff.1 ha
  obtain rfl := pure_ok_iff.1 ha
  refine ⟨I.not_holds_bot, (holds_or_mapM hhits (p := fun (i : Nat) ↦ I.deleted t i = false ∧ I.sameRow t ls i = some 1)
    fun i _ u hu ↦ ?_).trans ?_⟩
  · obtain ⟨parts, hparts, hu⟩ := bind_ok_iff.1 hu
    obtain rfl := pure_ok_iff.1 hu
    rw [holds_and, forall_mem_cons, holds_not, holds_deleted, Bool.not_eq_true, ← holds_and, sameRow_eq_some_one_iff]
    refine and_congr_right' (holds_and_mapM hparts ?_)
    rintro ⟨l, r⟩ hp v hv
    obtain ⟨j, rfl⟩ := mem_firstColumns (of_mem_zip hp).2
    obtain ⟨c, hc, hv⟩ := bind_ok_iff.1 hv
    obtain rfl := pure_ok_iff.1 hv
    exact holds_sameAt hc
  · rw [inRows_eq_some_one_iff]
    simp only [mem_range, range_eq_nil]

/-- The negated test in a table is true if the tuple is not in the rows, and false where this is not known. -/
theorem holds_notInTable (hne : ls ≠ []) (ha : notInTable t n ls = .ok a) :
    ¬ I.Holds a.2 ∧ (I.Holds a.1 ↔ I.inRows t n ls = some 0) := by
  obtain ⟨misses, hmisses, ha⟩ := bind_ok_iff.1 ha
  obtain rfl := pure_ok_iff.1 ha
  have hall : I.Holds (.and misses) ↔ I.inRows t n ls = some 0 := by
    rw [inRows_eq_some_zero_iff]
    refine (holds_and_mapM hmisses (p := fun (i : Nat) ↦ I.deleted t i = false → I.sameRow t ls i = some 0)
      fun i _ u hu ↦ ?_).trans (by simp only [mem_range])
    obtain ⟨parts, hparts, hu⟩ := bind_ok_iff.1 hu
    obtain rfl := pure_ok_iff.1 hu
    rw [holds_implies, holds_not, holds_deleted, Bool.not_eq_true, sameRow_eq_some_zero_iff]
    refine imp_congr_right fun _ ↦ (holds_or_mapM hparts ?_).trans (or_iff_left ?_)
    · rintro ⟨l, r⟩ hp v hv
      obtain ⟨j, rfl⟩ := mem_firstColumns (of_mem_zip hp).2
      obtain ⟨c, hc, hv⟩ := bind_ok_iff.1 hv
      obtain rfl := pure_ok_iff.1 hv
      exact holds_differAt hc
    · rintro ⟨hzip, -⟩
      have hlen := congrArg List.length hzip
      simp [firstColumns, hne] at hlen
  refine ⟨I.not_holds_bot, ?_⟩
  -- That no row is there is a case of all that are there being different.
  change I.Holds (.or [_, _]) ↔ _
  rw [holds_or₂, hall]
  refine or_iff_right_of_imp fun hgone ↦ inRows_eq_some_zero_iff.2 fun i hi hthere ↦ ?_
  rw [holds_and, forall_mem_map] at hgone
  have := hgone i (mem_range.2 hi)
  rw [holds_deleted, hthere] at this
  cases this

/-- A tuple is compared with a row if its members are terms, whatever the comparison. -/
theorem compareRow_ok_iff (op : Comparison) (g : Reading × Reading → Term → Term) :
    (∃ parts, (ls.zip (firstColumns t i ls.length)).mapM (fun p ↦ do
      let c ← compare op p.1.1 p.2.1
      return g p c : Reading × Reading → Outcome Term) = .ok parts) ↔
      ∀ p ∈ ls.zip (firstColumns t i ls.length), p.1.1.isPlain = false := by
  rw [mapM_ok_iff]
  refine forall₂_congr fun p hp ↦ exists_ok_bind_pure.trans ?_
  obtain ⟨j, hj⟩ := mem_firstColumns (of_mem_zip hp).2
  simp [hj, compare_cell_ok_iff]

/-- The two tests in a table succeed alike. -/
theorem notInTable_ok_iff : (∃ a, notInTable t n ls = .ok a) ↔ ∃ b, inTable t n ls = .ok b := by
  refine (exists_ok_bind_pure.trans mapM_ok_iff).trans
    (Iff.trans ?_ (exists_ok_bind_pure.trans mapM_ok_iff).symm)
  refine forall₂_congr fun i _ ↦ exists_ok_bind_pure.trans (Iff.trans ?_ exists_ok_bind_pure.symm)
  exact (compareRow_ok_iff .ne fun p c ↦ .and [.not (.or [p.1.2, p.2.2]), c]).trans
    (compareRow_ok_iff .eq fun p c ↦ .and [.and [.not p.1.2, .not p.2.2], c]).symm

/-- The negated test in a table is the negation of the test if it is known whether the tuple is in the rows. -/
theorem alike_notInTable (hne : ls ≠ []) (ha : notInTable t n ls = .ok a) (hb : inTable t n ls = .ok b) :
    I.Alike a (.not b.1, anyNull [b]) ↔ I.inRows t n ls ≠ none ∧ (n = 0 → I.emptyOr = false) := by
  obtain ⟨hanull, ha⟩ := holds_notInTable (I := I) hne ha
  obtain ⟨hbnull, hb⟩ := holds_inTable (I := I) hb
  rw [alike_iff]
  simp only [anyNull, map_cons, map_nil, holds_or_cons, mem_singleton, exists_eq_left, holds_not,
    hanull, hbnull, ha, hb]
  by_cases hn : n = 0
  · subst hn
    have hnone : I.inRows t 0 ls = some 0 := rfl
    simp [hnone]
  · obtain h | h | h : I.inRows t n ls = some 1 ∨ I.inRows t n ls = some 0 ∨ I.inRows t n ls = none :=
      disjunction_cases _
    all_goals simp [h, hn]

end Interpretation

/-! ## The encodings -/

namespace Expression

variable {r : Reader} {members : Node → Encoding Nat} {w w' : Workspace} {a : Reading} {x y : Node}

/-- A left or right side of a membership test: an expression, a query, or a list that is not empty. -/
def Side : Node → Prop
  | .list ps => ps ≠ []
  | .raw _ => False
  | _ => True

/-- The readings that a membership test among values compares. -/
def ReadValues (r : Reader) (x y : Node) (w : Workspace) (l : Reading) (rs : List Reading) (w' : Workspace) : Prop :=
  ∃ parts v, memberReadings r y = some parts ∧ Gives (encode r x) w l v ∧ Gives (inTurn parts) v rs w'

/-- The tuple that a membership test looks for in a table, and the number of rows. -/
def ReadRows (r : Reader) (members : Node → Encoding Nat) (x y : Node) (w : Workspace) (t : Table) (n : Nat)
    (ls : List Reading) (w' : Workspace) : Prop :=
  ∃ place v, memberReadings r y = none ∧ Gives (members y) w place v ∧ t = v.catalog.table place ∧
    Gives (tupleReadings t.columns.length ⟨x, encode r x, memberReadings r x⟩) v ls w' ∧ t.rows = .ok n

variable {rs : List Reading} {l : Reading} {t : Table} {n : Nat} {ls : List Reading} {v : Workspace}

theorem inTurn_length {parts : List (Encoding Reading)} (h : Gives (inTurn parts) w rs w') :
    rs.length = parts.length := by
  induction parts generalizing w rs with
  | nil =>
    obtain ⟨rfl, -⟩ := pure_iff.1 h
    rfl
  | cons p parts ih =>
    obtain ⟨l, v, -, h⟩ := bind_iff.1 h
    obtain ⟨ls, u, hls, h⟩ := bind_iff.1 h
    obtain ⟨rfl, rfl⟩ := pure_iff.1 h
    exact congrArg (· + 1) (ih hls)

theorem length_readings (ns : List Node) : (readings r ns).length = ns.length := by
  induction ns with
  | nil => rfl
  | cons n ns ih => exact congrArg (· + 1) ih

theorem ReadValues.ne_nil (hy : Side y) (h : ReadValues r x y w l rs w') : rs ≠ [] := by
  obtain ⟨parts, v, hparts, -, hrs⟩ := h
  rintro rfl
  have hlen := inTurn_length hrs
  cases y with
  | list ys =>
    obtain rfl := Option.some.inj hparts
    rw [length_readings] at hlen
    exact hy (length_eq_zero_iff.1 hlen.symm)
  | raw v => exact hy
  | _ => cases hparts

theorem ReadRows.ne_nil (hx : Side x) (h : ReadRows r members x y w t n ls w') : ls ≠ [] := by
  obtain ⟨place, v, -, -, -, hls, -⟩ := h
  have hwide {k : Nat} {parts : List (Encoding Reading)} (hne : parts ≠ [])
      (hg : Gives (if t.columns.length == k then inTurn parts else throw .broken) v ls w') : ls ≠ [] := by
    split at hg
    · rintro rfl
      exact hne (length_eq_zero_iff.1 (inTurn_length hg).symm)
    · exact absurd hg not_throw
  cases x with
  | list ps =>
    refine hwide (fun hnil ↦ hx ?_) hls
    rw [← length_eq_zero_iff, ← length_readings (r := r), hnil]
    rfl
  | raw v => exact hx.elim
  | column | expression | caseWhen | ifThen => exact hwide (cons_ne_nil _ _) hls
  | _ => exact absurd hls not_throw

/-- A membership test compares values, or looks for a tuple in a table. -/
theorem membership_gives_iff {negated : Bool} : Gives (membership members negated (arguments r [x, y])) w a w' ↔
      (∃ l rs, ReadValues r x y w l rs w' ∧ (if negated then notAmong l rs else among l rs) = .ok a) ∨
      ∃ t n ls, ReadRows r members x y w t n ls w' ∧
        (if negated then notInTable t.id n ls else inTable t.id n ls) = .ok a := by
  have hlift {b c : Outcome Reading} {v : Workspace} :
      Gives (if negated then liftM b else liftM c) v a w' ↔ (if negated then b else c) = .ok a ∧ w' = v := by
    cases negated <;> exact lift_iff
  cases hy : memberReadings r y with
  | some parts =>
    have hrows (t n ls) : ¬ ReadRows r members x y w t n ls w' := by
      rintro ⟨_, _, hnone, -⟩
      rw [hy] at hnone
      cases hnone
    simp only [hrows, false_and, exists_false, or_false, ReadValues, hy, Option.some.injEq]
    simp only [membership, arguments, argument, getElem?_cons_succ, getElem?_cons_zero, pure_bind, hy,
      bind_iff, hlift]
    constructor
    · rintro ⟨l, v, hl, rs, _, hrs, ha, rfl⟩
      exact ⟨l, rs, ⟨parts, v, rfl, hl, hrs⟩, ha⟩
    · rintro ⟨l, rs, ⟨_, v, rfl, hl, hrs⟩, ha⟩
      exact ⟨l, v, hl, rs, _, hrs, ha, rfl⟩
  | none =>
    have hvalues (l rs) : ¬ ReadValues r x y w l rs w' := by
      rintro ⟨_, _, hsome, -⟩
      rw [hy] at hsome
      cases hsome
    simp only [hvalues, false_and, exists_false, false_or, ReadRows, hy, true_and]
    simp only [membership, arguments, argument, getElem?_cons_succ, getElem?_cons_zero, pure_bind, hy,
      bind_iff, table_gives, lift_iff, hlift]
    constructor
    · rintro ⟨place, v, hplace, _, _, ⟨rfl, rfl⟩, ls, _, hls, n, _, ⟨hn, rfl⟩, ha, rfl⟩
      exact ⟨_, n, ls, ⟨place, _, hplace, rfl, hls, hn⟩, ha⟩
    · rintro ⟨_, n, ls, ⟨place, v, hplace, rfl, hls, hn⟩, ha⟩
      exact ⟨place, v, hplace, _, _, ⟨rfl, rfl⟩, ls, _, hls, n, _, ⟨hn, rfl⟩, ha, rfl⟩

theorem ReadValues.unique {l' : Reading} {rs' : List Reading} (h : ReadValues r x y w l rs w')
    (h' : ReadValues r x y w l' rs' v) : l = l' ∧ rs = rs' ∧ w' = v := by
  obtain ⟨parts, u, hparts, hl, hrs⟩ := h
  obtain ⟨parts', u', hparts', hl', hrs'⟩ := h'
  obtain rfl : parts = parts' := Option.some.inj (hparts.symm.trans hparts')
  obtain ⟨rfl, rfl⟩ := hl.unique hl'
  exact ⟨rfl, hrs.unique hrs'⟩

theorem ReadRows.unique {t' : Table} {n' : Nat} {ls' : List Reading}
    (h : ReadRows r members x y w t n ls w') (h' : ReadRows r members x y w t' n' ls' v) :
    t = t' ∧ n = n' ∧ ls = ls' ∧ w' = v := by
  obtain ⟨place, u, -, hplace, rfl, hls, hn⟩ := h
  obtain ⟨place', u', -, hplace', rfl, hls', hn'⟩ := h'
  obtain ⟨rfl, rfl⟩ := hplace.unique hplace'
  obtain ⟨rfl, rfl⟩ := hls.unique hls'
  exact ⟨rfl, Except.ok.inj (hn.symm.trans hn'), rfl, rfl⟩

theorem ReadRows.not_readValues (h : ReadRows r members x y w t n ls w') : ¬ ReadValues r x y w l rs v := by
  obtain ⟨_, _, hnone, -⟩ := h
  rintro ⟨_, _, hsome, -⟩
  rw [hnone] at hsome
  cases hsome

/-- The negation of an expression is null where it is, and otherwise its opposite. -/
theorem negation_gives_iff {n : Node} {byname : Value} :
    Gives (encode r (.expression (.str "not") [n] byname)) w a w' ↔
      ∃ b, Gives (encode r n) w b w' ∧ a = (.not b.1, anyNull [b]) := by
  rw [encode, if_pos (by decide)]
  simp only [readings, inTurn, bind_iff, pure_iff, lift_iff]
  constructor
  · rintro ⟨_, _, ⟨b, v, hb, _, _, ⟨rfl, rfl⟩, rfl, rfl⟩, ha, rfl⟩
    exact ⟨b, hb, (Except.ok.inj ha).symm⟩
  · rintro ⟨b, hb, rfl⟩
    exact ⟨_, _, ⟨b, w', hb, _, _, ⟨rfl, rfl⟩, rfl, rfl⟩, rfl, rfl⟩

/-- `x NOT IN y` and `NOT (x IN y)`, read at a row or at a pair of rows, succeed alike and leave the same
workspace behind. Among values they are true in the same case and null in the same case exactly if the left
side is null or no value on the right is; in a table, exactly if it is known whether the tuple is in the rows
that are there. -/
theorem notIn_alike_iff {rows : Encoding Nat} (hr : r.function = rowFunction members rows) (hx : Side x)
    (hy : Side y) (b₁ b₂ b₃ : Value) (w : Workspace) :
    ((∃ a w', Gives (encode r (.expression (.str "nin") [x, y] b₁)) w a w') ↔
      ∃ b w', Gives (encode r (.expression (.str "not") [.expression (.str "in") [x, y] b₂] b₃)) w b w') ∧
    ∀ a w₁ b w₂, Gives (encode r (.expression (.str "nin") [x, y] b₁)) w a w₁ →
      Gives (encode r (.expression (.str "not") [.expression (.str "in") [x, y] b₂] b₃)) w b w₂ →
      w₁ = w₂ ∧
      ((∃ l rs, ReadValues r x y w l rs w₁ ∧
          ∀ I : Interpretation, I.Alike a b ↔ I.read l = none ∨ none ∉ rs.map I.read) ∨
        ∃ t n ls, ReadRows r members x y w t n ls w₁ ∧
          ∀ I : Interpretation, I.Alike a b ↔ I.inRows t.id n ls ≠ none ∧ (n = 0 → I.emptyOr = false)) := by
  have hnin : encode r (.expression (.str "nin") [x, y] b₁) = membership members true (arguments r [x, y]) := by
    rw [encode, if_neg (by decide), hr]
    rfl
  have hin : encode r (.expression (.str "in") [x, y] b₂) = membership members false (arguments r [x, y]) := by
    rw [encode, if_neg (by decide), hr]
    rfl
  simp only [negation_gives_iff, hnin, hin, membership_gives_iff, if_true, Bool.false_eq_true, if_false]
  refine ⟨⟨?_, ?_⟩, ?_⟩
  · rintro ⟨a, w', ⟨l, rs, hread, ha⟩ | ⟨t, n, ls, hread, ha⟩⟩
    · obtain ⟨b, hb⟩ := notAmong_ok_iff.1 ⟨a, ha⟩
      exact ⟨_, w', b, .inl ⟨l, rs, hread, hb⟩, rfl⟩
    · obtain ⟨b, hb⟩ := notInTable_ok_iff.1 ⟨a, ha⟩
      exact ⟨_, w', b, .inr ⟨t, n, ls, hread, hb⟩, rfl⟩
  · rintro ⟨_, w', b, ⟨l, rs, hread, hb⟩ | ⟨t, n, ls, hread, hb⟩, -⟩
    · obtain ⟨a, ha⟩ := notAmong_ok_iff.2 ⟨b, hb⟩
      exact ⟨a, w', .inl ⟨l, rs, hread, ha⟩⟩
    · obtain ⟨a, ha⟩ := notInTable_ok_iff.2 ⟨b, hb⟩
      exact ⟨a, w', .inr ⟨t, n, ls, hread, ha⟩⟩
  · rintro a w₁ _ w₂ (⟨l, rs, hread, ha⟩ | ⟨t, n, ls, hread, ha⟩)
      ⟨b, ⟨l', rs', hread', hb⟩ | ⟨t', n', ls', hread', hb⟩, rfl⟩
    · obtain ⟨rfl, rfl, rfl⟩ := hread.unique hread'
      exact ⟨rfl, .inl ⟨l, rs, hread, fun I ↦ I.alike_notAmong (hread.ne_nil hy) ha hb⟩⟩
    · exact absurd hread hread'.not_readValues
    · exact absurd hread' hread.not_readValues
    · obtain ⟨rfl, rfl, rfl, rfl⟩ := hread.unique hread'
      exact ⟨rfl, .inr ⟨t, n, ls, hread, fun I ↦ I.alike_notInTable (hread.ne_nil hx) ha hb⟩⟩

/-- At the second row of a table, `a NOT IN (1, b)` is `NOT (a IN (1, b))` where the reading of `a` is null or
none of the others is. -/
theorem pairedTable_notIn : ∃ a b w' l rs,
    Gives (encode (atRow (Query.nested 3) 0 1 none none 0 200)
      (.expression (.str "nin") [.attr "a", .list [.lit (.int 1), .attr "b"]] .null)) pairedTable a w' ∧
    Gives (encode (atRow (Query.nested 3) 0 1 none none 0 200)
      (.expression (.str "not") [.expression (.str "in") [.attr "a", .list [.lit (.int 1), .attr "b"]] .null] .null))
      pairedTable b w' ∧
    ReadValues (atRow (Query.nested 3) 0 1 none none 0 200) (.attr "a") (.list [.lit (.int 1), .attr "b"]) pairedTable
      l rs w' ∧
    ∀ I : Interpretation, I.Alike a b ↔ I.read l = none ∨ none ∉ rs.map I.read := by
  obtain ⟨hboth, halike⟩ := notIn_alike_iff (r := atRow (Query.nested 3) 0 1 none none 0 200) (x := .attr "a")
    (y := .list [.lit (.int 1), .attr "b"]) rfl trivial (cons_ne_nil _ _) .null .null .null pairedTable
  have hsome : (exec (encode (atRow (Query.nested 3) 0 1 none none 0 200)
      (.expression (.str "nin") [.attr "a", .list [.lit (.int 1), .attr "b"]] .null))
      pairedTable).1.toOption.isSome := by decide +kernel
  obtain ⟨a, ha⟩ := Option.isSome_iff_exists.1 hsome
  have ha := of_toOption ha
  obtain ⟨b, w', hb⟩ := hboth.1 ⟨a, _, ha⟩
  obtain ⟨hw, ⟨l, rs, hread, hiff⟩ | ⟨t, n, ls, hread, -⟩⟩ := halike a _ b w' ha hb
  · exact ⟨a, b, w', l, rs, hw ▸ ha, hb, hw ▸ hread, hiff⟩
  · obtain ⟨_, _, hnone, -⟩ := hread
    cases hnone

end Expression

end QueryEquiv
