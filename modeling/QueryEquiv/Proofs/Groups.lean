import QueryEquiv.Operator.GroupBy
import QueryEquiv.Proofs.Evaluation
import QueryEquiv.Proofs.Operators
import QueryEquiv.Proofs.Tags

/-!
# Groups of rows

A grouping names each group by its first row. Its formula goes through the rows from the first to the last:
a row names a group if no earlier row that names one has the same keys, and otherwise it joins the group of
such a row. So by induction the rows that name groups are those that are the first of their kind, where
nulls are alike, and each row is in the group of the first row of its kind (`grouped_of_holds`).

Conversely the groups can always be formed, unless the keys or the condition on groups look at what the
grouping itself decides (`exists_grouped`).
-/

namespace QueryEquiv

open Node Term Gives List Operator Operator.GroupBy Workspace

variable {row : Nat} {α : Type}

/-! ## The first of each kind -/

section Kinds

variable {α : Type} {there kept : Nat → Prop} {key : Nat → α} {row : Nat}

/-- A row is there, and no earlier row that is there is of the same kind. -/
def FirstOf (there : Nat → Prop) (key : Nat → α) (row : Nat) : Prop :=
  there row ∧ ∀ e < row, there e → key e ≠ key row

theorem exists_firstOf (h : there row) : ∃ g ≤ row, FirstOf there key g ∧ key g = key row := by
  induction row using Nat.strong_induction_on with
  | _ row ih =>
    by_cases hfirst : FirstOf there key row
    · exact ⟨row, le_rfl, hfirst, rfl⟩
    · rw [FirstOf] at hfirst
      push Not at hfirst
      obtain ⟨e, he, hethere, hsame⟩ := hfirst h
      obtain ⟨g, hg, hgfirst, hgsame⟩ := ih e he hethere
      exact ⟨g, hg.trans he.le, hgfirst, hgsame.trans hsame⟩

/-- It is enough to look at the earlier rows that are first of their kinds. -/
theorem firstOf_iff : FirstOf there key row ↔ there row ∧ ∀ e < row, FirstOf there key e → key e ≠ key row := by
  refine and_congr_right' ⟨fun h e he hfirst ↦ h e he hfirst.1, fun h e he hthere hsame ↦ ?_⟩
  obtain ⟨g, hg, hfirst, hgsame⟩ := exists_firstOf hthere
  exact h g (hg.trans_lt he) hfirst (hgsame.trans hsame)

/-- Rows that are kept unless an earlier row that was kept is of the same kind are the first of their kinds, by
induction on the row. -/
theorem kept_iff_firstOf {n : Nat} (h : ∀ row < n, kept row ↔ there row ∧ ∀ e < row, kept e → key e ≠ key row)
    (hrow : row < n) : kept row ↔ FirstOf there key row := by
  induction row using Nat.strong_induction_on with
  | _ row ih =>
    rw [h row hrow, firstOf_iff]
    exact and_congr_right' (forall₂_congr fun e he ↦ by rw [ih e he (he.trans hrow)])

end Kinds

namespace Interpretation

variable (I : Interpretation)

def keyRecord (keys : Keys) (row : Nat) : Record := (keysAt keys row).map I.read

/-- The rows that are there and have the same keys as a row. -/
def alike (input : Int) (keys : Keys) (row : Nat) : Set Nat :=
  {e | e < keys.length ∧ I.deleted input e = false ∧ I.keyRecord keys e = I.keyRecord keys row}

def IsFirst (input : Int) (keys : Keys) (row : Nat) : Prop := IsLeast (I.alike input keys row) row

/-- The rows are grouped by their keys, and the groups that meet a condition are kept. -/
structure Grouped (input output : Int) (keys : Keys) (having : List Reading) : Prop where
  /-- A row that is there is in the group of the first row of its kind, and in no other. -/
  member : ∀ t < keys.length, ∀ g < keys.length, I.grouping output t g = true ↔
    I.deleted input t = false ∧ IsLeast (I.alike input keys t) g
  /-- The groups before the condition are named by the first rows. -/
  named : ∀ g < keys.length, I.deleted (-output) g = false ↔ I.IsFirst input keys g
  /-- The groups that are kept are those that the condition is true of. -/
  kept : ∀ (g : Nat) (h : Reading), having[g]? = some h →
    (I.deleted output g = false ↔ I.IsFirst input keys g ∧ Sql.IsTrue (I.read h))

/-- The choices of a grouping say which rows name groups, and which groups are kept. -/
structure Chosen (output : Int) (rows : Nat) : Prop where
  named : ∀ g < rows, I.choice output g = (!I.deleted (-output) g).toInt
  kept : ∀ g < rows, I.choice output (rows + g : Nat) = (!I.deleted output g).toInt

variable {I} {input output : Int} {keys : Keys} {having : List Reading}

/-! ## What the formula says -/

private theorem holds_sameKey (x y : Reading) :
    I.Holds (.or [.and [x.2, y.2], .and [.not (.or [x.2, y.2]), .eq x.1 y.1]]) ↔ I.read x = I.read y := by
  by_cases hx : I.Holds x.2 <;> by_cases hy : I.Holds y.2 <;> simp [read, hx, hy]

theorem holds_sameKeys {a b : List Reading} (h : a.length = b.length) :
    I.Holds (sameKeys a b) ↔ a.map I.read = b.map I.read := by
  rw [sameKeys, holds_and, forall_mem_map]
  induction a generalizing b with
  | nil =>
    obtain rfl := length_eq_zero_iff.1 h.symm
    simp
  | cons x a ih =>
    cases b with
    | nil => cases h
    | cons y b =>
      rw [zip_cons_cons, forall_mem_cons, ih (Nat.succ.inj h), holds_sameKey, map_cons, map_cons, List.cons.injEq]

theorem holds_kept (table : Int) (row : Nat) : I.Holds (kept table row) ↔ I.choice table row = 1 := by
  simp [Operator.kept]

theorem holds_dropped (table : Int) (row : Nat) : I.Holds (dropped table row) ↔ I.choice table row = 0 := by
  simp [dropped]

theorem holds_absent (table : Int) (row : Nat) : I.Holds (absent table row) ↔ I.deleted table row = true := by
  simp [absent]

/-- The two cases of a row: what is said if it is kept, and what is said if it is dropped. -/
theorem holds_cases {table : Int} {as bs : List Term} :
    (∀ t ∈ [implies (kept table row) (.and as), .implies (dropped table row) (.and bs)], I.Holds t) ↔
      (I.choice table row = 1 → ∀ a ∈ as, I.Holds a) ∧ (I.choice table row = 0 → ∀ b ∈ bs, I.Holds b) := by
  simp [holds_kept, holds_dropped]

theorem holds_allDecided {table : Int} {count : Nat} : (∀ t ∈ allDecided table count, I.Holds t) ↔
    ∀ b < count, I.choice table (b : Nat) = 1 ∨ I.choice table (b : Nat) = 0 := by
  simp [allDecided, decided, holds_kept, holds_dropped]

private theorem countP_range_eq_one {n : Nat} {p : Nat → Bool} :
    (List.range n).countP p = 1 ↔ ∃ g < n, ∀ e < n, p e = true ↔ e = g := by
  constructor
  · intro h
    rw [countP_eq_length_filter] at h
    obtain ⟨g, hg⟩ := length_eq_one_iff.1 h
    have hmem (e : Nat) : e < n ∧ p e = true ↔ e = g := by
      rw [← mem_range, ← mem_filter, hg, mem_singleton]
    exact ⟨g, ((hmem g).2 rfl).1, fun e he ↦ by rw [← hmem e, and_iff_right he]⟩
  · rintro ⟨g, hg, h⟩
    have hcount : (List.range n).countP p = (List.range n).count g := by
      refine countP_congr fun e he ↦ ?_
      rw [h e (mem_range.1 he), beq_iff_eq]
    rw [hcount]
    exact count_eq_one_of_mem nodup_range (mem_range.2 hg)

/-- A row that is not there is in no group, and a row that is there in exactly one. -/
theorem holds_membership {groups : Nat} : (∀ t ∈ membership input output groups row, I.Holds t) ↔
      (I.deleted input row = true → ∀ g < groups, I.grouping output row g = false) ∧
      (I.deleted input row = false → ∃ g < groups, ∀ e < groups, I.grouping output row e = true ↔ e = g) := by
  rw [membership, forall_mem_cons, forall_mem_singleton, holds_implies, holds_implies, holds_absent,
    holds_present, holds_eq, eval_sum_indicator, eval_one, holds_and]
  refine and_congr ?_ (imp_congr_right fun _ ↦ ?_)
  · simp
  · rw [show (1 : Int) = (1 : Nat) from rfl, Int.ofNat_inj, countP_range_eq_one]
    simp

/-- A term for each earlier row is given as their disjunction, or as falsehood where there is none. -/
theorem holds_earlier (n : Nat) (f : Nat → Term) :
    I.Holds (if n > 0 then .or ((List.range n).map f) else .bot) ↔ ∃ e < n, I.Holds (f e) := by
  by_cases h : n > 0
  · rw [if_pos h, holds_or, or_iff_left]
    · simp
    · rintro ⟨hnil, -⟩
      rw [map_eq_nil_iff, range_eq_nil] at hnil
      omega
  · rw [if_neg h]
    exact iff_of_false I.not_holds_bot fun ⟨e, he, _⟩ ↦ by omega

theorem holds_noEarlier (n : Nat) (f : Nat → Term) :
    I.Holds (if n > 0 then .not (.or ((List.range n).map f)) else .top) ↔ ∀ e < n, ¬ I.Holds (f e) := by
  have h := I.holds_earlier n f
  split at h
  · rw [if_pos ‹_›, holds_not, h]
    push Not
    rfl
  · rw [if_neg ‹_›]
    exact iff_of_true I.holds_top fun e he ↦ by omega

/-- The keys of every row are as many. -/
def Even (keys : Keys) : Prop := ∃ width, ∀ ks ∈ keys, ks.length = width

theorem holds_groupCases (hkeys : Even keys) (hrow : row < keys.length) :
    (∀ t ∈ groupCases input output keys row, I.Holds t) ↔ (I.choice output row = 1 → I.deleted input row = false ∧
        (∀ e < row, I.deleted (-output) e = false → I.keyRecord keys e ≠ I.keyRecord keys row) ∧
        I.grouping output row row = true ∧ I.deleted (-output) row = false) ∧
      (I.choice output row = 0 → (I.deleted input row = true ∨
        ∃ e < row, I.deleted (-output) e = false ∧ I.keyRecord keys e = I.keyRecord keys row ∧
          I.grouping output row e = true) ∧ I.deleted (-output) row = true) := by
  obtain ⟨width, hwidth⟩ := hkeys
  have hlength {e : Nat} (he : e < keys.length) : (keysAt keys e).length = width := by
    rw [keysAt, getElem?_eq_getElem he, Option.getD_some]
    exact hwidth _ (getElem_mem he)
  have hsame {e : Nat} (he : e < row) :
      I.Holds (sameKeys (keysAt keys row) (keysAt keys e)) ↔ I.keyRecord keys e = I.keyRecord keys row := by
    rw [holds_sameKeys (by rw [hlength hrow, hlength (he.trans hrow)]), eq_comm]
    rfl
  rw [groupCases, holds_cases]
  refine and_congr (imp_congr_right fun _ ↦ ?_) (imp_congr_right fun _ ↦ ?_)
  · rw [forall_mem_cons, forall_mem_cons, forall_mem_cons, forall_mem_singleton, holds_present,
      holds_grouping, holds_present]
    refine and_congr_right' (and_congr_left' ((holds_noEarlier _ _).trans (forall₂_congr fun e he ↦ ?_)))
    rw [holds_and₂, holds_present, hsame he, not_and]
  · rw [forall_mem_cons, forall_mem_singleton, holds_absent, holds_or₂, holds_absent, holds_and₂,
      holds_present, holds_earlier]
    refine and_congr_left' ?_
    cases I.deleted input row with
    | true => simp
    | false =>
      simp only [Bool.false_eq_true, false_or, true_and]
      refine exists_congr fun e ↦ and_congr_right fun he ↦ ?_
      rw [holds_and, forall_mem_cons, forall_mem_cons, forall_mem_singleton, holds_present, hsame he, holds_grouping]

theorem holds_havingCases {start group : Nat} {h : Reading} : (∀ t ∈ havingCases output start group h, I.Holds t) ↔
      (I.choice output (start + group : Nat) = 1 → I.deleted (-output) group = false ∧
        Sql.IsTrue (I.read h) ∧ I.deleted output group = false) ∧
      (I.choice output (start + group : Nat) = 0 → (I.deleted (-output) group = true ∨
        ¬ Sql.IsTrue (I.read h)) ∧ I.deleted output group = true) := by
  have htrue : I.Holds (.and [.not h.2, h.1]) ↔ Sql.IsTrue (I.read h) := by simp [isTrue_read]
  rw [havingCases, holds_cases]
  refine and_congr (imp_congr_right fun _ ↦ ?_) (imp_congr_right fun _ ↦ ?_)
  · rw [forall_mem_cons, forall_mem_cons, forall_mem_singleton, holds_present, htrue, holds_present]
  · rw [forall_mem_cons, forall_mem_singleton, holds_absent, holds_or₂, holds_absent, holds_and₂,
      holds_present, holds_not, htrue]
    refine and_congr_left' ?_
    cases I.deleted (-output) group <;> simp

theorem forall_mem_zipIdx {l : List α} {p : α × Nat → Prop} :
    (∀ x ∈ l.zipIdx, p x) ↔ ∀ i a, l[i]? = some a → p (a, i) := by
  simp only [mem_zipIdx_iff_getElem?]
  exact ⟨fun h i a ha ↦ h (a, i) ha, fun h x hx ↦ h x.2 x.1 hx⟩

/-- The formula of a grouping says it of every row, of every group and of every choice. -/
theorem holds_formula_iff : I.Holds (formula input output keys having) ↔
      ((∀ row < keys.length, ∀ t ∈ membership input output keys.length row, I.Holds t) ∧
        ∀ row < keys.length, ∀ t ∈ groupCases input output keys row, I.Holds t) ∧
      (∀ (g : Nat) (h : Reading), having[g]? = some h → ∀ t ∈ havingCases output keys.length g h, I.Holds t) ∧
      ∀ b < keys.length * 2, I.choice output b = 1 ∨ I.choice output b = 0 := by
  rw [formula, holds_and, forall_mem_append, forall_mem_append, forall_mem_append,
    forall_mem_flatMap, forall_mem_flatMap, forall_mem_flatMap, forall_mem_zipIdx, holds_allDecided, and_assoc]
  simp only [mem_range]

/-! ## From the formula to the groups -/

theorem isFirst_iff (hrow : row < keys.length) :
    I.IsFirst input keys row ↔ FirstOf (fun e ↦ I.deleted input e = false) (I.keyRecord keys) row := by
  constructor
  · rintro ⟨⟨-, hthere, -⟩, hleast⟩
    refine ⟨hthere, fun e he hethere hsame ↦ ?_⟩
    exact absurd (hleast ⟨he.trans hrow, hethere, hsame⟩) (by omega)
  · rintro ⟨hthere, hfirst⟩
    refine ⟨⟨hrow, hthere, rfl⟩, fun e ⟨_, hethere, hsame⟩ ↦ ?_⟩
    by_contra hlt
    exact hfirst e (by omega) hethere hsame

theorem exists_isLeast_alike (hrow : row < keys.length) (h : I.deleted input row = false) :
    ∃ g ≤ row, I.IsFirst input keys g ∧ I.keyRecord keys g = I.keyRecord keys row := by
  obtain ⟨g, hg, hfirst, hsame⟩ : ∃ g ≤ row, FirstOf (fun e ↦ I.deleted input e = false) (I.keyRecord keys) g ∧ _ :=
    exists_firstOf h
  exact ⟨g, hg, (isFirst_iff (hg.trans_lt hrow)).2 hfirst, hsame⟩

/-- A row is the least of those with some keys exactly if it is a first row and has these keys. -/
theorem isLeast_alike_iff {t g : Nat} :
    IsLeast (I.alike input keys t) g ↔ I.IsFirst input keys g ∧ I.keyRecord keys g = I.keyRecord keys t := by
  have halike (h : I.keyRecord keys g = I.keyRecord keys t) :
      I.alike input keys g = I.alike input keys t := by
    rw [alike, alike, h]
  constructor
  · intro h
    have hsame := h.1.2.2
    exact ⟨by rwa [IsFirst, halike hsame], hsame⟩
  · rintro ⟨hfirst, hsame⟩
    rwa [← halike hsame]

private theorem choice_one {c : Int} {b : Bool} (h : c = (!b).toInt) : (c = 1 ↔ b = false) ∧ (c = 0 ↔ b = true) := by
  subst h
  cases b <;> decide

section Formula

variable (hkeys : Even keys)
include hkeys

theorem named_iff_isFirst (hdecided : ∀ b < keys.length * 2, I.choice output b = 1 ∨ I.choice output b = 0)
    (hcases : ∀ row < keys.length, ∀ t ∈ groupCases input output keys row, I.Holds t)
    (hrow : row < keys.length) : I.deleted (-output) row = false ↔ I.IsFirst input keys row := by
  rw [isFirst_iff hrow]
  refine kept_iff_firstOf (fun row hrow ↦ (?_ : I.deleted (-output) row = false ↔ _)) hrow
  obtain ⟨hkept, hdropped⟩ := (holds_groupCases hkeys hrow).1 (hcases row hrow)
  rcases hdecided row (by omega) with hone | hzero
  · obtain ⟨hthere, hnew, -, hnamed⟩ := hkept hone
    exact iff_of_true hnamed ⟨hthere, hnew⟩
  · obtain ⟨hjoined, hunnamed⟩ := hdropped hzero
    refine iff_of_false (by simp [hunnamed]) fun ⟨hthere, hnew⟩ ↦ ?_
    obtain habsent | ⟨e, he, hnamed, hsame, -⟩ := hjoined
    · simp [hthere] at habsent
    · exact hnew e he hnamed hsame

private theorem exists_group (hdecided : ∀ b < keys.length * 2, I.choice output b = 1 ∨ I.choice output b = 0)
    (hcases : ∀ row < keys.length, ∀ t ∈ groupCases input output keys row, I.Holds t) {t : Nat}
    (ht : t < keys.length) (hthere : I.deleted input t = false) :
    ∃ g < keys.length, I.grouping output t g = true ∧ IsLeast (I.alike input keys t) g := by
  have hfirst {e : Nat} (he : e < keys.length) := named_iff_isFirst hkeys hdecided hcases he
  obtain ⟨hkept, hdropped⟩ := (holds_groupCases hkeys ht).1 (hcases t ht)
  rcases hdecided t (by omega) with hone | hzero
  · obtain ⟨-, -, hgroup, hnamed⟩ := hkept hone
    exact ⟨t, ht, hgroup, (hfirst ht).1 hnamed⟩
  · obtain habsent | ⟨e, he, hnamed, hsame, hgroup⟩ := (hdropped hzero).1
    · simp [hthere] at habsent
    · have hen := he.trans ht
      exact ⟨e, hen, hgroup, isLeast_alike_iff.2 ⟨(hfirst hen).1 hnamed, hsame⟩⟩

theorem grouped_of_holds (hlen : having.length = keys.length) (h : I.Holds (formula input output keys having)) :
    I.Grouped input output keys having ∧ I.Chosen output keys.length := by
  obtain ⟨⟨hmembers, hcases⟩, hpassing, hdecided⟩ := holds_formula_iff.1 h
  have hfirst {g : Nat} (hg : g < keys.length) := named_iff_isFirst hkeys hdecided hcases hg
  refine ⟨⟨fun t ht g hg ↦ ?_, fun g hg ↦ hfirst hg, fun g r hr ↦ ?_⟩, ⟨fun g hg ↦ ?_, fun g hg ↦ ?_⟩⟩
  · obtain ⟨habsent, hpresent⟩ := holds_membership.1 (hmembers t ht)
    cases hthere : I.deleted input t with
    | true => simp [habsent hthere g hg]
    | false =>
      -- The row is in one group only, and it is in that of a first row of its kind.
      obtain ⟨e, he, hleast⟩ := hpresent hthere
      obtain ⟨g', hg', hgroup, hg'least⟩ := exists_group hkeys hdecided hcases ht hthere
      obtain rfl := (hleast g' hg').1 hgroup
      rw [hleast g hg, and_iff_right rfl]
      exact ⟨fun h ↦ h ▸ hg'least, fun h ↦ h.unique hg'least⟩
  · have hg : g < keys.length := hlen ▸ (List.getElem?_eq_some_iff.1 hr).1
    obtain ⟨hkept, hdropped⟩ := holds_havingCases.1 (hpassing g r hr)
    rw [← hfirst hg]
    rcases hdecided (keys.length + g) (by omega) with hone | hzero
    · obtain ⟨hnamed, htrue, hthere⟩ := hkept hone
      exact iff_of_true hthere ⟨hnamed, htrue⟩
    · obtain ⟨hunmet, habsent⟩ := hdropped hzero
      refine iff_of_false (by simp [habsent]) fun ⟨hnamed, htrue⟩ ↦ ?_
      exact hunmet.elim (by simp [hnamed]) (fun h ↦ h htrue)
  · obtain ⟨hkept, hdropped⟩ := (holds_groupCases hkeys hg).1 (hcases g hg)
    rcases hdecided g (by omega) with hone | hzero
    · rw [hone, (hkept hone).2.2.2]
      rfl
    · rw [hzero, (hdropped hzero).2]
      rfl
  · obtain ⟨r, hr⟩ : ∃ r, having[g]? = some r := ⟨_, getElem?_eq_getElem (hlen ▸ hg)⟩
    obtain ⟨hkept, hdropped⟩ := holds_havingCases.1 (hpassing g r hr)
    rcases hdecided (keys.length + g) (by omega) with hone | hzero
    · rw [hone, (hkept hone).2.2]
      rfl
    · rw [hzero, (hdropped hzero).2]
      rfl

/-- Groups that are formed by the keys satisfy the formula. -/
theorem holds_of_grouped (hlen : having.length = keys.length) (h : I.Grouped input output keys having)
    (hchosen : I.Chosen output keys.length) : I.Holds (formula input output keys having) := by
  refine holds_formula_iff.2 ⟨⟨fun row hrow ↦ holds_membership.2 ⟨fun habsent g hg ↦ ?_, fun hthere ↦ ?_⟩,
    fun row hrow ↦ (holds_groupCases hkeys hrow).2 ?_⟩, fun g r hr ↦ holds_havingCases.2 ?_, fun b hb ↦ ?_⟩
  · have := h.member row hrow g hg
    simpa [habsent] using this
  · obtain ⟨g, hg, hfirst, hsame⟩ := exists_isLeast_alike hrow hthere
    have hleast := isLeast_alike_iff.2 ⟨hfirst, hsame⟩
    refine ⟨g, by omega, fun e he ↦ ?_⟩
    rw [h.member row hrow e he, and_iff_right hthere]
    exact ⟨fun h ↦ h.unique hleast, fun h ↦ h ▸ hleast⟩
  · rw [(choice_one (hchosen.named row hrow)).1, (choice_one (hchosen.named row hrow)).2]
    refine ⟨fun hnamed ↦ ?_, fun hunnamed ↦ ⟨?_, hunnamed⟩⟩
    · have hfirst := (h.named row hrow).1 hnamed
      have hthere := ((isFirst_iff hrow).1 hfirst).1
      refine ⟨hthere, fun e he hename hsame ↦ ?_, (h.member row hrow row hrow).2 ⟨hthere, hfirst⟩, hnamed⟩
      have hefirst := (isFirst_iff (he.trans hrow)).1 ((h.named e (he.trans hrow)).1 hename)
      exact ((isFirst_iff hrow).1 hfirst).2 e he hefirst.1 hsame
    · cases hthere : I.deleted input row with
      | true => exact .inl rfl
      | false =>
        obtain ⟨g, hg, hfirst, hsame⟩ := exists_isLeast_alike hrow hthere
        have hgrow : g < row := by
          refine lt_of_le_of_ne hg fun heq ↦ ?_
          rw [← h.named g (by omega), heq, hunnamed] at hfirst
          cases hfirst
        have hgn := hgrow.trans hrow
        refine .inr ⟨g, hgrow, (h.named g hgn).2 hfirst, hsame, ?_⟩
        exact (h.member row hrow g hgn).2 ⟨hthere, isLeast_alike_iff.2 ⟨hfirst, hsame⟩⟩
  · have hg : g < keys.length := hlen ▸ (List.getElem?_eq_some_iff.1 hr).1
    rw [(choice_one (hchosen.kept g hg)).1, (choice_one (hchosen.kept g hg)).2]
    refine ⟨fun hthere ↦ ?_, fun habsent ↦ ⟨?_, habsent⟩⟩
    · obtain ⟨hfirst, htrue⟩ := (h.kept g r hr).1 hthere
      exact ⟨(h.named g hg).2 hfirst, htrue, hthere⟩
    · have hnot := mt (h.kept g r hr).2 (by simp [habsent])
      rw [← h.named g hg] at hnot
      by_cases hnamed : I.deleted (-output) g = false
      · exact .inr fun htrue ↦ hnot ⟨hnamed, htrue⟩
      · exact .inl (by simpa using hnamed)
  · by_cases hrow : b < keys.length
    · rw [hchosen.named b hrow]
      cases I.deleted (-output) b <;> decide
    · obtain ⟨g, rfl⟩ : ∃ g, b = keys.length + g := ⟨b - keys.length, by omega⟩
      rw [hchosen.kept g (by omega)]
      cases I.deleted output g <;> decide

end Formula

end Interpretation

/-! ## Forming the groups -/

/-- Leaves that a grouping does not decide. -/
def Term.Outside (output : Int) : Term → Prop
  | .grouping t _ _ => t ≠ output
  | .deleted t _ => t ≠ output ∧ t ≠ -output
  | .choice t _ => t ≠ output
  | _ => True

/-- Leaves that are decided before it is decided which groups are kept. -/
def Term.Before (output : Int) : Term → Prop
  | .deleted t _ => t ≠ output
  | .choice t _ => t ≠ output
  | _ => True

theorem Term.Outside.before {output : Int} {t : Term} (h : t.Outside output) : t.Before output := by
  cases t with
  | deleted => exact h.1
  | choice => exact h
  | _ => trivial

namespace Interpretation

theorem AgreeOn.read_eq {p : Term → Prop} {I J : Interpretation} (h : AgreeOn p I J) {r : Reading}
    (hr : r.Leaves p) : I.read r = J.read r := by
  rw [read, read, if_congr (h.holds_iff hr.2) rfl rfl, h.eval_eq r.1 hr.1]

open Classical in
/-- The interpretation in which the rows are grouped by their keys. -/
noncomputable def formed (I : Interpretation) (input output : Int) (keys : Keys) : Interpretation :=
  { I with
    grouping := fun t row g ↦ if t = output then
        decide (I.deleted input row = false ∧ IsLeast (I.alike input keys row.toNat) g.toNat)
      else I.grouping t row g
    deleted := fun t row ↦ if t = -output then !decide (I.IsFirst input keys row.toNat) else I.deleted t row }

/-- A group is named, and its condition is true. -/
def passes (I : Interpretation) (output : Int) (having : List Reading) (g : Nat) : Bool :=
  !I.deleted (-output) g && having[g]?.any fun h ↦ decide (Sql.IsTrue (I.read h))

/-- The interpretation in which the groups are kept that meet their condition. -/
def settled (I : Interpretation) (output : Int) (having : List Reading) : Interpretation :=
  { I with
    deleted := fun t row ↦ if t = output then !I.passes output having row.toNat else I.deleted t row
    choice := fun t b ↦ if t = output then
        (if b.toNat < having.length then !I.deleted (-output) b
          else I.passes output having (b.toNat - having.length)).toInt
      else I.choice t b }

variable {I : Interpretation} {input output : Int} {keys : Keys} {having : List Reading}

theorem agreeOn_formed : AgreeOn (Outside output) I (I.formed input output keys) where
  conventions := rfl
  overZero := rfl
  leaf
    | .grouping .., _, ht => congrArg Bool.toInt (if_neg ht).symm
    | .deleted .., _, ht => congrArg Bool.toInt (if_neg ht.2).symm
    | .cell .., _, _ | .null .., _, _ | .belongs .., _, _ | .size _, _, _ | .choice .., _, _ => rfl

theorem agreeOn_settled : AgreeOn (Before output) I (I.settled output having) where
  conventions := rfl
  overZero := rfl
  leaf
    | .choice .., _, ht => (if_neg ht).symm
    | .deleted .., _, ht => congrArg Bool.toInt (if_neg ht).symm
    | .cell .., _, _ | .null .., _, _ | .belongs .., _, _ | .size _, _, _ | .grouping .., _, _ => rfl

private theorem mem_keysAt {r : Reading} (h : r ∈ keysAt keys row) : ∃ ks ∈ keys, r ∈ ks := by
  rw [keysAt] at h
  cases hks : keys[row]? with
  | none => simp [hks] at h
  | some ks => exact ⟨ks, mem_of_getElem? hks, by simpa [hks] using h⟩

/-- If the keys do not look at what the grouping decides, and the condition not at which groups are kept, then
the groups can be formed. -/
theorem exists_grouped (hkeys : Even keys) (hlen : having.length = keys.length) (hne : output ≠ 0)
    (hinput : (Term.deleted input 0).Outside output) (hk : ∀ ks ∈ keys, ∀ r ∈ ks, r.Leaves (Term.Outside output))
    (hh : ∀ h ∈ having, h.Leaves (Term.Before output)) (I : Interpretation) :
    ∃ J, AgreeOn (Term.Outside output) I J ∧ J.Holds (formula input output keys having) := by
  set F := I.formed input output keys with hF
  set J := F.settled output having with hJ
  have hIF : AgreeOn (Outside output) I F := agreeOn_formed
  have hFJ : AgreeOn (Before output) F J := agreeOn_settled
  have hIJ : AgreeOn (Outside output) I J :=
    ⟨rfl, rfl, fun t hu ht ↦ (hIF.leaf t hu ht).trans (hFJ.leaf t hu ht.before)⟩
  have hrecord (row : Nat) : J.keyRecord keys row = I.keyRecord keys row := by
    refine map_congr_left fun r hr ↦ (hIJ.read_eq ?_).symm
    obtain ⟨ks, hks, hmem⟩ := mem_keysAt hr
    exact hk ks hks r hmem
  have hdeleted (row : Int) : J.deleted input row = I.deleted input row :=
    (if_neg hinput.1).trans (if_neg hinput.2)
  have halike (row : Nat) : J.alike input keys row = I.alike input keys row := by
    simp only [alike, hrecord, hdeleted]
  have hfirst (g : Nat) : F.deleted (-output) g = false ↔ I.IsFirst input keys g := by
    rw [hF, formed]
    simp
  have hnamed (g : Nat) : J.deleted (-output) g = F.deleted (-output) g := if_neg (by omega)
  have hkept (g : Nat) : J.deleted output g = !F.passes output having g := if_pos rfl
  have hchoice (b : Nat) : J.choice output b = (if b < having.length then !F.deleted (-output) b
      else F.passes output having (b - having.length)).toInt := if_pos rfl
  refine ⟨J, hIJ, holds_of_grouped hkeys hlen ⟨fun t _ g _ ↦ ?_, fun g _ ↦ ?_, fun g r hr ↦ ?_⟩
    ⟨fun g hg ↦ ?_, fun g hg ↦ ?_⟩⟩
  · rw [hdeleted, halike]
    change F.grouping output t g = true ↔ _
    rw [hF, formed]
    simp
  · rw [hnamed, IsFirst, halike]
    exact hfirst g
  · rw [hkept, IsFirst, halike, ← hFJ.read_eq (hh r (mem_of_getElem? hr)), ← IsFirst, ← hfirst, passes, hr]
    simp
  · rw [hnamed, hchoice, if_pos (by omega)]
  · rw [hkept, hchoice, if_neg (by omega), hlen, Nat.add_sub_cancel_left, Bool.not_not]

end Interpretation

/-! ## The operator -/

/-- The keys do not look at what the grouping decides, and the condition on groups does not look at which groups
are kept. -/
structure Oblivious (output : Int) (keys : Keys) (having : List Reading) : Prop where
  keys : ∀ ks ∈ keys, ∀ r ∈ ks, r.Leaves (Term.Outside output)
  having : ∀ h ∈ having, h.Leaves (Term.Before output)

/-- No expression in a tree looks for rows in the result of a query. -/
def Node.Searchless (n : Node) : Prop := n.Everywhere fun m ↦ Expression.searches m = false

/-- What is gone through with success is done at each member, in some workspace. -/
theorem Gives.forall₂_of_mapM {β : Type} {f : α → Encoding β} {l : List α} {bs : List β} {w w' : Workspace}
    (h : Gives (l.mapM f) w bs w') : Forall₂ (fun a b ↦ ∃ v v', Gives (f a) v b v') l bs := by
  induction l generalizing bs w with
  | nil =>
    rw [mapM_nil, pure_iff] at h
    rw [h.1]
    exact .nil
  | cons a l ih =>
    rw [mapM_cons, bind_iff] at h
    obtain ⟨b, v, hb, h⟩ := h
    obtain ⟨bs, u, hbs, h⟩ := bind_iff.1 h
    obtain ⟨rfl, rfl⟩ := pure_iff.1 h
    exact .cons ⟨w, v, hb⟩ (ih hbs)

/-- The readings that a grouping is made from: the keys at each row, and the condition for each group. -/
structure GroupReadings (sub : Expression.Subquery) (input output : Nat) (keys : List Node) (having : Node)
    (targets : List Node) (rows : Nat) (K : Keys) (H : List Reading) : Prop where
  keys : ∃ reader, List.Forall₂ (fun row ks ↦ ∃ v v', Gives (readKeys sub input targets reader row keys) v ks v')
    (List.range rows) K
  having : ∃ memo, List.Forall₂ (fun (g : Nat) h ↦ ∃ v v', Gives
    (if having.isMissing then pure (Reading.certain .top)
      else Expression.inGroup sub ⟨output, input, g, some targets⟩ true memo having) v h v')
    (List.range rows) H

section Operator

variable {sub : Expression.Subquery} {input output : Nat} {label : Option String} {keys : List Node}
  {having : Node} {targets : Option (List Node)} {ts : List Node} {w w' : Workspace} {rows : Nat} {K : Keys}
  {H : List Reading}

theorem length_readKeys {reader : Nat} {rs : List Reading}
    (h : Gives (readKeys sub input ts reader row keys) w rs w') : rs.length = keys.length := by
  induction keys generalizing rs w w' with
  | nil =>
    obtain ⟨rfl, -⟩ := pure_iff.1 h
    rfl
  | cons k ks ih =>
    obtain ⟨key, _, -, h⟩ := bind_iff.1 h
    obtain ⟨r, _, -, h⟩ := bind_iff.1 h
    obtain ⟨rs, _, hrs, h⟩ := bind_iff.1 h
    obtain ⟨rfl, -⟩ := pure_iff.1 h
    rw [length_cons, length_cons, ih hrs]

namespace GroupReadings

private theorem exists_of_mem_right {β : Type} {R : α → β → Prop} {l : List α} {m : List β} (h : Forall₂ R l m)
    {b : β} (hb : b ∈ m) : ∃ a, R a b := by
  obtain ⟨i, hi, rfl⟩ := mem_iff_getElem.1 hb
  exact ⟨_, h.get (by rw [h.length_eq]; exact hi) hi⟩

variable (h : GroupReadings sub input output keys having ts rows K H)
include h

theorem length_keys : K.length = rows := by
  obtain ⟨_, hkeys⟩ := h.keys
  rw [← hkeys.length_eq, length_range]

theorem length_having : H.length = rows := by
  obtain ⟨_, hhaving⟩ := h.having
  rw [← hhaving.length_eq, length_range]

theorem even : Interpretation.Even K := by
  obtain ⟨_, hkeys⟩ := h.keys
  refine ⟨keys.length, fun ks hks ↦ ?_⟩
  obtain ⟨_, _, _, hread⟩ := exists_of_mem_right hkeys hks
  exact length_readKeys hread

/-- Expressions that do not look for rows cannot look at the groups. -/
theorem oblivious (hk : ∀ k ∈ keys, k.Searchless) (hh : having.Searchless) (ht : ∀ t ∈ ts, t.Searchless) (id : Int) :
    Oblivious id K H := by
  have quiet : Quiet fun _ ↦ True := by constructor <;> intros <;> trivial
  have hsub (o : Option Int) (n : Node) (_ : n.Searchless) : Guards (fun _ ↦ True) (sub o n) :=
    fun _ _ _ _ _ ↦ ⟨trivial, trivial⟩
  have hsearched {p : Term → Prop} (n : Node) (hn : n.Searchless) (hs : Expression.searches n = true) :
      Expression.Free p := by
    rw [Everywhere.here hn] at hs
    cases hs
  constructor
  · obtain ⟨reader, hkeys⟩ := h.keys
    intro ks hks
    obtain ⟨row, v, v', hread⟩ := exists_of_mem_right hkeys hks
    have hpermits : Expression.Permits (Outside id) Searchless :=
      ⟨fun _ _ _ ↦ trivial, fun _ _ _ ↦ trivial, hsearched⟩
    exact (readKeys_keeps quiet everywhere_hereditary hsub hpermits input ht reader row hk trivial hread).2
  · obtain ⟨memo, hhaving⟩ := h.having
    intro r hr
    obtain ⟨g, v, v', hread⟩ := exists_of_mem_right hhaving hr
    have hpermits : Expression.Permits (Before id) Searchless :=
      ⟨fun _ _ _ ↦ trivial, fun _ _ _ ↦ trivial, hsearched⟩
    by_cases hmissing : having.isMissing = true
    · rw [if_pos hmissing, pure_iff] at hread
      rw [hread.1]
      exact Reading.leaves_certain.2 trivial
    · rw [if_neg hmissing] at hread
      refine (Expression.inGroup_keeps quiet hpermits everywhere_hereditary hsub (fun _ _ _ ↦ trivial) _ ?_
        true memo hh trivial hread).2
      rintro _ ⟨⟩
      exact ht

end GroupReadings

theorem groupBy_gives (h : Gives (GroupBy.apply sub input label keys having targets) w output w') :
    ∃ ts rows K H fs, targets = some ts ∧ (w.catalog.table input).rows = .ok rows ∧
      GroupReadings sub input output keys having ts rows K H ∧ w'.formulas =
        Formulas.append fs (formula (w.catalog.table input).id (w.lastTable + 1) K H) label := by
  unfold GroupBy.apply at h
  obtain ⟨t, _, ht, h⟩ := bind_iff.1 h
  obtain ⟨rfl, rfl⟩ := table_gives.1 ht
  obtain ⟨id, _, hid, h⟩ := bind_iff.1 h
  obtain ⟨rfl, rfl⟩ := newTableId_gives.1 hid
  obtain ⟨place, w₁, -, h⟩ := bind_iff.1 h
  obtain ⟨_, w₂, -, h⟩ := bind_iff.1 h
  cases targets with
  | none =>
    obtain ⟨_, _, h, -⟩ := bind_iff.1 h
    exact (not_throw h).elim
  | some ts =>
    simp only [pure_bind] at h
    obtain ⟨reader, w₃, -, h⟩ := bind_iff.1 h
    obtain ⟨memo, w₄, -, h⟩ := bind_iff.1 h
    obtain ⟨rows, w₅, hlift, h⟩ := bind_iff.1 h
    obtain ⟨hrows, -⟩ := lift_iff.1 hlift
    obtain ⟨K, w₅, hK, h⟩ := bind_iff.1 h
    obtain ⟨H, w₆, hH, h⟩ := bind_iff.1 h
    obtain ⟨_, _, happend, h⟩ := bind_iff.1 h
    obtain rfl := modify_iff.1 happend
    obtain ⟨_, _, hgroups, h⟩ := bind_iff.1 h
    obtain rfl := changeTable_gives.1 hgroups
    obtain ⟨rfl, rfl⟩ := pure_iff.1 h
    exact ⟨_, rows, K, H, w₆.formulas, rfl, hrows, ⟨⟨reader, hK.forall₂_of_mapM⟩, ⟨memo, hH.forall₂_of_mapM⟩⟩, rfl⟩

/-- A grouping of a table appends a formula that is made from the keys at the rows and from the condition on the
groups. Wherever it holds, the rows are grouped by their keys: each row that is there is in the group of the first
such row with the same keys, and the groups are kept that the condition is true of. And if the keys and the
condition do not look at the groups, as they cannot without looking for rows in a subquery, then any
interpretation can be changed in what the grouping decides so that the formula holds. -/
theorem groupBy_partition (hrun : Gives (GroupBy.apply sub input label keys having targets) w output w')
    (hid : 0 ≤ (w.catalog.table input).id) (hused : (w.catalog.table input).id ≤ w.lastTable) :
    ∃ ts rows K H fs, targets = some ts ∧ (w.catalog.table input).rows = .ok rows ∧
      GroupReadings sub input output keys having ts rows K H ∧
      w'.formulas = Formulas.append fs (formula (w.catalog.table input).id (w.lastTable + 1) K H) label ∧
      (∀ I : Interpretation, I.Holds (formula (w.catalog.table input).id (w.lastTable + 1) K H) →
        I.Grouped (w.catalog.table input).id (w.lastTable + 1) K H) ∧
      (Oblivious (w.lastTable + 1) K H → ∀ I : Interpretation, ∃ J : Interpretation,
        I.AgreeOn (Term.Outside (w.lastTable + 1)) J ∧
        J.Holds (formula (w.catalog.table input).id (w.lastTable + 1) K H)) ∧
      ((∀ k ∈ keys, k.Searchless) → having.Searchless → (∀ t ∈ ts, t.Searchless) →
        Oblivious (w.lastTable + 1) K H) := by
  obtain ⟨ts, rows, K, H, fs, hts, hrows, hread, hformulas⟩ := groupBy_gives hrun
  have hlen : H.length = K.length := by rw [hread.length_having, hread.length_keys]
  refine ⟨ts, rows, K, H, fs, hts, hrows, hread, hformulas, fun I hI ↦ ?_, fun hblind I ↦ ?_, fun hk hh ht ↦ ?_⟩
  · exact (Interpretation.grouped_of_holds hread.even hlen hI).1
  · exact Interpretation.exists_grouped hread.even hlen (by omega) ⟨by omega, by omega⟩ hblind.keys hblind.having I
  · exact hread.oblivious hk hh ht _

end Operator

/-- `COUNT(b) > 1` -/
def countsSeveral : Node :=
  let count : Node := .expression (.str "count") [.raw (.bool false), .attr "b"] .null
  .expression (.str "gt") [count, .lit (.int 1)] .null

/-- Two rows are grouped by one column, and the groups with more than one value in the other are kept. -/
theorem pairedTable_groupBy : ∃ w', Gives
    (GroupBy.apply (Query.nested 3) 0 (some "q") [.attr "a"] countsSeveral (some [.attr "a"])) pairedTable 1 w' ∧
      ∃ K H fs, w'.formulas = Formulas.append fs (formula 0 1 K H) (some "q") ∧
        (∀ I : Interpretation, I.Holds (formula 0 1 K H) → I.Grouped 0 1 K H) ∧
        ∀ I : Interpretation, ∃ J : Interpretation,
          I.AgreeOn (Term.Outside 1) J ∧ J.Holds (formula 0 1 K H) := by
  have hone : (exec (GroupBy.apply (Query.nested 3) 0 (some "q") [.attr "a"] countsSeveral (some [.attr "a"]))
      pairedTable).1.toOption = some 1 := by decide +kernel
  refine ⟨_, .of_toOption hone, ?_⟩
  obtain ⟨ts, rows, K, H, fs, hts, -, -, hformulas, hgrouped, hexists, hblind⟩ :=
    groupBy_partition (.of_toOption hone) (by decide) (by decide)
  obtain rfl := Option.some.inj hts
  refine ⟨K, H, fs, hformulas, hgrouped, hexists (hblind ?_ ?_ ?_)⟩
  all_goals simp [countsSeveral, attr, lit, Searchless, Everywhere, EverywhereAll, Expression.searches]

end QueryEquiv
