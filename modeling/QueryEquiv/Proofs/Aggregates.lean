import QueryEquiv.Encode.Group
import QueryEquiv.Proofs.Evaluation

/-!
# Aggregates of a table and of a group

An aggregate goes through all rows of a table. Over the table itself a flag says of each row whether it is
deleted, over a group whether it lies in the group. In every interpretation (for a group, one in which the group
has a row) the aggregate stands for `Sql.aggregate` of the values in the rows that take part, so the order of
the rows does not matter.

The extremes, and the value in the first row, are found by going through the rows from the left: what was
found so far is carried along as if it were a row itself, with the flag that something was found
(`Summarizes`). Sums count each row by what it adds; one of distinct values adds a value only where no row
before it has it.
-/

namespace QueryEquiv

open Term Sql Outcome List Expression GroupOfRows Except

namespace Sql

/-- The values that take part. -/
def taken (xs : List (Option Int × Bool)) : List (Option Int) := (xs.filter (·.2)).map (·.1)

theorem taken_append (xs ys : List (Option Int × Bool)) : taken (xs ++ ys) = taken xs ++ taken ys := by
  rw [taken, taken, taken, ← map_append, ← filter_append]

theorem taken_cons (x : Option Int × Bool) (xs : List (Option Int × Bool)) :
    taken (x :: xs) = taken [x] ++ taken xs := taken_append [x] xs

/-- The value that comes first. -/
def first (vs : List (Option Int)) : Option Int := vs.head?.join

/-- The values that an aggregate counts. -/
def counted (distinct : Bool) (vs : List (Option Int)) : List Int :=
  if distinct then vs.reduceOption.dedup else vs.reduceOption

section

variable (distinct : Bool) (vs : List (Option Int))

theorem counted_eq_nil : counted distinct vs = [] ↔ vs.reduceOption = [] := by
  cases distinct with
  | false => rfl
  | true => exact dedup_eq_nil _

theorem aggregate_avg : aggregate "avg" distinct vs = if counted distinct vs = [] then none
      else some ((counted distinct vs).sum / (counted distinct vs).length) := rfl

/-- Equal values do not matter to the largest one. -/
theorem aggregate_max : aggregate "max" distinct vs = vs.reduceOption.max? := by
  cases distinct with
  | false => rfl
  | true =>
    refine Option.ext fun n ↦ ?_
    change vs.reduceOption.dedup.max? = some n ↔ _
    simp only [max?_eq_some_iff, mem_dedup]

theorem aggregate_min : aggregate "min" distinct vs = vs.reduceOption.min? := by
  cases distinct with
  | false => rfl
  | true =>
    refine Option.ext fun n ↦ ?_
    change vs.reduceOption.dedup.min? = some n ↔ _
    simp only [min?_eq_some_iff, mem_dedup]

theorem aggregate_count : aggregate "count" distinct vs = some ((counted distinct vs).length : Int) := rfl

theorem aggregate_sum :
    aggregate "sum" distinct vs = if counted distinct vs = [] then none else some (counted distinct vs).sum := rfl

end

theorem counted_perm (distinct : Bool) {vs vs' : List (Option Int)} (h : vs.Perm vs') :
    (counted distinct vs).Perm (counted distinct vs') := by
  have hred : vs.reduceOption.Perm vs'.reduceOption := h.filterMap id
  cases distinct with
  | false => exact hred
  | true => exact hred.dedup

/-- The order of the values does not matter. -/
theorem aggregate_perm {name : String} (hname : name ∈ Node.aggregateNames) (distinct : Bool)
    {vs vs' : List (Option Int)} (h : vs.Perm vs') : aggregate name distinct vs = aggregate name distinct vs' := by
  have hcounted := counted_perm distinct h
  have hmem (n : Int) : n ∈ vs.reduceOption ↔ n ∈ vs'.reduceOption := (h.filterMap id).mem_iff
  have hnil : counted distinct vs = [] ↔ counted distinct vs' = [] := by
    rw [← length_eq_zero_iff, hcounted.length_eq, length_eq_zero_iff]
  simp only [Node.aggregateNames, mem_cons, not_mem_nil, or_false] at hname
  obtain rfl | rfl | rfl | rfl | rfl := hname
  · rw [aggregate_min, aggregate_min]
    exact Option.ext fun n ↦ by simp only [min?_eq_some_iff, hmem]
  · rw [aggregate_max, aggregate_max]
    exact Option.ext fun n ↦ by simp only [max?_eq_some_iff, hmem]
  · rw [aggregate_count, aggregate_count, hcounted.length_eq]
  · rw [aggregate_sum, aggregate_sum, if_congr hnil rfl rfl, hcounted.sum_eq]
  · rw [aggregate_avg, aggregate_avg, if_congr hnil rfl rfl, hcounted.sum_eq, hcounted.length_eq]

/-- The second of two values if they compare, else the first; a null is worse than any value. -/
def better (op : Comparison) : Option Int → Option Int → Option Int
  | none, b => b
  | some m, none => some m
  | some m, some n => some (if op.holds m n then n else m)

theorem max?_append_toList (ns : List Int) (x : Option Int) : (ns ++ x.toList).max? = better .le ns.max? x := by
  cases x with
  | none => cases ns <;> simp [better]
  | some n =>
    cases ns with
    | nil => rfl
    | cons m ns =>
      rw [Option.toList_some, cons_append, max?_cons', max?_cons', foldl_append]
      simp only [foldl_cons, foldl_nil, max_def, better, Comparison.holds, decide_eq_true_eq]

theorem min?_append_toList (ns : List Int) (x : Option Int) : (ns ++ x.toList).min? = better .ge ns.min? x := by
  cases x with
  | none => cases ns <;> simp [better]
  | some n =>
    cases ns with
    | nil => rfl
    | cons m ns =>
      rw [Option.toList_some, cons_append, min?_cons', min?_cons', foldl_append]
      simp only [foldl_cons, foldl_nil, min_comm _ n, min_def, better, Comparison.holds, decide_eq_true_eq]

end Sql

/-- A row takes part: it lies in the group, or it is not deleted. -/
def Contribution.takes (grouped : Bool) (c : Contribution) : Term := if grouped then c.flag else .not c.flag

namespace Aggregate

variable {f : List Contribution → Outcome Reading} {grouped distinct : Bool} {name : String}
  {weigh : Contribution → Term} {cs : List Contribution}

theorem Named.mem_names (h : Named f grouped name distinct) : name ∈ Node.aggregateNames := by
  cases h <;> simp [Node.aggregateNames]

theorem isPlain_of_distinctSum {counts : Contribution → List Term} {seen : Contribution → Term}
    {es : List Contribution} {ts : List Term} (h : distinctSum counts seen weigh es cs = .ok ts) :
    ∀ t ∈ ts, t.isPlain = false := by
  induction cs generalizing es ts with
  | nil =>
    obtain rfl := ok.inj h
    exact forall_mem_nil _
  | cons c cs ih =>
    simp only [distinctSum, bind_ok_iff, pure_ok_iff] at h
    obtain ⟨_, -, rest, hrest, rfl⟩ := h
    exact forall_mem_cons.2 ⟨rfl, ih hrest⟩

theorem isPlain_foldl_add {t : Term} (ht : t.isPlain = false) (ts : List Term) :
    (ts.foldl (.arith .add) t).isPlain = false := by
  induction ts generalizing t with
  | nil => exact ht
  | cons u ts ih => exact ih rfl

theorem isPlain_sum_weighed {ts : List Term} (h : weighed grouped distinct weigh cs = .ok ts) :
    (sum ts).isPlain = false := by
  have hterms : ∀ t ∈ ts, t.isPlain = false := by
    cases distinct with
    | false =>
      obtain rfl := ok.inj h
      exact forall_mem_map.2 fun _ _ ↦ rfl
    | true => exact isPlain_of_distinctSum h
  cases ts with
  | nil => rfl
  | cons t ts => exact isPlain_foldl_add (hterms t mem_cons_self) ts

theorem compare_terms (op : Comparison) {a b : Term} (ha : a.isPlain = false) (hb : b.isPlain = false) :
    compare op a b = .ok (.cmp op a b) := by
  unfold Term.compare
  split
  · cases ha
  · rw [comparison, ha, hb]
    rfl

theorem distinctSum_ok {counts : Contribution → List Term} {seen : Contribution → Term} {es : List Contribution}
    (hes : ∀ e ∈ es, e.val.isPlain = false) (hcs : ∀ c ∈ cs, c.val.isPlain = false) :
    ∃ ts, distinctSum counts seen weigh es cs = .ok ts := by
  induction cs generalizing es with
  | nil => exact ⟨[], rfl⟩
  | cons c cs ih =>
    obtain ⟨hc, hcs⟩ := forall_mem_cons.1 hcs
    obtain ⟨fresh, hfresh⟩ : ∃ fresh, es.mapM (fun p ↦ do
        return .implies (seen p) (← compare .ne c.val p.val) : Contribution → Outcome Term) = .ok fresh := by
      induction es with
      | nil => exact ⟨[], rfl⟩
      | cons e es ihes =>
        obtain ⟨he, hes⟩ := forall_mem_cons.1 hes
        obtain ⟨fresh, hfresh⟩ := ihes hes
        exact ⟨_, by rw [mapM_cons, compare_terms _ hc he, hfresh]; rfl⟩
    obtain ⟨rest, hrest⟩ := ih (forall_mem_append.2 ⟨hes, forall_mem_singleton.2 hc⟩) hcs
    exact ⟨_, by rw [distinctSum, hfresh, hrest]; rfl⟩

theorem weighed_ok (grouped distinct : Bool) (weigh : Contribution → Term) (hcs : ∀ c ∈ cs, c.val.isPlain = false) :
    ∃ ts, weighed grouped distinct weigh cs = .ok ts := by
  cases distinct with
  | false => exact ⟨_, rfl⟩
  | true => exact distinctSum_ok (forall_mem_nil _) hcs

theorem foldlM_extreme2In_ok (grouped : Bool) (op : Comparison) {c : Contribution} (hc : c.val.isPlain = false)
    (hcs : ∀ c ∈ cs, c.val.isPlain = false) : ∃ e, cs.foldlM (extreme2In grouped op) c = .ok e := by
  induction cs generalizing c with
  | nil => exact ⟨c, rfl⟩
  | cons d cs ih =>
    obtain ⟨hd, hcs⟩ := forall_mem_cons.1 hcs
    obtain ⟨e, he, hplain⟩ : ∃ e, extreme2In grouped op c d = .ok e ∧ e.val.isPlain = false := by
      cases grouped <;> exact ⟨_, by
        simp only [extreme2In, extreme2, groupExtreme2, better, compare_terms _ hc hd]; rfl, rfl⟩
    obtain ⟨r, hr⟩ := ih hplain hcs
    exact ⟨r, by rw [foldlM_cons, he]; exact hr⟩

/-- Rows with terms for values have an aggregate. -/
theorem Named.ok (h : Named f grouped name distinct) (hne : cs ≠ []) (hcs : ∀ c ∈ cs, c.val.isPlain = false) :
    ∃ r, f cs = .ok r := by
  have hextreme (op : Comparison) : ∃ r, extremeIn grouped op cs = .ok r := by
    obtain ⟨c, ds, rfl⟩ := exists_cons_of_ne_nil hne
    obtain ⟨hc, hds⟩ := forall_mem_cons.1 hcs
    obtain ⟨e, he⟩ := foldlM_extreme2In_ok grouped op hc hds
    exact ⟨_, by rw [extremeIn, reduce, he]; rfl⟩
  obtain ⟨ts, hts⟩ := weighed_ok grouped distinct (·.val) hcs
  obtain ⟨ns, hns⟩ := weighed_ok grouped distinct (fun _ ↦ .one) hcs
  obtain ⟨rfl, rfl⟩ | ⟨rfl, rfl⟩ | ⟨rfl, rfl⟩ | ⟨rfl, rfl⟩ | ⟨rfl, rfl⟩ := h.build
  · exact hextreme .le
  · exact hextreme .ge
  · exact ⟨_, by rw [countIn, hns]; rfl⟩
  · exact ⟨_, by rw [sumIn, hts]; rfl⟩
  · exact ⟨_, by rw [averageIn, hts, hns]; rfl⟩

end Aggregate

namespace Interpretation

variable {I : Interpretation} {grouped : Bool} {c : Contribution} {x : Option Int × Bool}
  {cs es : List Contribution} {xs seen : List (Option Int × Bool)} {vs : List (Option Int)}

variable (I) in
/-- A row contributes a value, if it takes part. -/
structure Contributes (grouped : Bool) (c : Contribution) (x : Option Int × Bool) : Prop where
  reads : I.Reads (c.val, c.null) x.1
  flag : I.Holds (c.takes grouped) ↔ x.2 = true

namespace Contributes

theorem holds_null (h : I.Contributes grouped c x) : I.Holds c.null ↔ x.1 = none := by
  rw [← h.reads.read, read_eq_none_iff]

theorem eval_val (h : I.Contributes grouped c x) {n : Int} (hn : x.1 = some n) : I.eval c.val = n := by
  have hread := h.reads.read
  rw [hn, read_eq_some_iff] at hread
  exact hread.2

end Contributes

/-! ## Going through the rows -/

variable (I) in
/-- What was found in the values that took part so far, if any did. -/
structure Summarizes (grouped : Bool) (f : List (Option Int) → Option Int) (c : Contribution)
    (vs : List (Option Int)) : Prop where
  term : c.val.isPlain = false
  null : c.null.kind = .ok (some .truth)
  flag : I.Holds (c.takes grouped) ↔ vs ≠ []
  read : vs ≠ [] → I.read (c.val, c.null) = f vs

section Summaries

variable {f : List (Option Int) → Option Int}

theorem Contributes.summarizes (h : I.Contributes grouped c x) (hf : ∀ v, f [v] = v) :
    I.Summarizes grouped f c (taken [x]) := by
  obtain ⟨v, b⟩ := x
  refine ⟨h.reads.term, h.reads.null, ?_, ?_⟩
  · rw [h.flag]
    cases b <;> simp [taken]
  · cases b with
    | false => simp [taken]
    | true => exact fun _ ↦ h.reads.read.trans (hf v).symm

/-- What one more row does, all rows do. -/
theorem Summarizes.foldlM {step : Contribution → Contribution → Outcome Contribution}
    (hstep : ∀ {c d e : Contribution} {vs : List (Option Int)} {x : Option Int × Bool}, I.Summarizes grouped f c vs →
      I.Contributes grouped d x → step c d = .ok e → I.Summarizes grouped f e (vs ++ taken [x]))
    (hcs : Forall₂ (I.Contributes grouped) cs xs) {c r : Contribution} {vs : List (Option Int)}
    (hc : I.Summarizes grouped f c vs) (hrun : cs.foldlM step c = .ok r) :
    I.Summarizes grouped f r (vs ++ taken xs) := by
  induction hcs generalizing c vs with
  | nil =>
    obtain rfl := ok.inj hrun
    simpa [taken] using hc
  | @cons d x cs xs hd _ ih =>
    rw [foldlM_cons, bind_ok_iff] at hrun
    obtain ⟨e, he, hrun⟩ := hrun
    rw [taken_cons, ← append_assoc]
    exact ih (hstep hc hd he) hrun

end Summaries

/-! ## The first row -/

/-- A row counts if none before it did. -/
theorem Summarizes.firstIn {d : Contribution} (hc : I.Summarizes true first c vs) (hd : I.Contributes true d x) :
    I.Summarizes true first (firstIn c d) (vs ++ taken [x]) := by
  obtain ⟨v, b⟩ := x
  have hcflag : I.Holds c.flag ↔ vs ≠ [] := hc.flag
  have hdflag : I.Holds d.flag ↔ b = true := hd.flag
  have hturns : I.Holds (.and [d.flag, .not c.flag]) ↔ b = true ∧ vs = [] := by
    simp [hdflag, hcflag]
  refine ⟨rfl, ?_, ?_, fun hne ↦ ?_⟩
  · simp [firstIn, kind, hd.reads.null, hc.null, bind, Except.bind, pure, Except.pure]
  · simp only [firstIn, Contribution.takes, if_true, holds_or_cons, mem_cons, not_mem_nil,
      or_false, exists_eq_or_imp, exists_eq_left, hcflag, hdflag]
    cases b <;> simp [taken]
  · refine (I.read_ite _ (d.val, d.null) (c.val, c.null)).trans ?_
    rw [if_congr hturns rfl rfl, hd.reads.read]
    rcases eq_or_ne vs [] with rfl | hvs
    · cases b with
      | false => simp [taken] at hne
      | true => rw [if_pos ⟨rfl, rfl⟩]; rfl
    · rw [if_neg fun h ↦ hvs h.2, hc.read hvs, first, first, head?_append_of_ne_nil _ hvs]

/-- The rows of a group are gone through for the first of them. -/
theorem summarizes_foldl_firstIn (hc : I.Contributes true c x) (hcs : Forall₂ (I.Contributes true) cs xs) :
    I.Summarizes true first (cs.foldl firstIn c) (taken (x :: xs)) := by
  have hrun : cs.foldlM (fun c d ↦ (pure (firstIn c d) : Outcome Contribution)) c =
      .ok (cs.foldl firstIn c) := foldlM_pure
  have hone : I.Summarizes true first c (taken [x]) := hc.summarizes fun v ↦ by cases v <;> rfl
  rw [taken_cons]
  exact Summarizes.foldlM (fun hc hd he ↦ ok.inj he ▸ hc.firstIn hd) hcs hone hrun

/-! ## The largest and the smallest value -/

section Extremes

variable {op : Comparison} {d e : Contribution}

/-- Of two rows that take part the better one is taken, otherwise the one that does. -/
theorem read_extreme2In (hterm : c.val.isPlain = false) (h : Aggregate.extreme2In grouped op c d = .ok e) :
    I.read (e.val, e.null) =
      if I.Holds (c.takes grouped) then
        if I.Holds (d.takes grouped) then better op (I.read (c.val, c.null)) (I.read (d.val, d.null))
        else I.read (c.val, c.null)
      else if I.Holds (d.takes grouped) then I.read (d.val, d.null) else none := by
  cases grouped <;>
    simp only [Aggregate.extreme2In, Aggregate.extreme2, Aggregate.groupExtreme2, Aggregate.better, if_true,
      Bool.false_eq_true, if_false, bind_ok_iff, pure_ok_iff] at h
  all_goals
    obtain ⟨both, ⟨t, ht, rfl⟩, rfl⟩ := h
    obtain rfl := compare_term hterm ht
    by_cases hc : I.Holds c.flag <;> by_cases hd : I.Holds d.flag <;> by_cases hx : I.Holds c.null <;>
      by_cases hy : I.Holds d.null
    all_goals simp [Contribution.takes, read, hc, hd, hx, hy, better, holds_cmp]

/-- One of two rows takes part. -/
theorem takes_extreme2In (h : Aggregate.extreme2In grouped op c d = .ok e) :
    e.val.isPlain = false ∧ e.null.kind = .ok (some .truth) ∧
      (I.Holds (e.takes grouped) ↔ I.Holds (c.takes grouped) ∨ I.Holds (d.takes grouped)) := by
  cases grouped <;>
    simp only [Aggregate.extreme2In, Aggregate.extreme2, Aggregate.groupExtreme2, if_true, Bool.false_eq_true, if_false,
      bind_ok_iff, pure_ok_iff] at h
  all_goals
    obtain ⟨both, -, rfl⟩ := h
    refine ⟨rfl, rfl, ?_⟩
  · simp only [Contribution.takes, Bool.false_eq_true, if_false, holds_not, holds_and, forall_mem_cons,
      not_mem_nil, false_imp_iff, implies_true, and_true]
    tauto
  · simp [Contribution.takes]

variable {pick : List Int → Option Int} {r : Reading}

/-- One more row is compared with what was found. -/
theorem Summarizes.extreme2In (hnil : pick [] = none) (hpick : ∀ ns x, pick (ns ++ x.toList) = better op (pick ns) x)
    (hc : I.Summarizes grouped (fun vs ↦ pick vs.reduceOption) c vs) (hd : I.Contributes grouped d x)
    (he : Aggregate.extreme2In grouped op c d = .ok e) :
    I.Summarizes grouped (fun vs ↦ pick vs.reduceOption) e (vs ++ taken [x]) := by
  have hread := read_extreme2In (I := I) hc.term he
  obtain ⟨v, b⟩ := x
  rw [hd.reads.read, if_congr hc.flag rfl rfl, if_congr hd.flag rfl rfl, if_congr hd.flag rfl rfl] at hread
  obtain ⟨hterm, hkind, htakes⟩ := takes_extreme2In (I := I) he
  refine ⟨hterm, hkind, ?_, fun hne ↦ hread.trans ?_⟩
  · rw [htakes, hc.flag, hd.flag]
    cases b <;> simp [taken]
  · cases b with
    | false =>
      have hvs : vs ≠ [] := by simpa [taken] using hne
      rw [if_pos hvs, if_neg Bool.false_ne_true, hc.read hvs]
      simp [taken]
    | true =>
      rw [if_pos rfl, if_pos rfl, show taken [(v, true)] = [v] from rfl,
        reduceOption_append, reduceOption_singleton, hpick]
      by_cases hvs : vs = []
      · subst hvs
        rw [if_neg (not_not.2 rfl), reduceOption_nil, hnil]
        rfl
      · rw [if_pos hvs, hc.read hvs]

theorem Reads.extremeIn (hnil : pick [] = none) (hpick : ∀ ns x, pick (ns ++ x.toList) = better op (pick ns) x)
    (hcs : Forall₂ (I.Contributes grouped) cs xs) (hne : grouped = true → taken xs ≠ [])
    (hr : Aggregate.extremeIn grouped op cs = .ok r) : I.Reads r (pick (taken xs).reduceOption) := by
  rw [Aggregate.extremeIn, bind_ok_iff] at hr
  obtain ⟨e, he, hr⟩ := hr
  obtain rfl := pure_ok_iff.1 hr
  cases hcs with
  | nil => cases he
  | @cons c x cs xs hc hcs =>
    have hone : I.Summarizes grouped (fun vs ↦ pick vs.reduceOption) c (taken [x]) := by
      refine hc.summarizes fun v ↦ ?_
      have := hpick [] v
      rwa [hnil, nil_append] at this
    have hall := Summarizes.foldlM (fun hc hd he ↦ hc.extreme2In hnil hpick hd he) hcs hone he
    rw [← taken_cons] at hall
    cases grouped with
    | true => exact ⟨hall.term, hall.null, hall.read (hne rfl)⟩
    | false =>
      refine ⟨hall.term, rfl, ?_⟩
      have hgone : I.Holds e.flag ↔ taken (x :: xs) = [] := by
        rw [← not_iff_not, ← holds_not]
        exact hall.flag
      by_cases hnone : taken (x :: xs) = []
      · rw [hnone, reduceOption_nil, hnil, read_eq_none_iff]
        simp [hgone.2 hnone]
      · rw [← hall.read hnone]
        simp [Interpretation.read, mt hgone.1 hnone]

end Extremes

/-! ## Sums and counts -/

section Sums

/-- A row counts if it takes part and its value is not null. -/
theorem holds_counts (h : I.Contributes grouped c x) :
    I.Holds (.and (Aggregate.counts grouped c)) ↔ x.2 = true ∧ x.1 ≠ none := by
  rw [← h.flag, ne_eq, ← h.holds_null]
  cases grouped <;> simp [Aggregate.counts, Aggregate.inGroup, Aggregate.present, Contribution.takes, and_comm]

theorem holds_seen (h : I.Contributes grouped c x) :
    I.Holds (Aggregate.seen grouped c) ↔ x.2 = true ∧ x.1 ≠ none := by
  rw [← h.flag, ne_eq, ← h.holds_null]
  cases grouped <;> simp [Aggregate.seen, Aggregate.seenInGroup, Aggregate.present, Contribution.takes]

/-- No row counts: those that take part have nulls. -/
theorem holds_vacant_iff :
    I.Holds (Aggregate.vacant grouped cs) ↔ ∀ c ∈ cs, I.Holds (c.takes grouped) → I.Holds c.null := by
  cases grouped with
  | true => simp [Aggregate.vacant, Aggregate.groupEmpty, Contribution.takes]
  | false =>
    simp only [Aggregate.vacant, Bool.false_eq_true, if_false, Aggregate.noneLeft, holds_and, forall_mem_map,
      Contribution.takes, holds_not, holds_or_cons, exists_mem_cons_iff, not_mem_nil, false_and, exists_false,
      or_iff_not_imp_right, not_false_eq_true, true_imp_iff]

theorem holds_vacant (h : Forall₂ (I.Contributes grouped) cs xs) :
    I.Holds (Aggregate.vacant grouped cs) ↔ (taken xs).reduceOption = [] := by
  rw [holds_vacant_iff]
  induction h with
  | nil => simp [taken]
  | @cons c x cs xs hc _ ih =>
    obtain ⟨v, b⟩ := x
    rw [forall_mem_cons, ih, hc.flag, hc.holds_null]
    cases b <;> cases v <;> simp [taken]

variable {ts ns : List Term} {distinct : Bool} {r : Reading}

/-- A value is not among those of the rows before. -/
theorem holds_fresh {n : Int} (hval : I.eval c.val = n) (hterm : c.val.isPlain = false)
    (h : Forall₂ (I.Contributes grouped) es seen) (hts : es.mapM (fun p ↦ do
      return .implies (Aggregate.seen grouped p) (← compare .ne c.val p.val) : Contribution → Outcome Term) =
        .ok ts) : (∀ t ∈ ts, I.Holds t) ↔ n ∉ (taken seen).reduceOption := by
  induction h generalizing ts with
  | nil =>
    obtain rfl := ok.inj hts
    simp [taken]
  | @cons p y es seen hp _ ih =>
    simp only [mapM_cons, bind_ok_iff, pure_ok_iff] at hts
    obtain ⟨t, ⟨u, hu, rfl⟩, ts, hts, rfl⟩ := hts
    obtain rfl := compare_term hterm hu
    obtain ⟨v, b⟩ := y
    rw [forall_mem_cons, ih hts, holds_implies, holds_seen hp, ← ne, holds_ne, hval]
    cases v with
    | none => cases b <;> simp [taken]
    | some m =>
      rw [hp.eval_val rfl]
      cases b <;> simp [taken]

/-- A new member is counted once, whether it was there or not. -/
private theorem sum_insert_sdiff (weight : Int → Int) (n : Int) (xs seen : Finset Int) :
    ∑ m ∈ insert n xs \ seen, weight m = (if n ∈ seen then 0 else weight n) + ∑ m ∈ xs \ insert n seen, weight m := by
  by_cases hn : n ∈ seen
  · rw [if_pos hn, Finset.insert_sdiff_of_mem _ hn, Finset.insert_eq_of_mem hn, zero_add]
  · have hsplit : insert n xs \ seen = insert n (xs \ insert n seen) := by
      ext m
      by_cases hm : m = n <;> simp [hm, hn]
    rw [if_neg hn, hsplit, Finset.sum_insert (by simp)]

section Weights

variable {weigh : Contribution → Term} {weight : Int → Int}
  (hweigh : ∀ {c : Contribution} {n : Int} {b : Bool}, I.Contributes grouped c (some n, b) →
    I.eval (weigh c) = weight n)

include hweigh

theorem eval_sum_counts (h : Forall₂ (I.Contributes grouped) cs xs) :
    I.eval (.sum (cs.map fun c ↦ .ite (.and (Aggregate.counts grouped c)) (weigh c) .zero)) =
      ((taken xs).reduceOption.map weight).sum := by
  rw [eval_sum]
  induction h with
  | nil => rfl
  | @cons c x cs xs hc _ ih =>
    obtain ⟨v, b⟩ := x
    rw [map_cons, map_cons, sum_cons, ih, eval_ite, if_congr (holds_counts hc) rfl rfl]
    cases v with
    | none => cases b <;> simp [taken]
    | some n =>
      rw [hweigh hc]
      cases b <;> simp [taken]

/-- A value is counted where no row before has it, so each value is counted once. -/
theorem eval_sum_distinctSum (h : Forall₂ (I.Contributes grouped) cs xs)
    (hes : Forall₂ (I.Contributes grouped) es seen) {ts : List Term}
    (hts : Aggregate.distinctSum (Aggregate.counts grouped) (Aggregate.seen grouped) weigh es cs = .ok ts) :
    (ts.map I.eval).sum = ∑ n ∈ (taken xs).reduceOption.toFinset \ (taken seen).reduceOption.toFinset, weight n := by
  induction h generalizing es seen ts with
  | nil =>
    obtain rfl := ok.inj hts
    simp [taken]
  | @cons c x cs xs hc _ ih =>
    simp only [Aggregate.distinctSum, bind_ok_iff, pure_ok_iff] at hts
    obtain ⟨fresh, hfresh, rest, hrest, rfl⟩ := hts
    have hcounts : I.Holds (.and (Aggregate.counts grouped c ++ [.and fresh])) ↔
        (x.2 = true ∧ x.1 ≠ none) ∧ ∀ t ∈ fresh, I.Holds t := by
      rw [holds_and, forall_mem_append, forall_mem_singleton, ← holds_and, holds_counts hc, holds_and]
    rw [map_cons, sum_cons, ih (rel_append hes (.cons hc .nil)) hrest, eval_ite,
      if_congr hcounts rfl rfl, eval_zero, taken_append, taken_cons x xs, reduceOption_append, reduceOption_append]
    obtain ⟨v, b⟩ := x
    cases v with
    | none => cases b <;> simp [taken]
    | some n =>
      cases b with
      | false => simp [taken]
      | true =>
        have hnew := holds_fresh (hc.eval_val rfl) hc.reads.term hes hfresh
        have hone : (taken [(some n, true)]).reduceOption = [n] := rfl
        rw [if_congr (and_congr_right' hnew) rfl rfl, hone, hweigh hc, singleton_append, toFinset_cons,
          sum_insert_sdiff, toFinset_append, toFinset_cons, toFinset_nil, Finset.union_insert, Finset.union_empty]
        simp [ite_not]

theorem eval_sum_weighed (h : Forall₂ (I.Contributes grouped) cs xs)
    (hts : Aggregate.weighed grouped distinct weigh cs = .ok ts) :
    I.eval (.sum ts) = ((counted distinct (taken xs)).map weight).sum := by
  cases distinct with
  | false =>
    obtain rfl := ok.inj hts
    exact eval_sum_counts hweigh h
  | true =>
    have hdedup : (taken xs).reduceOption.toFinset = (taken xs).reduceOption.dedup.toFinset := by
      ext n
      simp
    rw [eval_sum, eval_sum_distinctSum hweigh h .nil hts, counted, if_pos rfl,
      ← sum_toFinset _ (nodup_dedup _), ← hdedup]
    simp [taken]

end Weights

variable (h : List.Forall₂ (I.Contributes grouped) cs xs)
include h

theorem eval_sum_values (hts : Aggregate.weighed grouped distinct (·.val) cs = .ok ts) :
    I.eval (.sum ts) = (counted distinct (taken xs)).sum := by
  have hsum := eval_sum_weighed (fun hc ↦ hc.eval_val rfl) h hts
  rwa [map_id'] at hsum

theorem eval_sum_ones (hts : Aggregate.weighed grouped distinct (fun _ ↦ .one) cs = .ok ts) :
    I.eval (.sum ts) = (counted distinct (taken xs)).length := by
  rw [eval_sum_weighed (fun _ ↦ I.eval_one) h hts]
  simp

theorem read_vacant (t : Term) : I.read (t, Aggregate.vacant grouped cs) =
      if counted distinct (taken xs) = [] then none else some (I.eval t) := by
  rw [Interpretation.read, if_congr ((holds_vacant h).trans (counted_eq_nil distinct _).symm) rfl rfl]

theorem read_quotient (hts : Aggregate.weighed grouped distinct (·.val) cs = .ok ts)
    (hns : Aggregate.weighed grouped distinct (fun _ ↦ .one) cs = .ok ns) :
    I.read (.arith .div (.sum ts) (.sum ns), Aggregate.vacant grouped cs) = aggregate "avg" distinct (taken xs) := by
  rw [read_vacant h, aggregate_avg, eval_arith, eval_sum_values h hts, eval_sum_ones h hns]
  by_cases hnil : counted distinct (taken xs) = []
  · rw [if_pos hnil, if_pos hnil]
  · have hlength : ((counted distinct (taken xs)).length : Int) ≠ 0 := by simpa using hnil
    rw [if_neg hnil, if_neg hnil, calculate, if_neg hlength]

end Sums

/-! ## What the aggregates stand for -/

section Denotation

variable {f : List Contribution → Outcome Reading} {name : String} {distinct : Bool} {r : Reading}

/-- An aggregate stands for that of the values in the rows that take part. -/
theorem Reads.named (hf : Aggregate.Named f grouped name distinct)
    (h : Forall₂ (I.Contributes grouped) cs xs) (hne : grouped = true → taken xs ≠ []) (hr : f cs = .ok r) :
    I.Reads r (aggregate name distinct (taken xs)) := by
  obtain ⟨rfl, rfl⟩ | ⟨rfl, rfl⟩ | ⟨rfl, rfl⟩ | ⟨rfl, rfl⟩ | ⟨rfl, rfl⟩ := hf.build
  · rw [aggregate_max]
    exact .extremeIn rfl max?_append_toList h hne hr
  · rw [aggregate_min]
    exact .extremeIn rfl min?_append_toList h hne hr
  · obtain ⟨ts, hts, hr⟩ := bind_ok_iff.1 hr
    obtain rfl := pure_ok_iff.1 hr
    exact .certain (Aggregate.isPlain_sum_weighed hts) (congrArg some (eval_sum_ones h hts))
  · obtain ⟨ts, hts, hr⟩ := bind_ok_iff.1 hr
    obtain rfl := pure_ok_iff.1 hr
    refine ⟨Aggregate.isPlain_sum_weighed hts, by cases grouped <;> rfl, ?_⟩
    rw [read_vacant h, eval_sum_values h hts]
    rfl
  · simp only [Aggregate.averageIn, bind_ok_iff, pure_ok_iff] at hr
    obtain ⟨ts, hts, ns, hns, rfl⟩ := hr
    exact ⟨rfl, by cases grouped <;> rfl, read_quotient h hts hns⟩

/-- An average is a quotient, by something other than zero unless it is null. -/
theorem divisor_ne_zero (hf : Aggregate.Named f grouped "avg" distinct)
    (h : Forall₂ (I.Contributes grouped) cs xs) (hr : f cs = .ok r) :
    ∃ s n, r.1 = .arith .div s n ∧ (¬ I.Holds r.2 → I.eval n ≠ 0) := by
  obtain ⟨_, rfl⟩ : "avg" = "avg" ∧ f = Aggregate.averageIn grouped distinct := by
    simpa using hf.build
  simp only [Aggregate.averageIn, bind_ok_iff, pure_ok_iff] at hr
  obtain ⟨ts, hts, ns, hns, rfl⟩ := hr
  refine ⟨_, _, rfl, fun hnull ↦ ?_⟩
  rw [holds_vacant h, ← counted_eq_nil distinct] at hnull
  rw [eval_sum_ones h hns]
  simpa using hnull

variable (I) in
/-- The values in the rows that take part. -/
def partaking (grouped : Bool) (cs : List Contribution) : List (Option Int) :=
  (cs.filter fun c ↦ decide (I.Holds (c.takes grouped))).map fun c ↦ I.read (c.val, c.null)

theorem taken_eq_partaking : taken (cs.map fun c ↦ (I.read (c.val, c.null), decide (I.Holds (c.takes grouped)))) =
    I.partaking grouped cs := by
  rw [taken, filter_map, map_map]
  rfl

theorem contributes_self (h : ∀ c ∈ cs, c.val.isPlain = false ∧ c.null.kind = .ok (some .truth)) :
    Forall₂ (I.Contributes grouped) cs
      (cs.map fun c ↦ (I.read (c.val, c.null), decide (I.Holds (c.takes grouped)))) := by
  rw [forall₂_map_right_iff, forall₂_same]
  exact fun c hc ↦ ⟨⟨(h c hc).1, (h c hc).2, rfl⟩, (decide_eq_true_iff).symm⟩

theorem partaking_ne_nil (h : ∃ c ∈ cs, I.Holds (c.takes grouped)) : I.partaking grouped cs ≠ [] := by
  obtain ⟨c, hc, hholds⟩ := h
  simp only [partaking, ne_eq, map_eq_nil_iff, filter_eq_nil_iff, not_forall]
  exact ⟨c, hc, by simpa using hholds⟩

end Denotation

end Interpretation

open Interpretation in
/-- Each aggregate of rows, over a table or over a group in which there is a row, stands for the aggregate of the
values in the rows that take part: those not deleted, or those in the group. A count is never null, another
aggregate is null if and only if there is no value, the divisor of an average that is not null is not zero, and
the order of the rows does not matter. -/
theorem aggregate_denotes {f : List Contribution → Outcome Reading} {grouped : Bool} {name : String} {distinct : Bool}
    (hf : Aggregate.Named f grouped name distinct) {cs : List Contribution} (hne : cs ≠ [])
    (hcs : ∀ c ∈ cs, c.val.isPlain = false ∧ c.null.kind = .ok (some .truth)) :
    ∃ r, f cs = .ok r ∧ ∀ I : Interpretation, (grouped = true → ∃ c ∈ cs, I.Holds c.flag) →
      I.read r = Sql.aggregate name distinct (I.partaking grouped cs) ∧
      (I.Holds r.2 ↔ name ≠ "count" ∧ ∀ v ∈ I.partaking grouped cs, v = none) ∧
      (name = "avg" → ∃ s n, r.1 = .arith .div s n ∧ (¬ I.Holds r.2 → I.eval n ≠ 0)) ∧
      ∀ ds, cs.Perm ds → ∃ r', f ds = .ok r' ∧ I.read r' = I.read r := by
  have hreads {I : Interpretation} {cs : List Contribution} {r : Reading}
      (hcs : ∀ c ∈ cs, c.val.isPlain = false ∧ c.null.kind = .ok (some .truth))
      (hsome : grouped = true → ∃ c ∈ cs, I.Holds c.flag) (hr : f cs = .ok r) :
      I.read r = aggregate name distinct (I.partaking grouped cs) := by
    rw [← taken_eq_partaking]
    refine (Reads.named hf (contributes_self hcs) (fun hgrouped ↦ ?_) hr).read
    rw [taken_eq_partaking]
    refine partaking_ne_nil ?_
    subst hgrouped
    exact hsome rfl
  obtain ⟨r, hr⟩ := hf.ok hne fun c hc ↦ (hcs c hc).1
  refine ⟨r, hr, fun I hsome ↦ ⟨hreads hcs hsome hr, ?_, ?_, fun ds hperm ↦ ?_⟩⟩
  · rw [← aggregate_eq_none_iff hf.mem_names distinct, ← hreads hcs hsome hr]
    exact I.read_eq_none_iff.symm
  · rintro rfl
    exact divisor_ne_zero hf (contributes_self hcs) hr
  · have hds : ∀ c ∈ ds, c.val.isPlain = false ∧ c.null.kind = .ok (some .truth) :=
      fun c hc ↦ hcs c (hperm.mem_iff.2 hc)
    obtain ⟨r', hr'⟩ := hf.ok (fun h ↦ hne (h ▸ hperm).eq_nil) fun c hc ↦ (hds c hc).1
    refine ⟨r', hr', ?_⟩
    rw [hreads hds (fun h ↦ (hsome h).imp fun c hc ↦ ⟨hperm.mem_iff.1 hc.1, hc.2⟩) hr', hreads hcs hsome hr]
    exact aggregate_perm hf.mem_names distinct ((hperm.filter _).map _).symm

/-- Three rows, of which a flag says whether they are in a group. -/
def threeMembers : List Contribution :=
  [⟨.cell 0 0 0, .null 0 0 0, .grouping 1 0 0⟩, ⟨.cell 0 1 0, .null 0 1 0, .grouping 1 1 0⟩,
    ⟨.cell 0 2 0, .null 0 2 0, .grouping 1 2 0⟩]

/-- The average of the distinct values 4 and 9, of which the first is there twice. -/
theorem average_threeMembers : ∃ r, Aggregate.groupAverageDistinct threeMembers = .ok r ∧
    ∀ I : Interpretation, (∀ i, I.grouping 1 i 0 = true) → (∀ i, I.null 0 i 0 = false) → I.cell 0 0 0 = 4 →
      I.cell 0 1 0 = 9 → I.cell 0 2 0 = 4 → I.read r = some 6 := by
  have hterms : ∀ c ∈ threeMembers, c.val.isPlain = false ∧ c.null.kind = .ok (some .truth) := by
    simp [threeMembers, isPlain, kind]
  obtain ⟨r, hr, hread⟩ := aggregate_denotes .groupAverageDistinct (cons_ne_nil _ _) hterms
  refine ⟨r, hr, fun I hgroup hnull h₀ h₁ h₂ ↦ (hread I fun _ ↦ ?_).1.trans ?_⟩
  · exact ⟨_, mem_cons_self, (I.holds_grouping 1 0 0).2 (hgroup 0)⟩
  · simp [Interpretation.partaking, Contribution.takes, Interpretation.read, aggregate_avg, counted, hgroup,
      hnull, h₀, h₁, h₂]

end QueryEquiv
