import QueryEquiv.Proofs.Conflicts
import QueryEquiv.Proofs.LetterCase
import QueryEquiv.Operator.Project

/-!
# The columns that a name stands for

A target of a projection stands for the first column of its name. Everywhere else a name stands for the first column
that has it or had it before it got an alias. So both are the same column unless an earlier one was called so
(`target_column_iff`).
-/

namespace QueryEquiv

open Text List

/-! ## Parts of names -/

namespace Text

theorem lowerChars_dot (ys : List Char) : lowerChars (some '.') ys = lowerChars none ys := by
  cases ys with
  | nil => rfl
  | cons y ys =>
    have hdot : isCased '.' = false := by decide +kernel
    simp [lowerChars_cons, lowerBetween, hdot]

/-- A full stop ends a word. -/
theorem lowerChars_append_dot (before : Option Char) (xs ys : List Char) :
    lowerChars before (xs ++ '.' :: ys) = lowerChars before xs ++ '.' :: lowerChars none ys := by
  have hdot : isCased '.' = false ∧ lowerChar '.' = '.' := by decide +kernel
  induction xs generalizing before with
  | nil => simp [lowerChars_cons, lowerBetween, hdot, lowerChars_dot, lowerChars]
  | cons x xs ih =>
    rw [cons_append, lowerChars_cons, lowerChars_cons, ih, append_assoc]
    cases xs with
    | nil => simp [lowerBetween, hdot]
    | cons x' xs => rfl

theorem toList_lower (s : String) : (lower s).toList = lowerChars none s.toList := by
  have ascii {cs : List Char} (h : ∀ c ∈ cs, c.toNat < 128) (before : Option Char) :
      lowerChars before cs = cs.map Char.toLower := by
    induction cs generalizing before with
    | nil => rfl
    | cons c cs ih =>
      rw [forall_mem_cons] at h
      have h₁ : c.toNat ≠ 931 := by omega
      have h₂ : c.toNat ≠ 304 := by omega
      rw [lowerChars_cons, ih h.2, lowerBetween, if_neg (by simpa using h₁), if_neg (by simpa using h₂), lowerChar,
        if_pos h.1]
      rfl
  unfold lower
  split
  · next h => rw [String.toList_map, ascii (by simpa using h)]
  · rw [String.toList_ofList]

theorem eq_dot_of_lowerChar {c : Char} (h : lowerChar c = '.') : c = '.' := by
  have ascii : ∀ n < 128, (Char.ofNat n).toLower = '.' → Char.ofNat n = '.' := by decide +kernel
  by_cases hc : c.toNat < 128
  · rw [lowerChar, if_pos hc] at h
    simpa using ascii c.toNat hc (by simpa using h)
  · rw [lowerChar, if_neg hc] at h
    obtain he | ⟨r, hr, hmem, he⟩ := shiftBy_cases lowerRuns c
    · exact he.symm.trans h
    · have hpoints : ∀ n ∈ lowerPoints, Char.ofNat n ≠ '.' := by decide +kernel
      exact absurd (he.symm.trans h) (hpoints _ (mem_flatMap.2 ⟨r, hr, mem_map.2 ⟨_, hmem, rfl⟩⟩))

theorem dot_mem_of_lowerChars {before : Option Char} {cs : List Char} (h : '.' ∈ lowerChars before cs) : '.' ∈ cs := by
  induction cs generalizing before with
  | nil => cases h
  | cons c cs ih =>
    rw [lowerChars_cons, mem_append] at h
    refine mem_cons.2 (h.imp (fun h ↦ ?_) ih)
    unfold lowerBetween at h
    split at h
    · split at h <;> exact absurd h (by decide)
    · split at h
      · exact absurd h (by decide)
      · exact (eq_dot_of_lowerChar (mem_singleton.1 h).symm).symm

theorem splitOnP_lowerChars (cs : List Char) :
    (lowerChars none cs).splitOnP (· == '.') = (cs.splitOnP (· == '.')).map (lowerChars none) := by
  induction hn : cs.length using Nat.strong_induction_on generalizing cs with
  | _ n ih =>
    by_cases h : '.' ∈ cs
    · obtain ⟨xs, ys, rfl⟩ := append_of_mem h
      have hlen : xs.length < n ∧ ys.length < n := by
        rw [length_append, length_cons] at hn
        omega
      rw [lowerChars_append_dot, splitOnP_append_cons _ _ rfl, splitOnP_append_cons _ _ rfl, map_append,
        ih _ hlen.1 xs rfl, ih _ hlen.2 ys rfl]
    · rw [splitOnP_of_notMem '.' h, splitOnP_of_notMem '.' fun h' ↦ h (dot_mem_of_lowerChars h'), map_singleton]

end Text

theorem partsOf_lower (s : String) : partsOf (lower s) = (partsOf s).map lower := by
  rw [partsOf, partsOf, toList_lower, splitOnP_lowerChars, map_map, map_map]
  refine map_congr_left fun cs _ ↦ String.toList_injective ?_
  rw [Function.comp_apply, Function.comp_apply, toList_lower, String.toList_ofList, String.toList_ofList]

/-! ## Columns -/

/-- A column had a name before it got its alias. -/
def Column.wasCalled (c : Column) (name : String) : Bool :=
  match c.former with
  | .str f => Text.lower f == Text.lower name
  | _ => false

variable {c : Column} {cs : List Column} {owner : Option String} {name : String}

theorem Column.answersTo_lower (c : Column) (owner : Option String) (name : String) :
    c.answersTo (owner.map lower) (lower name) = c.answersTo owner name := by
  cases owner with
  | none => simp only [answersTo, Option.map_none, lower_lower]
  | some o => cases h : c.table <;> simp only [answersTo, h, Option.map_some, lower_lower]

open Operator.Project in
theorem resolve_cons (c : Column) : resolve owner (.str name) (c :: cs) = (do
    if ← c.answersTo owner name then return some c else resolve owner (.str name) cs) := by
  rw [resolve.eq_def]
  dsimp only
  generalize resolve owner (.str name) cs = rest
  have named (fits : Bool) : (do
      if fits then if (← lowered c.name) == (← lowered (.str name)) then return some c else rest
      else rest : Outcome (Option Column)) = (do
      if ← (do if fits then return (← lowered c.name) == lower name else return false) then return some c
      else rest) := by
    cases fits
    · rfl
    · cases lowered c.name <;> rfl
  unfold Column.answersTo
  cases owner with
  | none => exact named true
  | some o =>
    cases c.table with
    | null => exact named true
    | str own => exact named (lower own == lower o)
    | _ => rfl

/-- A projection takes the first column that answers to a name. -/
theorem resolve_eq_some (h : Operator.Project.resolve owner (.str name) cs = .ok (some c)) :
    ∃ before after, cs = before ++ c :: after ∧ c.answersTo owner name = .ok true ∧
      ∀ b ∈ before, b.answersTo owner name = .ok false := by
  induction cs with
  | nil => cases h
  | cons d cs ih =>
    rw [resolve_cons, Outcome.bind_ok_iff] at h
    obtain ⟨answers, hd, h⟩ := h
    cases answers
    case true =>
      obtain rfl : d = c := Option.some.inj (Except.ok.inj h)
      exact ⟨[], cs, rfl, hd, by simp⟩
    case false =>
      obtain ⟨before, after, rfl, hc, hbefore⟩ := ih h
      exact ⟨d :: before, after, rfl, hc, forall_mem_cons.2 ⟨hd, hbefore⟩⟩

/-- A name in another clause stands for an earlier column that was called so, if there is one. -/
theorem search_eq {t : Table} {s : String} {before after : List Column} (hc : c.answersTo owner name = .ok true)
    (hbefore : ∀ b ∈ before, b.answersTo owner name = .ok false)
    (hformer : ∀ b ∈ before, b.former = .null ∨ ∃ f, b.former = .str f) :
    t.search (lower s) owner name (before ++ c :: after) = .ok ((before.find? (·.wasCalled s)).getD c) := by
  induction before with
  | nil => simp [Table.search, hc]; rfl
  | cons b before ih =>
    rw [forall_mem_cons] at hbefore hformer
    have ih := ih hbefore.2 hformer.2
    rw [cons_append, Table.search, hbefore.1]
    obtain hf | ⟨f, hf⟩ := hformer.1
    · rw [hf, List.find?_cons_of_neg (by simp [Column.wasCalled, hf])]
      exact ih
    · rw [hf]
      change (if lower f == lower s then .ok b else t.search (lower s) owner name _) = _
      have hcalled : b.wasCalled s = (lower f == lower s) := by rw [Column.wasCalled, hf]
      rw [← hcalled, ih]
      split
      · rw [List.find?_cons_of_pos ‹_›, Option.getD_some]
      · rw [List.find?_cons_of_neg ‹_›]

/-- Both read the parts of a name alike, whatever letters it has. -/
theorem column_eq_search {t : Table} {s : String} {v : Value}
    (h : Operator.Project.nameParts (.str s) = .ok (owner, v)) : ∃ name, v = .str name ∧
      t.column (.str s) = t.search (lower s) (owner.map lower) (lower name) t.columns := by
  obtain ⟨dot, hdot, h⟩ := Outcome.bind_ok_iff.1 h
  obtain rfl : occursIn "." s = dot := Except.ok.inj hdot
  split at h
  · obtain ⟨parts, hparts, h⟩ := Outcome.bind_ok_iff.1 h
    obtain rfl : partsOf s = parts := Except.ok.inj ((dotted_str s).symm.trans hparts)
    split at h
    · rename_i hp
      cases h
      refine ⟨_, rfl, ?_⟩
      simp only [Table.column, lowered, bind, Except.bind, dotted_str, partsOf_lower, hp, map_cons, Option.map_some]
    · cases h
  · rename_i hdot
    have hmem : '.' ∉ s.toList := fun hmem ↦ hdot <| occursIn_iff.2 <| by
      obtain ⟨xs, ys, hs⟩ := append_of_mem hmem
      exact ⟨xs, ys, by rw [hs]; simp⟩
    cases h
    refine ⟨s, rfl, ?_⟩
    simp only [Table.column, lowered, bind, Except.bind, dotted_str, partsOf_lower, partsOf_of_notMem hmem,
      map_singleton, Option.map_none]

/-- The column that a target stands for is also what its name stands for elsewhere, unless an earlier column was called
so before it got an alias. -/
theorem target_column_iff {t : Table} {s : String} {byname : Value} {id : Nat} {d : Column} {i : Int} {aggregate : Bool}
    {w w' : Workspace} (hids : (t.columns.map (·.id)).Nodup)
    (hformer : ∀ c ∈ t.columns, c.former = .null ∨ ∃ f, c.former = .str f)
    (hg : Gives (Operator.Project.targetColumn t id (.column (.str s) byname)) w (d, .column i, aggregate) w') :
    ∃ before c after, t.columns = before ++ c :: after ∧ c.id = i ∧
      t.column (.str s) = .ok ((before.find? (·.wasCalled s)).getD c) ∧
      ((∀ c', t.column (.str s) = .ok c' → c'.id = i) ↔ ∀ b ∈ before, b.wasCalled s = false) := by
  have hg : ∃ owner name, Operator.Project.nameParts (.str s) = .ok (owner, name) ∧
      ∃ c, Operator.Project.resolve owner name t.columns = .ok (some c) ∧ c.id = i := by
    simp only [Operator.Project.targetColumn, Gives.bind_iff, Gives.lift_iff] at hg
    obtain ⟨⟨owner, name⟩, _, ⟨hparts, rfl⟩, found, _, ⟨hfound, rfl⟩, hg⟩ := hg
    cases found with
    | none => cases hg
    | some c =>
      cases hg
      exact ⟨owner, name, hparts, c, hfound, rfl⟩
  obtain ⟨owner, _, hparts, c, hc, rfl⟩ := hg
  obtain ⟨name, rfl, hcolumn⟩ := column_eq_search (t := t) hparts
  obtain ⟨before, after, hcolumns, hc, hbefore⟩ := resolve_eq_some hc
  have hfound : t.column (.str s) = .ok ((before.find? (·.wasCalled s)).getD c) := by
    rw [hcolumn, hcolumns]
    refine search_eq ((c.answersTo_lower owner name).trans hc)
      (fun b hb ↦ (b.answersTo_lower owner name).trans (hbefore b hb)) fun b hb ↦ hformer b ?_
    rw [hcolumns]
    exact mem_append_left _ hb
  refine ⟨before, c, after, hcolumns, rfl, hfound, ?_⟩
  rw [hfound]
  rw [hcolumns, map_append, map_cons, nodup_append] at hids
  constructor
  · intro h b hb
    cases hfind : before.find? (·.wasCalled s) with
    | none => simpa using List.find?_eq_none.1 hfind b hb
    | some b' =>
      -- The earlier column has another number.
      rw [hfind] at h
      exact absurd (h b' rfl) (hids.2.2 _ (mem_map_of_mem (mem_of_find?_eq_some hfind)) _ mem_cons_self)
  · rintro h c' ⟨⟩
    rw [List.find?_eq_none.2 (by simpa using h), Option.getD_none]

/-- A table whose second column has the name that the first had before. -/
def renamedPair : Table :=
  { id := 2, name := .str "d", bound := .int 1
    columns := [{ id := 0, name := .str "x", type := .str "int", former := .str "a" },
      { id := 1, name := .str "a", type := .str "int", former := .str "b" }] }

/-- The name of the second column stands for it in a projection, and for the first one elsewhere. -/
theorem renamedPair_column : ∃ before c after, renamedPair.columns = before ++ c :: after ∧ c.id = 1 ∧
    ∃ b ∈ before, renamedPair.column (.str "a") = .ok b := by
  have hg : Gives (Operator.Project.targetColumn renamedPair 0 (.column (.str "a") .null)) {}
      ({ id := 0, name := .str "a", type := .str "int", former := .str "b" }, .column 1, false) {} := by cbv
  obtain ⟨before, c, after, hcolumns, hc, hcolumn, hiff⟩ := target_column_iff (by decide) (by simp [renamedPair]) hg
  have hother : renamedPair.column (.str "a") =
      .ok { id := 0, name := .str "x", type := .str "int", former := .str "a" } := by cbv
  refine ⟨before, c, after, hcolumns, hc, ?_⟩
  cases hfind : before.find? (·.wasCalled "a") with
  | some b => exact ⟨b, mem_of_find?_eq_some hfind, by rw [hcolumn, hfind, Option.getD_some]⟩
  | none => exact absurd (hiff.2 (by simpa using List.find?_eq_none.1 hfind) _ hother) (by decide)

end QueryEquiv
