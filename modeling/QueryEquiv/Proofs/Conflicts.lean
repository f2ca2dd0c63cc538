import QueryEquiv.Proofs.Asking
import QueryEquiv.Proofs.Leaves

/-!
# Learned conflicts

A search fixes decisions, and when they contradict some clauses it excludes the decisions of these
clauses. Only the decisions about tables of the contradicting clauses are excluded, although the
contradiction was found with all decisions in force. So what is excluded follows from the formulas alone only
if the other decisions do not matter: a clause must not depend on decisions about the table of another
clause, and a formula that belongs to no clause must have been met by the decisions in force. This is what
`Owned` and `Decided` say.

The contradiction may also rest on conflicts learned before. Such a conflict stands for the clauses in its
name, so the names of the clauses have to be recovered from it.
-/

namespace QueryEquiv

open Text Formulas List

/-! ## Texts -/

namespace Text

variable {s : String} {c : Char} {I : Interpretation}

theorem run_ofChars {β : Type} (cs rest : List Char) (k : List Char → Option β) :
    (Pattern.ofChars cs).run (cs ++ rest) k = k rest := by
  induction cs with
  | nil => rfl
  | cons c cs ih =>
    change (if c == c then (Pattern.ofChars cs).run (cs ++ rest) k else none) = _
    rw [if_pos (beq_self_eq_true c), ih]

theorem run_ofChars_eq_some {β : Type} {cs xs : List Char} {k : List Char → Option β} {b : β}
    (h : (Pattern.ofChars cs).run xs k = some b) : ∃ rest, xs = cs ++ rest := by
  induction cs generalizing xs with
  | nil => exact ⟨xs, rfl⟩
  | cons c cs ih =>
    cases xs with
    | nil => cases h
    | cons x xs =>
      change (if x == c then (Pattern.ofChars cs).run xs k else none) = some b at h
      split at h
      · rename_i hx
        obtain ⟨rest, rfl⟩ := ih h
        exact ⟨rest, by rw [eq_of_beq hx, cons_append]⟩
      · cases h

theorem match?_isSome_iff {cs xs : List Char} :
    ((Pattern.ofChars cs).match? xs).isSome = true ↔ cs <+: xs := by
  rw [Pattern.match?, Option.isSome_map, Pattern.after?]
  constructor
  · intro h
    obtain ⟨b, hb⟩ := Option.isSome_iff_exists.1 h
    obtain ⟨rest, rfl⟩ := run_ofChars_eq_some hb
    exact prefix_append cs rest
  · rintro ⟨rest, rfl⟩
    rw [run_ofChars]
    rfl

/-- A text occurs in another exactly if its characters stand there in a row. -/
theorem occursIn_iff {part : String} : occursIn part s = true ↔ part.toList <:+: s.toList := by
  unfold occursIn Pattern.lit
  generalize s.toList = xs
  induction xs with
  | nil =>
    rw [Pattern.find?, Option.isSome_map, match?_isSome_iff, infix_nil, prefix_nil]
  | cons x xs ih =>
    rw [Pattern.find?, infix_cons_iff, ← ih, ← match?_isSome_iff]
    split
    · rename_i h
      simp [h]
    · rename_i h
      simp [h]

/-- A text does not occur where one of its characters does not. -/
theorem occursIn_eq_false {part : String} (c : Char) (hp : c ∈ part.toList) (hs : c ∉ s.toList) :
    occursIn part s = false := by
  rw [Bool.eq_false_iff, Ne, occursIn_iff]
  exact fun h ↦ hs (h.subset hp)

theorem isDigit_or_of_mem_repr {i : Int} (h : c ∈ (toString i).toList) : c.isDigit = true ∨ c = '-' := by
  have digits {n : Nat} (h : c ∈ n.repr.toList) : c.isDigit = true := by
    rw [Nat.toList_repr] at h
    exact Nat.isDigit_of_mem_toDigits (by decide) (by decide) h
  cases i with
  | ofNat n => exact .inl (digits h)
  | negSucc n =>
    change c ∈ ("-" ++ n.succ.repr).toList at h
    rw [String.toList_append, mem_append] at h
    exact h.symm.imp digits (by simp)

/-- A text occurs where another begins with it. -/
theorem occursIn_append (part rest : String) : occursIn part (part ++ rest) = true := by
  rw [occursIn_iff, String.toList_append]
  exact (prefix_append _ _).isInfix

section Split

variable (c : Char)

theorem find?_char_cons (x : Char) (xs : List Char) : (Pattern.char c).find? (x :: xs) =
      if x == c then some ⟨[], [x], xs⟩
      else ((Pattern.char c).find? xs).map fun f ↦ { f with before := x :: f.before } := by
  have hmatch : (Pattern.char c).match? (x :: xs) = if x == c then some ([x], xs) else none := by
    change Option.map _ (if x == c then some xs else none) = _
    split
    · simp
    · rfl
  rw [Pattern.find?, hmatch]
  split <;> simp_all

/-- The parts between the places where a text was cut. -/
def parts (r : List (List Char × List Char) × List Char) : List (List Char) := r.1.map (·.1) ++ [r.2]

theorem parts_cutWith (fuel : Nat) (cs : List Char) (h : cs.length ≤ fuel) :
    parts ((Pattern.char c).cutWith fuel cs) = cs.splitOnP (· == c) := by
  induction cs generalizing fuel with
  | nil =>
    rw [splitOnP_nil]
    cases fuel <;> rfl
  | cons x xs ih =>
    obtain ⟨n, rfl⟩ : ∃ n, fuel = n + 1 := ⟨fuel - 1, by simp at h; omega⟩
    rw [length_cons, Nat.add_le_add_iff_right] at h
    rw [splitOnP_cons_eq_if_modifyHead, Pattern.cutWith, find?_char_cons]
    by_cases hx : x == c
    · -- A separator ends a part.
      rw [if_pos hx, if_pos hx, ← ih n h]
      rfl
    · -- Another character goes in front of the first part of the rest.
      rw [if_neg hx, if_neg hx, ← ih (n + 1) (by omega), Pattern.cutWith]
      cases hf : (Pattern.char c).find? xs with
      | none => rfl
      | some f =>
        simp only [Option.map_some]
        split <;> rfl

/-- A character cuts a text like a separator. -/
theorem parts_cut (cs : List Char) : parts ((Pattern.char c).cut cs) = cs.splitOnP (· == c) :=
  parts_cutWith c cs.length cs (Nat.le_refl _)

theorem splitOnP_of_notMem {l : List Char} (hl : c ∉ l) : l.splitOnP (· == c) = [l] := by
  refine splitOnP_eq_singleton fun x hx ↦ ?_
  rw [beq_eq_false_iff_ne]
  rintro rfl
  exact hl hx

/-- A part without the separator is found again among joined parts. -/
theorem mem_splitOnP_intercalate {ls : List (List Char)} {l : List Char} (hl : l ∈ ls) (hc : c ∉ l) :
    l ∈ ([c].intercalate ls).splitOnP (· == c) := by
  induction ls with
  | nil => cases hl
  | cons x xs ih =>
    cases xs with
    | nil =>
      obtain rfl := mem_singleton.1 hl
      have : [c].intercalate [l] = l := by simp [List.intercalate]
      rw [this, splitOnP_of_notMem c hc]
      exact mem_singleton_self l
    | cons y ys =>
      have : [c].intercalate (x :: y :: ys) = x ++ c :: [c].intercalate (y :: ys) := by simp [List.intercalate]
      rw [this, splitOnP_append_cons x _ (by exact beq_self_eq_true c), mem_append]
      obtain rfl | hl := mem_cons.1 hl
      · exact .inl (by simp [splitOnP_of_notMem c hc])
      · exact .inr (ih hl)

end Split

end Text

def partsOf (s : String) : List String := (s.toList.splitOnP (· == '.')).map String.ofList

theorem dotted_str (s : String) : dotted (.str s) = .ok (partsOf s) := by
  rw [partsOf, ← parts_cut, parts, map_append, map_map]
  rfl

theorem partsOf_of_notMem (h : '.' ∉ s.toList) : partsOf s = [s] := by
  rw [partsOf, splitOnP_of_notMem '.' h, map_singleton, String.ofList_toList]

namespace Table

/-- A lineage that consists of plain words, numbers and commas mentions nothing with another character. -/
theorem mentions_eq_false {t : Table} {lineage : String} (ht : t.lineage = some lineage) (c : Char) (hs : c ∈ s.toList)
    (hc : c ∉ lineage.toList) : t.mentions s = .ok false := by
  simp only [mentions, ht, occursIn_eq_false c hs hc]

end Table

/-- The numbers of tables in a lineage are made of digits, signs, commas and blanks. -/
theorem notMem_toString (hc : c.isDigit = false ∧ c ≠ '-') (i : Int) : c ∉ (toString i).toList := by
  intro h
  obtain h | h := isDigit_or_of_mem_repr h
  · rw [hc.1] at h
    cases h
  · exact hc.2 h

theorem notMem_intercalate {sep : String} {ss : List String} (hsep : c ∉ sep.toList)
    (hss : ∀ s ∈ ss, c ∉ s.toList) : c ∉ (sep.intercalate ss).toList := by
  rw [String.toList_intercalate]
  induction ss with
  | nil => simp [List.intercalate]
  | cons s ss ih =>
    rw [forall_mem_cons] at hss
    cases ss with
    | nil => simpa [List.intercalate] using hss.1
    | cons s' ss =>
      rw [map_cons, map_cons, intercalate_cons_cons, mem_append, mem_append]
      rintro ((h | h) | h)
      · exact hss.1 h
      · exact hsep h
      · exact ih hss.2 h

/-! ## Entries under keys -/

namespace Formulas

variable {κ α : Type} [BEq κ] [LawfulBEq κ] {k k' : κ} {a : α} {l : List (κ × α)}

theorem lookup_put : (put k a l).lookup k' = if k' == k then some a else l.lookup k' := by
  induction l with
  | nil => cases h : k' == k <;> simp [put, List.lookup, h]
  | cons x l ih =>
    obtain ⟨j, b⟩ := x
    unfold put
    by_cases hj : j == k
    · obtain rfl := eq_of_beq hj
      rw [if_pos hj]
      cases h : k' == j <;> simp [List.lookup, h]
    · rw [if_neg hj]
      by_cases hk : k' == j
      · obtain rfl := eq_of_beq hk
        simp [List.lookup, hj]
      · simp [List.lookup, hk, ih]

theorem mem_put {x : κ × α} (h : x ∈ put k a l) : x = (k, a) ∨ x ∈ l := by
  induction l with
  | nil => exact .inl (by simpa [put] using h)
  | cons y l ih =>
    obtain ⟨j, b⟩ := y
    unfold put at h
    split at h
    · rename_i hj
      obtain rfl := eq_of_beq hj
      obtain h | h := mem_cons.1 h
      · exact .inl h
      · exact .inr (mem_cons_of_mem _ h)
    · obtain h | h := mem_cons.1 h
      · exact .inr (h ▸ mem_cons_self)
      · exact (ih h).imp_right (mem_cons_of_mem _)

theorem nodup_put (h : (l.map Prod.fst).Nodup) : ((put k a l).map Prod.fst).Nodup := by
  induction l with
  | nil => simp [put]
  | cons x l ih =>
    obtain ⟨j, b⟩ := x
    rw [map_cons, nodup_cons] at h
    unfold put
    split
    · exact nodup_cons.2 h
    · rename_i hj
      refine nodup_cons.2 ⟨fun hmem ↦ h.1 ?_, ih h.2⟩
      obtain ⟨x, hx, rfl⟩ := mem_map.1 hmem
      obtain rfl | hx := mem_put hx
      · exact absurd (beq_self_eq_true _) hj
      · exact mem_map.2 ⟨x, hx, rfl⟩

theorem mem_of_lookup (h : l.lookup k = some a) : (k, a) ∈ l := by
  obtain ⟨l₁, l₂, rfl, -⟩ := lookup_eq_some_iff.1 h
  simp

/-- Where keys are distinct, an entry is what is looked up. -/
theorem lookup_of_mem (hl : (l.map Prod.fst).Nodup) (h : (k, a) ∈ l) : l.lookup k = some a := by
  induction l with
  | nil => cases h
  | cons x l ih =>
    obtain ⟨j, b⟩ := x
    rw [map_cons, nodup_cons] at hl
    obtain h | hmem := mem_cons.1 h
    · cases h
      simp [List.lookup]
    · have : (k == j) = false := by
        rw [beq_eq_false_iff_ne]
        rintro rfl
        exact hl.1 (mem_map.2 ⟨(k, a), hmem, rfl⟩)
      simp [List.lookup, this, ih hl.2 hmem]

end Formulas

namespace Search

/-! ## Names of conflicts -/

theorem clausesOf_conflictName (n : Nat) (core : List String) : ∃ ls, clausesOf (conflictName n core) = .ok ls ∧
      ∀ l ∈ core, ofClause l = true → occursIn "conflict" l = false → '&' ∉ l.toList → l ∈ ls := by
  set clauses := core.filter fun l ↦ ofClause l && !occursIn "conflict" l with hclauses
  have hname : conflictName n core = "conflict" ++ (n.repr ++ "_" ++ "&".intercalate clauses) := by
    simp [conflictName, ← hclauses, String.append_assoc]
    rfl
  have hdrop : (conflictName n core).toList.dropWhile (· != '_') =
      '_' :: ['&'].intercalate (clauses.map String.toList) := by
    have hdigits : ∀ x ∈ "conflict".toList ++ n.repr.toList, (x != '_') = true := by
      intro x hx
      obtain hx | hx := mem_append.1 hx
      · have hword : "conflict".toList.all (· != '_') = true := rfl
        exact all_eq_true.1 hword x hx
      · rw [Nat.toList_repr] at hx
        have := Nat.isDigit_of_mem_toDigits (by decide) (by decide) hx
        rw [bne_iff_ne]
        rintro rfl
        exact absurd this (by decide)
    rw [hname, String.toList_append, String.toList_append, String.toList_append, append_assoc,
      ← append_assoc, dropWhile_append_of_pos hdigits, String.toList_intercalate]
    rfl
  refine ⟨(parts ((Pattern.char '&').cut (['&'].intercalate (clauses.map String.toList)))).map
    String.ofList, ?_, fun l hl hc hn ha ↦ ?_⟩
  · unfold clausesOf
    rw [if_pos (by rw [hname]; exact occursIn_append _ _), hdrop]
    simp [parts]
  · rw [parts_cut]
    have hmem : l.toList ∈ clauses.map String.toList :=
      mem_map_of_mem (mem_filter.2 ⟨hl, by simp [hc, hn]⟩)
    exact mem_map.2 ⟨l.toList, mem_splitOnP_intercalate '&' hmem ha, String.ofList_toList⟩

/-! ## Decisions -/

/-- The interpretation in which decisions are taken. -/
def redecide (ds : List (Int × Choices)) (I : Interpretation) : Interpretation :=
  { I with choice := fun id i ↦
      match (ds.lookup id).bind (·[i.toNat]?) with
      | some (.fixed v) => if 0 ≤ i then I.eval (.int v) else I.choice id i
      | _ => I.choice id i }

def Takes (I : Interpretation) (d : Int × Choices) : Prop := ∀ c ∈ d.2.conditions d.1, I.Holds c

theorem takes_iff {d : Int × Choices} :
    Takes I d ↔ ∀ (i : Nat) v, d.2[i]? = some (.fixed v) → I.choice d.1 i = I.eval (.int v) := by
  unfold Takes Choices.conditions
  simp only [mem_filterMap, forall_exists_index, and_imp]
  constructor
  · intro h i v hv
    have := h (.eq (.choice d.1 i) (.int v)) (.fixed v, i) (mem_zipIdx_iff_getElem?.2 hv) rfl
    simpa using this
  · rintro h c ⟨b, i⟩ hmem hc
    cases b with
    | free => cases hc
    | fixed v =>
      obtain rfl := Option.some.inj hc
      simpa using h i v (mem_zipIdx_iff_getElem?.1 hmem)

variable {ds : List (Int × Choices)} {I : Interpretation}

theorem redecide_takes (hds : (ds.map Prod.fst).Nodup) {d : Int × Choices} (hd : d ∈ ds) :
    Takes (redecide ds I) d := by
  rw [takes_iff]
  intro i v hv
  have hl : ds.lookup d.1 = some d.2 := lookup_of_mem hds hd
  change (match (ds.lookup d.1).bind (·[(i : Int).toNat]?) with
    | some (.fixed v) => if 0 ≤ (i : Int) then I.eval (.int v) else I.choice d.1 i
    | _ => I.choice d.1 i) = _
  rw [hl, Option.bind_some, Int.toNat_natCast, hv]
  exact if_pos (Int.natCast_nonneg i)

/-- Decisions that are taken already change nothing about their table. -/
theorem redecide_choice (id : Int) (h : ∀ vec, ds.lookup id = some vec → Takes I (id, vec)) (i : Int) :
    (redecide ds I).choice id i = I.choice id i := by
  change (match (ds.lookup id).bind (·[i.toNat]?) with
    | some (.fixed v) => if 0 ≤ i then I.eval (.int v) else I.choice id i
    | _ => I.choice id i) = _
  cases hl : ds.lookup id with
  | none => rfl
  | some vec =>
    rw [Option.bind_some]
    cases hb : vec[i.toNat]? with
    | none => rfl
    | some b =>
      cases b with
      | free => rfl
      | fixed v =>
        dsimp only
        split
        · rename_i hi
          have := takes_iff.1 (h vec hl) i.toNat v hb
          rw [Int.toNat_of_nonneg hi] at this
          exact this.symm
        · rfl

/-- Terms that look at no other choices keep their meaning. -/
theorem redecide_holds {t : Term} (ht : t.ChoosesIn fun id _ ↦ ∀ i, (redecide ds I).choice id i = I.choice id i) :
    (redecide ds I).Holds t ↔ I.Holds t := by
  refine Interpretation.AgreeOn.holds_iff (I := redecide ds I) (J := I) ⟨rfl, rfl, fun u hu hp ↦ ?_⟩ ht
  cases u with
  | choice id i => exact hp i
  | cell | null | grouping | deleted | belongs | size => rfl
  | _ => exact hu.elim

/-! ## Formulas that own their decisions -/

/-- The first choices of a table settle whether a term holds. -/
def SettledBy (conv : Conventions) (t : Term) (id : Int) (n : Nat) : Prop :=
  ∀ I J : Interpretation, I.toConventions = conv → J.toConventions = conv →
    (∀ i < n, I.choice id (i : Nat) = J.choice id (i : Nat)) → I.Holds t → J.Holds t

/-- Among the tables that decisions are about, a clause depends on decisions about its own only, and a
formula that belongs to no clause is settled by the decisions about one of them if it depends on any. -/
structure Owned (conv : Conventions) (w : Workspace) (tables : List (Option String × Int)) : Prop where
  clause : ∀ f ∈ w.formulas.entries, ofClause f.label = true →
    f.term.ChoosesIn fun id _ ↦ id ∈ tables.map Prod.snd → tables.lookup (some f.label) = some id
  other : ∀ f ∈ w.formulas.entries, ofClause f.label = false →
    (f.term.ChoosesIn fun id _ ↦ id ∉ tables.map Prod.snd) ∨
      ∃ id place n, w.database.place? id = some place ∧ choiceCount (w.catalog.table place) = .ok n ∧
        SettledBy conv f.term id n
  /-- The labels of tables are those of clauses, and can be told apart in the name of a conflict. -/
  label : ∀ l id, tables.lookup (some l) = some id →
    ofClause l = true ∧ Text.occursIn "conflict" l = false ∧ '&' ∉ l.toList
  /-- A table is filed under its own number. -/
  filed : ∀ x ∈ tables, ∀ place, w.database.place? x.2 = some place → (w.catalog.table place).id = x.2
  /-- No decisions are asserted yet. -/
  fresh : ∀ f ∈ w.formulas.entries, f.label ≠ decisionLabel

section

variable (conv : Conventions) (w₀ : Workspace) (tables : List (Option String × Int))

def Models (I : Interpretation) : Prop :=
  I.toConventions = conv ∧ ∀ f ∈ w₀.formulas.entries, I.Holds f.term

/-- Decisions about a table are those of an interpretation in which the formulas hold that belong to no
clause. -/
def Decided (d : Int × Choices) : Prop :=
  ∃ M : Interpretation, M.toConventions = conv ∧
    (∀ f ∈ w₀.formulas.entries, ofClause f.label = false → M.Holds f.term) ∧
    ∀ place n, w₀.database.place? d.1 = some place → choiceCount (w₀.catalog.table place) = .ok n →
      ∀ i < n, d.2[i]? = some (.fixed (.int (M.choice d.1 i)))

/-- A conflict excludes decisions about tables of the clauses in its name, and is a consequence of the
formulas. -/
def Learned (c : String × Term) : Prop :=
  ∃ ds ls, c.2 = exclusion ds ∧ clausesOf c.1 = .ok ls ∧
    (∀ d ∈ ds, ∃ l ∈ ls, tables.lookup (some l) = some d.1) ∧ ∀ I, Models conv w₀ I → I.Holds c.2

/-- What stays the same throughout a search. -/
structure Sought (w : Workspace) : Prop where
  catalog : w.catalog = w₀.catalog
  database : w.database = w₀.database
  tableOf : w.formulas.tableOf = some tables
  entries : w.formulas.entries.filter (·.label != decisionLabel) = w₀.formulas.entries
  once : w.formulas.entries.countP (·.label == decisionLabel) ≤ 1
  conflicts : ∀ c ∈ w.formulas.conflicts, Learned conv w₀ tables c
  nodup : (w.formulas.under.map Prod.fst).Nodup
  known : ∀ d ∈ w.formulas.under, d.1 ∈ tables.map Prod.snd

/-- The current decisions are what is asserted of them. -/
def Stated (fs : Formulas) : Prop :=
  ∀ f ∈ fs.entries, f.label = decisionLabel → f.term = .and (fs.under.flatMap fun (t, vec) ↦ vec.conditions t)

end

section

variable {conv : Conventions} {w₀ w : Workspace} {tables : List (Option String × Int)}

theorem holds_exclusion (I : Interpretation) (ds : List (Int × Choices)) :
    I.Holds (exclusion ds) ↔ ¬ ∀ d ∈ ds, Takes I d := by
  simp [exclusion, Takes]

theorem holds_decisions (I : Interpretation) (ds : List (Int × Choices)) :
    I.Holds (.and (ds.flatMap fun (t, vec) ↦ vec.conditions t)) ↔ ∀ d ∈ ds, Takes I d := by
  simp only [Interpretation.holds_and, mem_flatMap, forall_exists_index, and_imp, Takes]
  exact ⟨fun h d hd c hc ↦ h c d hd hc, fun h c d hd hc ↦ h d hd c hc⟩

namespace Sought

theorem mem_entries (h : Sought conv w₀ tables w) {f : Formula} (hf : f ∈ w.formulas.entries)
    (hl : f.label ≠ decisionLabel) : f ∈ w₀.formulas.entries := by
  rw [← h.entries]
  exact mem_filter.2 ⟨hf, by simpa using hl⟩

/-- Where all decisions are taken, all assertions hold in a model. -/
theorem holds_assertions (h : Sought conv w₀ tables w) (hs : Stated w.formulas) (hI : Models conv w₀ I)
    (ht : ∀ d ∈ w.formulas.under, Takes I d) : ∀ x ∈ assertions w.formulas, I.Holds x.2 := by
  intro x hx
  obtain hx | hx := mem_append.1 hx
  · obtain ⟨f, hf, rfl⟩ := mem_map.1 hx
    have hf := mem_of_mem_filter hf
    by_cases hl : f.label = decisionLabel
    · change I.Holds f.term
      rw [hs f hf hl, holds_decisions]
      exact ht
    · exact hI.2 f (h.mem_entries hf hl)
  · obtain ⟨-, -, -, -, -, hsound⟩ := h.conflicts x hx
    exact hsound I hI

/-- If all assertions contradict each other, then the formulas exclude the current decisions. -/
theorem excludes_all (h : Sought conv w₀ tables w) (hs : Stated w.formulas) {core : List String}
    (hcore : Inquiry.Contradicts conv (assertions w.formulas) core)
    (hI : Models conv w₀ I) : ¬ ∀ d ∈ w.formulas.under, Takes I d :=
  fun ht ↦ hcore I hI.1 fun x hx _ ↦ h.holds_assertions hs hI ht x hx

/-- If the assertions of a core contradict each other, then the formulas exclude those of the current
decisions that are about tables of the clauses of the core. The others can be taken in every model without
a change to what the core says. -/
theorem excludes_core (h : Sought conv w₀ tables w) (ho : Owned conv w₀ tables) (hs : Stated w.formulas)
    (hd : ∀ d ∈ w.formulas.under, Decided conv w₀ d) {core : List String} {lss : List (List String)}
    (hcore : Inquiry.Contradicts conv (assertions w.formulas) core) (hlss : core.mapM clausesOf = .ok lss)
    (hI : Models conv w₀ I) :
    ¬ ∀ d ∈ w.formulas.under, (∃ l ∈ lss.flatten, tables.lookup (some l) = some d.1) → Takes I d := by
  intro ht
  set J := redecide w.formulas.under I with hJ
  have hsame {id : Int} (hid : ∃ l ∈ lss.flatten, tables.lookup (some l) = some id) (i : Int) :
      J.choice id i = I.choice id i :=
    redecide_choice id (fun vec hv ↦ ht (id, vec) (mem_of_lookup hv) hid) i
  have hunknown {id : Int} (hid : id ∉ tables.map Prod.snd) (i : Int) : J.choice id i = I.choice id i :=
    redecide_choice id (fun vec hv ↦ absurd (h.known _ (mem_of_lookup hv)) hid) i
  have htakes {d : Int × Choices} (hmem : d ∈ w.formulas.under) : Takes J d := redecide_takes h.nodup hmem
  have hexpand {l : String} {ls : List String} (hl : l ∈ core) (hc : clausesOf l = .ok ls) : ls ∈ lss := by
    obtain ⟨ls', hmem, hls'⟩ := (Outcome.mem_mapM hlss).1 _ hl
    rw [hc] at hls'
    cases hls'
    exact hmem
  refine hcore J hI.1 fun x hx hname ↦ ?_
  obtain hx | hx := mem_append.1 hx
  · obtain ⟨f, hf, rfl⟩ := mem_map.1 hx
    have hf := mem_of_mem_filter hf
    change J.Holds f.term
    by_cases hl : f.label = decisionLabel
    · rw [hs f hf hl, holds_decisions]
      exact fun d hmem ↦ htakes hmem
    have hf₀ := h.mem_entries hf hl
    cases hclause : ofClause f.label with
    | true =>
      -- A clause looks at decisions about its own table only, which is one of the core.
      refine (redecide_holds (Term.Leaves.imp (fun u hu ↦ ?_) _ (ho.clause f hf₀ hclause))).2 (hI.2 f hf₀)
      cases u with
      | choice id i =>
        by_cases hid : id ∈ tables.map Prod.snd
        · have htable := hu hid
          have hnone := (ho.label f.label id htable).2.1
          have hls : clausesOf f.label = .ok [f.label] := by
            rw [clausesOf, if_neg (by simp [hnone])]
          exact hsame ⟨f.label, mem_flatten.2 ⟨_, hexpand hname hls, mem_singleton_self _⟩, htable⟩
        · exact hunknown hid
      | _ => trivial
    | false =>
      obtain hfree | ⟨id, place, n, hplace, hn, hsettled⟩ := ho.other f hf₀ hclause
      · refine (redecide_holds (Term.Leaves.imp (fun u hu ↦ ?_) _ hfree)).2 (hI.2 f hf₀)
        cases u with
        | choice id i => exact hunknown hu
        | _ => trivial
      · -- Either nothing changes for the table, or the decisions about it were read off a model.
        by_cases hout : ∃ vec, w.formulas.under.lookup id = some vec ∧
            ¬ ∃ l ∈ lss.flatten, tables.lookup (some l) = some id
        · obtain ⟨vec, hvec, -⟩ := hout
          have hmem := mem_of_lookup hvec
          obtain ⟨M, hM, hother, hread⟩ := hd _ hmem
          refine hsettled M J hM hI.1 (fun i hi ↦ ?_) (hother f hf₀ hclause)
          exact (takes_iff.1 (htakes hmem) i _ (hread place n hplace hn i hi)).symm
        · push Not at hout
          refine hsettled I J hI.1 hI.1 (fun i _ ↦ ?_) (hI.2 f hf₀)
          exact (redecide_choice id (fun vec hv ↦ ht (id, vec) (mem_of_lookup hv) (hout vec hv)) i).symm
  · obtain ⟨ds, ls, hterm, hls, hds, hsound⟩ := h.conflicts x hx
    have hIx := hsound I hI
    rw [hterm, holds_exclusion] at hIx ⊢
    refine fun htake ↦ hIx fun d hmem ↦ takes_iff.2 fun i v hv ↦ ?_
    obtain ⟨l, hl, htable⟩ := hds d hmem
    have := hsame ⟨l, mem_flatten.2 ⟨ls, hexpand hname hls, hl⟩, htable⟩ i
    rw [← this]
    exact takes_iff.1 (htake d hmem) i v hv

end Sought

end

/-! ## Learning -/

section

variable {conv : Conventions} {w₀ w : Workspace} {tables : List (Option String × Int)}

theorem exec_tableOfLabel (htables : w.formulas.tableOf = some tables) (label : String) :
    exec (tableOfLabel label) w = (match tables.lookup (some label) with
        | none => .ok none
        | some id =>
          match w.database.place? id with
          | some place => .ok (some place)
          | none => .error .absentKey, w) := by
  unfold tableOfLabel
  rw [exec_bind, exec_get]
  dsimp only
  rw [htables]
  dsimp only
  cases tables.lookup (some label) with
  | none => rfl
  | some id =>
    dsimp only [Workspace.placeOf]
    rw [exec_bind, exec_bind, exec_get]
    dsimp only
    cases w.database.place? id <;> rfl

theorem exec_table (place : Nat) : exec (Workspace.table place) w = (.ok (w.catalog.table place), w) := rfl

theorem exec_decisionsOf (h : Sought conv w₀ tables w) (ho : Owned conv w₀ tables) (labels : List String)
    (found : List (Int × Choices)) (hfound : (found.map Prod.fst).Nodup)
    (hunder : ∀ id vec, found.lookup id = some vec → w.formulas.under.lookup id = some vec) :
    match exec (decisionsOf labels found) w with
    | (.ok ds, w') => w' = w ∧ (ds.map Prod.fst).Nodup ∧ ∀ id vec, ds.lookup id = some vec ↔
        found.lookup id = some vec ∨
          w.formulas.under.lookup id = some vec ∧ ∃ l ∈ labels, tables.lookup (some l) = some id
    | (.error _, w') => w' = w := by
  induction labels generalizing found with
  | nil => exact ⟨rfl, hfound, fun id vec ↦ by simp⟩
  | cons l labels ih =>
    unfold decisionsOf
    rw [exec_bind, exec_tableOfLabel h.tableOf]
    cases hl : tables.lookup (some l) with
    | none =>
      have := ih found hfound hunder
      simp only [mem_cons, exists_eq_or_imp, hl, reduceCtorEq, false_or]
      exact this
    | some id =>
      dsimp only
      cases hplace : w.database.place? id with
      | none =>
        dsimp only
      | some place =>
        have hid : (w.catalog.table place).id = id := by
          rw [h.catalog]
          rw [h.database] at hplace
          exact ho.filed _ (mem_of_lookup hl) place hplace
        dsimp only
        rw [exec_bind, exec_table]
        dsimp only
        rw [exec_bind, exec_get]
        dsimp only
        rw [hid]
        cases hvec : w.formulas.under.lookup id with
        | none =>
          -- There is no decision about the table.
          have := ih found hfound hunder
          dsimp only
          rcases hr : exec (decisionsOf labels found) w with ⟨e | ds, w'⟩ <;> rw [hr] at this
          · exact this
          · obtain ⟨hw, hnodup, hds⟩ := this
            refine ⟨hw, hnodup, fun id' vec ↦ (hds id' vec).trans (or_congr_right (and_congr_right fun hu ↦ ?_))⟩
            rw [exists_mem_cons_iff, or_iff_right]
            intro h'
            rw [hl] at h'
            cases h'
            rw [hvec] at hu
            cases hu
        | some vec =>
          have hput (id' : Int) (v : Choices) : (put id vec found).lookup id' = some v ↔
              found.lookup id' = some v ∨ w.formulas.under.lookup id' = some v ∧ id = id' := by
            rw [lookup_put]
            by_cases he : id' = id
            · subst he
              rw [if_pos (beq_self_eq_true _), hvec]
              refine ⟨fun hv ↦ .inr ⟨hv, rfl⟩, fun hv ↦ hv.elim (fun hv ↦ ?_) (·.1)⟩
              rw [← hvec]
              exact hunder _ _ hv
            · rw [if_neg (by simpa using he)]
              exact ⟨.inl, fun hv ↦ hv.elim (·) fun hv ↦ absurd hv.2.symm he⟩
          have := ih (put id vec found) (nodup_put hfound)
            fun id' v hv ↦ ((hput id' v).1 hv).elim (hunder id' v) (·.1)
          dsimp only
          rcases hr : exec (decisionsOf labels (put id vec found)) w with ⟨e | ds, w'⟩ <;> rw [hr] at this
          · exact this
          · obtain ⟨hw, hnodup, hds⟩ := this
            refine ⟨hw, hnodup, fun id' v ↦ (hds id' v).trans ?_⟩
            rw [hput, exists_mem_cons_iff, hl, Option.some_inj, or_assoc, and_or_left]

theorem exec_decisionsOf_nil (h : Sought conv w₀ tables w) (ho : Owned conv w₀ tables) (labels : List String) :
    match exec (decisionsOf labels []) w with
    | (.ok ds, w') => w' = w ∧ ∀ d, d ∈ ds ↔ d ∈ w.formulas.under ∧ ∃ l ∈ labels, tables.lookup (some l) = some d.1
    | (.error _, w') => w' = w := by
  have := exec_decisionsOf h ho labels [] nodup_nil (by simp)
  rcases hr : exec (decisionsOf labels []) w with ⟨e | ds, w'⟩ <;> rw [hr] at this
  · exact this
  · obtain ⟨hw, hnodup, hds⟩ := this
    refine ⟨hw, fun d ↦ ?_⟩
    have hd := hds d.1 d.2
    rw [lookup_nil, or_iff_right (by simp)] at hd
    constructor
    · intro hmem
      obtain ⟨hl, hex⟩ := hd.1 (lookup_of_mem hnodup hmem)
      exact ⟨mem_of_lookup hl, hex⟩
    · rintro ⟨hmem, hex⟩
      exact mem_of_lookup (hd.2 ⟨lookup_of_mem h.nodup hmem, hex⟩)

/-- What is learned from contradicting clauses follows from the formulas, if these exclude the current
decisions about the tables of the clauses. Nothing else changes. -/
theorem exec_learn (h : Sought conv w₀ tables w) (ho : Owned conv w₀ tables) (core : List String)
    (hcore : ∀ I, Models conv w₀ I →
      ¬ ∀ d ∈ w.formulas.under, (∃ l ∈ core, tables.lookup (some l) = some d.1) → Takes I d) :
    ∃ conflicts conflictCount messages, (exec (learn core) w).2 =
        { w with formulas := { w.formulas with conflicts, conflictCount }, messages } ∧
      ∀ c ∈ conflicts, Learned conv w₀ tables c := by
  unfold learn
  rw [exec_bind]
  have := exec_decisionsOf_nil h ho core
  rcases hr : exec (decisionsOf core []) w with ⟨e | ds, w'⟩ <;> rw [hr] at this
  · subst this
    exact ⟨_, _, _, rfl, h.conflicts⟩
  · obtain ⟨rfl, hds⟩ := this
    refine ⟨(addConflict ds core w'.formulas).conflicts, (addConflict ds core w'.formulas).conflictCount,
      w'.messages ++ [⟨.debug, s!"new conflict learned: {decisionsText ds}, {labelListText core}"⟩], ?_,
      fun c hc ↦ ?_⟩
    · have hframe : addConflict ds core w'.formulas =
          { w'.formulas with
            conflicts := (addConflict ds core w'.formulas).conflicts
            conflictCount := (addConflict ds core w'.formulas).conflictCount } := by
        unfold addConflict
        split <;> rfl
      exact congrArg (fun fs : Formulas ↦ ({ w' with formulas := fs, messages := w'.messages ++ [⟨.debug,
        s!"new conflict learned: {decisionsText ds}, {labelListText core}"⟩] } : Workspace)) hframe
    · unfold addConflict at hc
      split at hc
      · exact h.conflicts c hc
      · obtain rfl | hc := mem_put hc
        · obtain ⟨ls, hls, hmem⟩ := clausesOf_conflictName (w'.formulas.conflictCount + 1) core
          refine ⟨ds, ls, rfl, hls, fun d hd ↦ ?_, fun I hI ↦ ?_⟩
          · obtain ⟨-, l, hl, htable⟩ := (hds d).1 hd
            obtain ⟨hclause, hnone, hamp⟩ := ho.label l d.1 htable
            exact ⟨l, hmem l hl hclause hnone hamp, htable⟩
          · rw [holds_exclusion]
            exact fun ht ↦ hcore I hI fun d hd hl ↦ ht d ((hds d).2 ⟨hd, hl⟩)
        · exact h.conflicts c hc

end

end Search

end QueryEquiv
