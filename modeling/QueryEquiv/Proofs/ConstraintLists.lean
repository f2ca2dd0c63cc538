import Mathlib
import QueryEquiv.Constraint.Reader

/-!
# Lists of constraints

A list of constraints is read piece by piece (`lists_read`): what stands on one side of a semicolon has no influence on
how the other side is read. A token stops at a semicolon unless it is in quotes, and in a text that can be read every
quote is closed (`Closed`); so a text that a semicolon follows has the readings that it has alone (`Extends`).
-/

namespace QueryEquiv.Constraint

open List Nat

/-- A text in which every quote is closed. -/
inductive Closed : List Char → Prop
  | nil : Closed []
  | other {c cs} : isQuote c = false → Closed cs → Closed (c :: cs)
  | quoted {q cs r} : isQuote q = true → afterQuote q cs = some r → Closed r → Closed (q :: cs)

variable {α β : Type} {cs r u tail : List Char} {n m : Nat}

theorem closed_quoted {q : Char} (hq : isQuote q = true) (h : afterQuote q cs = some r) :
    Closed r ↔ Closed (q :: cs) := by
  refine ⟨.quoted hq h, fun hc ↦ ?_⟩
  cases hc with
  | other hq' => simp [hq] at hq'
  | quoted _ h' hr => exact Option.some.inj (h'.symm.trans h) ▸ hr

theorem closed_cons {c : Char} (hc : isQuote c = false) : Closed r ↔ Closed (c :: r) := by
  refine ⟨.other hc, fun h ↦ ?_⟩
  cases h with
  | other _ h => exact h
  | quoted hq => simp [hc] at hq

theorem closed_append (hu : ∀ c ∈ u, isQuote c = false) : Closed r ↔ Closed (u ++ r) := by
  induction u with
  | nil => rfl
  | cons c u ih =>
    rw [forall_mem_cons] at hu
    exact (ih hu.2).trans (closed_cons hu.1)

/-! ## Blanks -/

theorem isQuote_of_isGap {c : Char} (h : isGap c = true) : isQuote c = false := by
  simp only [isGap, Bool.or_eq_true, beq_iff_eq] at h
  rcases h with (((rfl | rfl) | rfl) | rfl) | rfl <;> rfl

theorem closed_skipBlanks : Closed (skipBlanks cs) ↔ Closed cs := by
  conv_rhs => rw [← takeWhile_append_dropWhile (p := isGap) (l := cs)]
  exact closed_append fun c hc ↦ isQuote_of_isGap (mem_takeWhile_imp hc)

theorem skipBlanks_suffix : skipBlanks cs <:+ cs := dropWhile_suffix _

theorem skipBlanks_skipBlanks : skipBlanks (skipBlanks cs) = skipBlanks cs := dropWhile_idempotent ..

theorem skipBlanks_append : skipBlanks (cs ++ tail) = if skipBlanks cs = [] then skipBlanks tail else skipBlanks cs ++ tail := by
  simp [skipBlanks, dropWhile_append]

/-- What may follow a constraint: nothing, or a semicolon, after blanks. -/
def Ends (tail : List Char) : Prop := ∀ c ∈ (skipBlanks tail).head?, c = ';'

theorem Ends.head {c : Char} (h : Ends (c :: tail)) : isPlain c = false ∧ isQuote c = false := by
  rcases hgap : isGap c
  · obtain rfl := h c (by simp [skipBlanks, hgap])
    exact ⟨rfl, rfl⟩
  · exact ⟨by simp [isPlain, hgap], isQuote_of_isGap hgap⟩

theorem Ends.skipBlanks (h : Ends tail) : Ends (skipBlanks tail) := by rwa [Ends, skipBlanks_skipBlanks]

/-! ## Tokens -/

/-- A token is not empty, leaves no quote open, and is the same whatever follows the text. -/
structure Scans (a : List Char → Option (List Char)) : Prop where
  rest : ∀ {cs r}, a cs = some r → r <:+ cs ∧ r.length < cs.length ∧ (Closed r ↔ Closed cs)
  append : ∀ {cs tail}, Closed cs → Ends tail → a (cs ++ tail) = (a cs).map (· ++ tail)

theorem isPrefix_of_match {p : Text.Pattern} {u s : List Char} (h : p.match? cs = some (u, s)) : u <+: cs := by
  obtain ⟨rest, -, h⟩ := Option.map_eq_some_iff.1 h
  exact (Prod.mk.inj h).1 ▸ take_prefix ..

theorem scans_afterPlain (p : Text.Pattern) : Scans (afterPlain p) where
  rest {cs r} h := by
    rw [afterPlain] at h
    split at h
    · rename_i u s hu
      rw [Option.ite_none_left_eq_some, List.isEmpty_iff, Option.some.injEq] at h
      obtain ⟨hne, rfl⟩ := h
      have hplain := isPrefix_of_match hu
      have hcs := prefix_iff_eq_append.1 (hplain.trans ( takeWhile_prefix _))
      have hpos := length_pos_iff.2 hne
      have hlen := congrArg List.length hcs
      rw [length_append] at hlen
      refine ⟨drop_suffix .., by omega, ?_⟩
      conv_rhs => rw [← hcs]
      refine closed_append fun c hc ↦ ?_
      have := mem_takeWhile_imp (hplain.subset hc)
      simp_all [isPlain]
    · cases h
  append {cs tail} _ ht := by
    have htail : tail.takeWhile isPlain = [] := by
      rcases tail with _ | ⟨c, tail⟩
      · rfl
      · simp [ht.head.1]
    have hplain : (cs ++ tail).takeWhile isPlain = cs.takeWhile isPlain := by
      rw [takeWhile_append, htail, append_nil, ite_eq_right_iff]
      exact fun hlen ↦ (( takeWhile_prefix _).eq_of_length hlen).symm
    rw [afterPlain, afterPlain, hplain]
    split
    · rename_i u s hu
      have hle := ((isPrefix_of_match hu).trans ( takeWhile_prefix _)).length_le
      split
      · rfl
      · rw [drop_append_of_le_length hle, Option.map_some]
    · rfl

theorem afterQuote_some {q : Char} (h : afterQuote q cs = some r) :
    r <:+ cs ∧ r.length < cs.length ∧ ∀ tail, afterQuote q (cs ++ tail) = some (r ++ tail) := by
  fun_induction afterQuote q cs with
  | case1 | case3 | case4 | case6 => cases h
  | case2 cs =>
    obtain rfl := Option.some.inj h
    exact ⟨suffix_cons .., lt_succ_self _, fun tail ↦ by rw [cons_append, afterQuote.eq_def]; simp⟩
  | case5 c h₁ h₂ h₃ d cs h₄ ih =>
    obtain ⟨hsuffix, hlt, happend⟩ := ih h
    refine ⟨hsuffix.trans ((suffix_cons ..).trans (suffix_cons ..)), by grind, fun tail ↦ ?_⟩
    rw [cons_append, cons_append, afterQuote.eq_def]
    simp [*]
  | case7 c cs h₁ h₂ h₃ ih =>
    obtain ⟨hsuffix, hlt, happend⟩ := ih h
    refine ⟨hsuffix.trans (suffix_cons ..), by grind, fun tail ↦ ?_⟩
    rw [cons_append, afterQuote.eq_def]
    simp [*]

theorem scans_afterText : Scans afterText where
  rest {cs r} h := by
    rcases cs with _ | ⟨c, cs⟩
    · cases h
    · rw [afterText] at h
      split_ifs at h with hq hsingle
      · obtain ⟨hsuffix, hlt, -⟩ := afterQuote_some h
        exact ⟨hsuffix.trans (suffix_cons ..), lt_succ_of_lt hlt, closed_quoted hq h⟩
      · exact (scans_afterPlain _).rest h
  append {cs tail} hc ht := by
    rcases cs with _ | ⟨c, cs⟩
    · rcases tail with _ | ⟨c, tail⟩
      · rfl
      · simp only [nil_append, afterText, ht.head.2]
        exact (scans_afterPlain _).append .nil ht
    · rw [cons_append, afterText, afterText]
      rcases hq : isQuote c
      · exact (scans_afterPlain _).append hc ht
      · cases hc with
        | other hq' => simp [hq] at hq'
        | quoted _ hr _ =>
          obtain ⟨-, hlt, happend⟩ := afterQuote_some hr
          rw [head?_append_of_ne_nil _ (ne_nil_of_length_pos (zero_lt_of_lt hlt)), happend, hr]
          simp only [if_true]
          split <;> rfl

/-! ## Parsers -/

/-- `q` reads a text that something follows as `p` reads the text alone. -/
structure Extends (p q : Parser α) (cs : List Char) : Prop where
  rest : ∀ x ∈ (p cs).found, x.2 <:+ cs ∧ (Closed x.2 ↔ Closed cs)
  found : Closed cs → ∀ {tail}, Ends tail → (q (cs ++ tail)).found = (p cs).found.map fun x ↦ (x.1, x.2 ++ tail)

theorem found_bind {p : Parser α} {f : α → Parser β} :
    ((p >>= f) cs).found = (p cs).found.flatMap fun x ↦ (f x.1 x.2).found := by
  simp [bind, bindP, flatMap_map]

theorem found_anyOf {p : Parser α} {ps : List (Parser α)} : (anyOf (p :: ps) cs).found =
    (p cs).found ++ (anyOf ps cs).found.filter fun y ↦ !(p cs).found.any fun x ↦ y.2.length = x.2.length := rfl

theorem found_token {a : List Char → Option (List Char)} : (token a cs).found = ((a (skipBlanks cs)).map fun r ↦
    ((skipBlanks cs).take ((skipBlanks cs).length - r.length), r)).toList := by
  rw [token]
  split <;> simp [*]

theorem mem_token {a : List Char → Option (List Char)} {x : List Char × List Char} (h : x ∈ (token a cs).found) :
    a (skipBlanks cs) = some x.2 := by
  rw [found_token, Option.mem_toList, Option.map_eq_some_iff] at h
  obtain ⟨r, hr, rfl⟩ := h
  exact hr

theorem length_word {s : String} {x : Unit × List Char} (h : x ∈ (word s cs).found) : x.2.length < cs.length := by
  rw [word, found_bind] at h
  obtain ⟨y, hy, hx⟩ := mem_flatMap.1 h
  obtain rfl := mem_singleton.1 hx
  exact ((scans_afterPlain _).rest (mem_token hy)).2.1.trans_le skipBlanks_suffix.length_le

namespace Extends

theorem pure {a : α} : Extends (pure a) (pure a) cs where
  rest x hx := by
    obtain rfl := mem_singleton.1 hx
    exact ⟨suffix_rfl, .rfl⟩
  found _ _ _ := rfl

theorem bind {p q : Parser α} {f g : α → Parser β} (hp : Extends p q cs)
    (hf : ∀ x ∈ (p cs).found, Extends (f x.1) (g x.1) x.2) : Extends (p >>= f) (q >>= g) cs where
  rest y hy := by
    rw [found_bind] at hy
    obtain ⟨x, hx, hy⟩ := mem_flatMap.1 hy
    exact ⟨((hf x hx).rest y hy).1.trans (hp.rest x hx).1, ((hf x hx).rest y hy).2.trans (hp.rest x hx).2⟩
  found hc tail ht := by
    rw [found_bind, found_bind, hp.found hc ht, flatMap_map, map_flatMap]
    exact flatMap_congr fun x hx ↦ (hf x hx).found ((hp.rest x hx).2.2 hc) ht

theorem none : Extends (anyOf ([] : List (Parser α))) (anyOf []) cs where
  rest _ hx := nomatch hx
  found _ _ _ := rfl

theorem either {p q : Parser α} {ps qs : List (Parser α)} (h : Extends p q cs) (hs : Extends (anyOf ps) (anyOf qs) cs) :
    Extends (anyOf (p :: ps)) (anyOf (q :: qs)) cs where
  rest x hx := by
    rcases mem_append.1 hx with hx | hx
    · exact h.rest x hx
    · exact hs.rest x (mem_filter.1 hx).1
  found hc tail ht := by
    rw [found_anyOf, found_anyOf, h.found hc ht, hs.found hc ht, map_append, filter_map]
    simp [Function.comp_def]

theorem token {a : List Char → Option (List Char)} (ha : Scans a) : Extends (token a) (token a) cs where
  rest x hx := by
    obtain ⟨hsuffix, -, hclosed⟩ := ha.rest (mem_token hx)
    exact ⟨hsuffix.trans skipBlanks_suffix, hclosed.trans closed_skipBlanks⟩
  found hc tail ht := by
    rw [found_token, found_token, skipBlanks_append]
    split
    · rename_i hnil
      have hnone : a [] = Option.none := Option.eq_none_iff_forall_ne_some.2 fun r h ↦
        absurd (ha.rest h).2.1 (not_lt_zero _)
      have hstop := ha.append .nil (ht.skipBlanks)
      rw [nil_append, hnone] at hstop
      rw [hnil, hstop, hnone]
      rfl
    · rw [ha.append (closed_skipBlanks.2 hc) ht]
      rcases h : a (skipBlanks cs) with _ | r
      · rfl
      · simp [Nat.add_sub_add_right, take_append_of_le_length]

theorem plain {p : Text.Pattern} : Extends (Constraint.token (afterPlain p)) (Constraint.token (afterPlain p)) cs :=
  token (scans_afterPlain p)

theorem word {s : String} : Extends (word s) (word s) cs := plain.bind fun _ _ ↦ pure

theorem number : Extends number number cs := plain.bind fun _ _ ↦ pure

theorem date : Extends date date cs := plain.bind fun _ _ ↦ pure

theorem nullText : Extends nullText nullText cs := plain.bind fun _ _ ↦ pure

theorem text : Extends text text cs := (token scans_afterText).bind fun _ _ ↦ pure

theorem column : Extends column column cs := plain.bind fun _ _ ↦ word.bind fun _ _ ↦ plain.bind fun _ _ ↦ pure

theorem name : Extends (do return Written.name (← Constraint.column)) (do return .name (← Constraint.column)) cs :=
  column.bind fun _ _ ↦ pure

theorem value : Extends value value cs := name.either (number.either (date.either (text.either (nullText.either none))))

theorem item : Extends item item cs := text.either (number.either (nullText.either none))

theorem separated {p : Parser α} (hp : ∀ {cs}, Extends p p cs) (hn : cs.length < n) (hm : cs.length < m) :
    Extends (separated p n) (separated p m) cs := by
  induction n generalizing m cs with
  | zero => omega
  | succ n ih =>
    obtain ⟨m, rfl⟩ := exists_eq_succ_of_ne_zero (ne_zero_of_lt hm)
    refine hp.bind fun x hx ↦ pure.either (either (word.bind fun y hy ↦ ?_) none)
    have hle := (hp.rest x hx).1.length_le
    have hlt := length_word hy
    exact (ih (by omega) (by omega)).bind fun _ _ ↦ pure

theorem bracketed {p : Parser Written} (hp : ∀ {cs}, Extends p p cs) {a b : String} :
    Extends (bracketed p a b) (bracketed p a b) cs := by
  refine word.bind fun _ _ ↦ .bind (either ?_ (pure.either none)) fun _ _ ↦ word.bind fun _ _ ↦ pure
  refine ⟨(separated hp (lt_succ_self _) (lt_succ_self _)).rest, fun hc tail ht ↦ ?_⟩
  exact (separated hp (lt_succ_self _) (by rw [length_append]; omega)).found hc ht

theorem operator : Extends operator operator cs := by
  unfold Constraint.operator
  repeat' with_reducible first | exact none | apply either | exact word.bind fun _ _ ↦ pure

theorem bounds {p : Parser Written} (hp : ∀ {cs}, Extends p p cs) : Extends (bounds p) (bounds p) cs :=
  word.bind fun _ _ ↦ hp.bind fun _ _ ↦ word.bind fun _ _ ↦ hp.bind fun _ _ ↦ word.bind fun _ _ ↦ pure

theorem range : Extends range range cs := (bounds number).either ((bounds date).either none)

theorem statement : Extends statement statement cs := by
  unfold Constraint.statement
  repeat' with_reducible first
    | exact none | exact pure | exact plain | exact word | exact column | exact value | exact operator | exact range
    | exact bracketed item | exact bracketed name | apply either | refine bind ?_ fun _ _ ↦ ?_

end Extends

/-! ## Lists -/

/-- No semicolon stands at the end of a text, before blanks. -/
def Finished (cs : List Char) : Prop := ∀ v, ';' :: v <:+ cs → skipBlanks v ≠ []

variable {more ss : List Statement} {f : List Char → Option (List Statement)}

theorem following_some (h : following f cs = some ss) :
    skipBlanks cs = [] ∨ ∃ r, skipBlanks cs = ';' :: r ∧ (skipBlanks r = [] ∨ f (skipBlanks r) = some ss) := by
  rw [following] at h
  split at h
  · exact .inl ‹_›
  · refine .inr ⟨_, ‹_›, ?_⟩
    split at h
    · exact .inl (isEmpty_iff.1 ‹_›)
    · exact .inr h
  · cases h

/-- A text that can be read leaves no quote open. -/
theorem closed_of_statements (h : statements n cs = some ss) : Closed cs := by
  induction n generalizing cs ss with
  | zero => cases h
  | succ n ih =>
    obtain ⟨x, hx, hss⟩ := exists_of_findSome?_eq_some h
    obtain ⟨more, hmore, -⟩ := Option.map_eq_some_iff.1 hss
    refine (Extends.statement.rest x hx).2.1 (closed_skipBlanks.1 ?_)
    rcases following_some hmore with hnil | ⟨r, hr, hnil | hr'⟩
    · exact hnil ▸ .nil
    · exact hr ▸ .other rfl (closed_skipBlanks.1 (hnil ▸ .nil))
    · exact hr ▸ .other rfl (closed_skipBlanks.1 (ih hr'))

/-- What follows a constraint is read as more constraints. -/
def Continues (tail : List Char) (more : List Statement) : Prop :=
  ∀ k, tail.length ≤ k → following (statements k) tail = some more

theorem Continues.ends (h : Continues tail more) : Ends tail := by
  rcases following_some (h _ le_rfl) with hnil | ⟨r, hr, -⟩ <;> simp_all [Ends]

theorem statements_append (hc : Closed cs) (hfin : Finished cs) (ht : Continues tail more) (hn : cs.length < n)
    (hm : (cs ++ tail).length < m) : statements m (cs ++ tail) = (statements n cs).map (· ++ more) := by
  -- The two readings have fuel of their own, and each needs only more than there is text.
  induction n generalizing m cs with
  | zero => omega
  | succ n ih =>
    obtain ⟨m, rfl⟩ := exists_eq_succ_of_ne_zero (ne_zero_of_lt hm)
    rw [length_append] at hm
    rw [statements, statements, Extends.statement.found hc ht.ends, findSome?_map, map_findSome?,
      ← head?_filterMap, ← head?_filterMap]
    refine congrArg head? (filterMap_congr fun x hx ↦ ?_)
    obtain ⟨hsuffix, hclosed⟩ := Extends.statement.rest x hx
    have hle := hsuffix.length_le
    -- The first constraint is the same, so what follows it decides which of its readings is kept.
    suffices following (statements m) (x.2 ++ tail) = (following (statements n) x.2).map (· ++ more) by
      simp [this, Function.comp_def]
    rw [following, following, skipBlanks_append]
    rcases hskip : skipBlanks x.2 with _ | ⟨c, r⟩
    · exact ht m (by omega)
    · have hr : c :: r <:+ x.2 := hskip ▸ skipBlanks_suffix
      by_cases hsemi : c = ';'
      · subst hsemi
        have hrest : skipBlanks r <:+ r := skipBlanks_suffix
        have hlen := hrest.length_le.trans_lt hr.length_le
        have hc' : Closed r := (closed_cons rfl).2 (hskip ▸ closed_skipBlanks.2 (hclosed.2 hc))
        have hfin' : Finished (skipBlanks r) := fun v hv ↦
          hfin v (hv.trans (hrest.trans ((suffix_cons ..).trans (hr.trans hsuffix))))
        have hmore := ih (m := m) (closed_skipBlanks.2 hc') hfin' (by omega) (by rw [length_append]; omega)
        simp [skipBlanks_append, hfin r (hr.trans hsuffix), hmore]
      · simp [hsemi]

theorem read_ok_iff {t : String} {cs : List Constraint} : read t = .ok cs ↔
    ∃ ss, statements (t.length + 1) (skipBlanks t.toList) = some ss ∧ ss.mapM Statement.meaning = .ok cs := by
  rw [read]
  rcases statements (t.length + 1) (skipBlanks t.toList) with _ | ss
  · simp only [reduceCtorEq, false_and, exists_false, iff_false]
    split <;> simp
  · rcases hm : ss.mapM Statement.meaning <;> simp [hm]

/-- What follows the first of several texts: the others, each after a semicolon, and perhaps a semicolon at the end,
with blanks around the semicolons. -/
inductive Follows : List String → List Char → Prop
  | nothing (b) : (∀ c ∈ b, isGap c = true) → Follows [] b
  | semicolon (b b') : (∀ c ∈ b, isGap c = true) → (∀ c ∈ b', isGap c = true) → Follows [] (b ++ ';' :: b')
  | text (b b' t) {ts tail} : (∀ c ∈ b, isGap c = true) → (∀ c ∈ b', isGap c = true) → Follows ts tail →
      Follows (t :: ts) (b ++ ';' :: (b' ++ (t.toList ++ tail)))

theorem statement_nil : (statement []).found = [] := isEmpty_iff.1 (by decide +kernel)

/-- A text is read as it is alone, and what follows after it. -/
theorem statements_text {t : String} {cs : List Constraint} (hread : read t = .ok cs) (hfin : Finished t.toList)
    (ht : Continues tail more) : ∃ ss, ss.mapM Statement.meaning = .ok cs ∧ skipBlanks (t.toList ++ tail) ≠ [] ∧
      ∀ k, (t.toList ++ tail).length < k → statements k (skipBlanks (t.toList ++ tail)) = some (ss ++ more) := by
  obtain ⟨ss, hss, hmeaning⟩ := read_ok_iff.1 hread
  have hne : skipBlanks t.toList ≠ [] := fun h ↦ by simp [h, statements, statement_nil] at hss
  have hrest : skipBlanks t.toList <:+ t.toList := skipBlanks_suffix
  have hle := hrest.length_le
  rw [skipBlanks_append, if_neg hne]
  refine ⟨ss, hmeaning, by simp [hne], fun k hk ↦ ?_⟩
  rw [length_append] at hk
  rw [statements_append (n := t.length + 1) (closed_of_statements hss) (fun v hv ↦ hfin v (hv.trans hrest)) ht
    (by rw [← String.length_toList]; omega) (by rw [length_append]; omega), hss, Option.map_some]

theorem following_semicolon {b : List Char} (hb : ∀ c ∈ b, isGap c = true) : following f (b ++ ';' :: cs) =
    if (skipBlanks cs).isEmpty then some [] else f (skipBlanks cs) := by
  rw [following, skipBlanks, dropWhile_append_of_pos hb]
  rfl

theorem mapM_meaning_append {cs cs' : List Constraint} (h : ss.mapM Statement.meaning = .ok cs)
    (h' : more.mapM Statement.meaning = .ok cs') : (ss ++ more).mapM Statement.meaning = .ok (cs ++ cs') := by
  rw [mapM_append, h, h']
  rfl

theorem Follows.continues {ts : List String} {parts : List (List Constraint)} (h : Follows ts tail)
    (hread : List.Forall₂ (fun t cs ↦ read t = .ok cs) ts parts) (hend : ∀ u ∈ ts, Finished u.toList) :
    ∃ more, Continues tail more ∧ more.mapM Statement.meaning = .ok parts.flatten := by
  induction h generalizing parts with
  | nothing b hb =>
    cases hread
    refine ⟨[], fun k _ ↦ ?_, rfl⟩
    rw [following, skipBlanks, dropWhile_eq_nil_iff.2 hb]
  | semicolon b b' hb hb' =>
    cases hread
    refine ⟨[], fun k _ ↦ ?_, rfl⟩
    rw [following_semicolon hb, skipBlanks, dropWhile_eq_nil_iff.2 hb']
    rfl
  | text b b' t hb hb' _ ih =>
    rcases hread with _ | ⟨hfirst, hread⟩
    rw [forall_mem_cons] at hend
    obtain ⟨more, hmore, hmeaning⟩ := ih hread hend.2
    obtain ⟨ss, hss, hne, hk⟩ := statements_text hfirst hend.1 hmore
    refine ⟨ss ++ more, fun k hlen ↦ ?_, mapM_meaning_append hss hmeaning⟩
    simp only [length_append, length_cons] at hlen
    rw [following_semicolon hb, skipBlanks, dropWhile_append_of_pos hb', ← skipBlanks,
      if_neg (by simpa using hne), hk k (by rw [length_append]; omega)]

/-- A list is read piece by piece: texts that can be read, none with a semicolon at its end, are read together as their
constraints in order, whatever blanks stand around the semicolons and whether or not there is one at the end. -/
theorem lists_read {t : String} {ts : List String} {parts : List (List Constraint)} (htail : Follows ts tail)
    (hread : List.Forall₂ (fun t cs ↦ read t = .ok cs) (t :: ts) parts) (hend : ∀ u ∈ t :: ts, Finished u.toList) :
    read (String.ofList (t.toList ++ tail)) = .ok parts.flatten := by
  rcases hread with _ | ⟨hfirst, hread⟩
  rw [forall_mem_cons] at hend
  obtain ⟨more, hmore, hmeaning⟩ := htail.continues hread hend.2
  obtain ⟨ss, hss, hne, hk⟩ := statements_text hfirst hend.1 hmore
  refine read_ok_iff.2 ⟨ss ++ more, ?_, mapM_meaning_append hss hmeaning⟩
  rw [String.toList_ofList, String.length_ofList]
  exact hk _ (lt_succ_self _)

theorem twoConstraints_read : read (String.ofList ("a.b = 1".toList ++ " ; c.d = 2;".toList)) =
    .ok [.comparison "equal" (.str "a.b") (.int 1), .comparison "equal" (.str "c.d") (.int 2)] := by
  have htail : Follows ["c.d = 2"] " ; c.d = 2;".toList :=
    .text [' '] [' '] _ (by simp [isGap]) (by simp [isGap]) (.semicolon [] [] (by simp) (by simp))
  have hread : Forall₂ (fun t cs ↦ read t = .ok cs) ["a.b = 1", "c.d = 2"]
      [[.comparison "equal" (.str "a.b") (.int 1)], [.comparison "equal" (.str "c.d") (.int 2)]] :=
    .cons (by cbv) (.cons (by cbv) .nil)
  have hnone : ∀ u ∈ ["a.b = 1", "c.d = 2"], ';' ∉ u.toList := by decide
  exact lists_read htail hread fun u hu v hv ↦ absurd (hv.subset mem_cons_self) (hnone u hu)

/-- Neither an empty constraint nor a vertical tab is read. -/
theorem emptyConstraint_refused : (read "a.b = 1; ").isOk = true ∧ (read "c.d = 2").isOk = true ∧
    (read "a.b = 1; ;c.d = 2").isOk = false ∧ (read "a.b = 1\x0b;c.d = 2").isOk = false := by
  decide +kernel

end QueryEquiv.Constraint
