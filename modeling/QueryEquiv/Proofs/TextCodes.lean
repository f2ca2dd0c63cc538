import QueryEquiv.Proofs.Conflicts
import QueryEquiv.Search.Model

/-!
# Codes of texts and texts of codes

Texts are coded one after the other, and what is known afterwards depends only on which texts were coded and in
which order they came first (`Codes.Knows`): a text has the code that it has by itself, and a code has the last of
its texts. So a code is read back as the text that it was made for unless another text with the same code came
later. As long as hashes do not collide, these are the spellings of a number (`code_eq_iff_spellings`).

A code that no text has is shown as one of the known texts with the code behind it. Nothing keeps these texts apart
from the known ones or from each other: two codes are shown alike just if the first digits of one of them, behind
the text that it is shown by, make the text that the other is shown by (`shownAlike_iff_overlap`).
-/

namespace QueryEquiv

open Text Option String

namespace Codes

def after (ss : List String) : Codes := ss.foldl (fun codes s ↦ (codes.encode s).2) {}

theorem after_concat (ss : List String) (s : String) : after (ss ++ [s]) = ((after ss).encode s).2 := by
  rw [after, List.foldl_append]
  rfl

theorem putText_eq (c : Int) (s : String) (l : List (Int × String)) : putText c s l = Formulas.put c s l := by
  induction l with
  | nil => rfl
  | cons e l ih => rw [putText, Formulas.put, ih]

theorem lookup_putText (c d : Int) (s : String) (l : List (Int × String)) :
    (putText c s l).lookup d = if d = c then some s else l.lookup d := by
  simp only [putText_eq, Formulas.lookup_put, beq_iff_eq]

theorem mem_putText {c : Int} {s : String} {l : List (Int × String)} {e : Int × String} (h : e ∈ putText c s l) :
    e.2 = s ∨ e ∈ l := by
  rw [putText_eq] at h
  exact (Formulas.mem_put h).imp_left (congrArg Prod.snd)

/-! ## Coding one text after the other -/

/-- Of the texts that have a code, the one that came first at the latest. -/
structure Latest (ss : List String) (c : Int) (s : String) : Prop where
  mem : s ∈ ss
  code : intrinsic s = c
  last : ∀ t ∈ ss, intrinsic t = c → ss.idxOf t ≤ ss.idxOf s

section Concat

variable {ss : List String} {s t : String} {c : Int}

/-- A text that came before does not count when it comes again, and the texts of other codes are as they were. -/
theorem latest_concat (h : s ∈ ss ∨ c ≠ intrinsic s) : Latest (ss ++ [s]) c t ↔ Latest ss c t := by
  have hmem {u : String} (hu : intrinsic u = c) : u ∈ ss ++ [s] ↔ u ∈ ss := by
    rw [List.mem_append, List.mem_singleton, or_iff_left_iff_imp]
    rintro rfl
    exact h.resolve_right (not_not.2 hu.symm)
  have hidx {u : String} (hu : u ∈ ss) : (ss ++ [s]).idxOf u = ss.idxOf u := List.idxOf_append_of_mem hu
  constructor
  · rintro ⟨ht, hcode, hlast⟩
    rw [hmem hcode] at ht
    refine ⟨ht, hcode, fun u hu hcode ↦ ?_⟩
    rw [← hidx hu, ← hidx ht]
    exact hlast u ((hmem hcode).2 hu) hcode
  · rintro ⟨ht, hcode, hlast⟩
    refine ⟨(hmem hcode).2 ht, hcode, fun u hu hcode ↦ ?_⟩
    rw [hmem hcode] at hu
    rw [hidx hu, hidx ht]
    exact hlast u hu hcode

/-- A text that comes for the first time is the latest one of its code. -/
theorem latest_concat_self (hs : s ∉ ss) : Latest (ss ++ [s]) (intrinsic s) t ↔ t = s := by
  have hidx : (ss ++ [s]).idxOf s = ss.length := by
    rw [List.idxOf_append_of_notMem hs, List.idxOf_cons_self, add_zero]
  have hle {u : String} (hu : u ∈ ss ++ [s]) : (ss ++ [s]).idxOf u ≤ ss.length := by
    have := List.idxOf_lt_length_of_mem hu
    rw [List.length_append, List.length_singleton] at this
    omega
  constructor
  · rintro ⟨ht, -, hlast⟩
    have heq : (ss ++ [s]).idxOf t = (ss ++ [s]).idxOf s := le_antisymm (hidx ▸ hle ht) (hlast s (by simp) rfl)
    exact (List.idxOf_inj ht).1 heq
  · rintro rfl
    exact ⟨by simp, rfl, fun u hu _ ↦ hidx ▸ hle hu⟩

end Concat

/-- What is known after texts were coded one after the other. -/
structure Knows (codes : Codes) (ss : List String) : Prop where
  ofText : ∀ s, codes.ofText.lookup s = if s ∈ ss then some (intrinsic s) else none
  toText : ∀ c s, codes.toText.lookup c = some s ↔ Latest ss c s
  unknown : ∀ c, codes.toText.lookup c = none ↔ ∀ s ∈ ss, intrinsic s ≠ c
  texts : ∀ e ∈ codes.toText, e.2 ∈ ss

namespace Knows

variable {codes : Codes} {ss : List String}

theorem encode_fst (h : codes.Knows ss) (s : String) : (codes.encode s).1 = intrinsic s := by
  unfold encode
  rw [h.ofText]
  by_cases hs : s ∈ ss <;> simp [hs]

/-- A text that came before is found again. -/
theorem encode_of_mem (h : codes.Knows ss) {s : String} (hs : s ∈ ss) : (codes.encode s).2.Knows (ss ++ [s]) := by
  have hmem (t : String) : t ∈ ss ++ [s] ↔ t ∈ ss := by
    rw [List.mem_append, List.mem_singleton, or_iff_left_iff_imp]
    rintro rfl
    exact hs
  have hsame : (codes.encode s).2 = codes := by
    unfold encode
    rw [h.ofText, if_pos hs]
  rw [hsame]
  refine ⟨fun t ↦ ?_, fun c t ↦ ?_, fun c ↦ ?_, fun e he ↦ (hmem _).2 (h.texts e he)⟩
  · rw [h.ofText, if_congr (hmem t) rfl rfl]
  · rw [h.toText, latest_concat (.inl hs)]
  · simp only [h.unknown, hmem]

/-- A new text takes its code over. -/
theorem encode_of_notMem (h : codes.Knows ss) {s : String} (hs : s ∉ ss) : (codes.encode s).2.Knows (ss ++ [s]) := by
  have hnew : (codes.encode s).2 =
      ⟨codes.ofText ++ [(s, intrinsic s)], putText (intrinsic s) s codes.toText⟩ := by
    unfold encode
    rw [h.ofText, if_neg hs]
  rw [hnew]
  refine ⟨fun t ↦ ?_, fun c t ↦ ?_, fun c ↦ ?_, fun e he ↦ ?_⟩
  · rw [List.lookup_append, h.ofText, List.lookup_cons]
    by_cases hts : t = s
    · simp [hts, hs]
    · by_cases ht : t ∈ ss <;> simp [ht, hts, beq_false_of_ne hts]
  · rw [lookup_putText]
    by_cases hc : c = intrinsic s
    · rw [if_pos hc, hc, latest_concat_self hs, some_inj, eq_comm]
    · rw [if_neg hc, h.toText, latest_concat (.inr hc)]
  · rw [lookup_putText]
    by_cases hc : c = intrinsic s
    · simp [hc]
    · rw [if_neg hc, h.unknown]
      simp [or_imp, forall_and, Ne.symm hc]
  · rcases mem_putText he with he | he
    · simp [he]
    · exact List.mem_append_left _ (h.texts e he)

end Knows

theorem knows_after (ss : List String) : (after ss).Knows ss := by
  induction ss using List.reverseRecOn with
  | nil =>
    refine ⟨fun s ↦ rfl, fun c s ↦ iff_of_false (by simp [after]) fun h ↦ ?_, fun c ↦ by simp [after],
      fun e he ↦ by simp [after] at he⟩
    exact List.not_mem_nil h.mem
  | append_singleton ss s ih =>
    rw [after_concat]
    by_cases hs : s ∈ ss
    · exact ih.encode_of_mem hs
    · exact ih.encode_of_notMem hs

/-! ## Spellings of a number -/

theorem decode_of_lookup {codes : Codes} {c : Int} {s : String} (h : codes.toText.lookup c = some s) :
    codes.decode c = s := by
  unfold decode
  rw [h]

/-- The code of a text that was coded is read back as the text just if no text with this code came later. -/
theorem decode_after_eq_iff {ss : List String} {s : String} (hs : s ∈ ss) :
    (after ss).decode (intrinsic s) = s ↔ ∀ t ∈ ss, intrinsic t = intrinsic s → ss.idxOf t ≤ ss.idxOf s := by
  have hknows := knows_after ss
  cases hlookup : (after ss).toText.lookup (intrinsic s) with
  | none => exact absurd rfl ((hknows.unknown _).1 hlookup s hs)
  | some t =>
    have ht := (hknows.toText _ t).1 hlookup
    rw [decode_of_lookup hlookup]
    constructor
    · rintro rfl
      exact ht.last
    · intro hlast
      have hlatest : Latest ss (intrinsic s) s := ⟨hs, rfl, hlast⟩
      exact some_inj.1 (hlookup.symm.trans ((hknows.toText _ s).2 hlatest))

/-- Of different texts, the hashes of those that are hashed are not the codes of others. -/
def HashesApart (ss : List String) : Prop :=
  ∀ s ∈ ss, ∀ t ∈ ss, s ≠ t → Text.readInt? s = none → Text.signedHash s ≠ intrinsic t

/-- Where hashes are apart, only the spellings of a number share a code. -/
theorem intrinsic_eq_iff {ss : List String} (apart : HashesApart ss) {s t : String} (hs : s ∈ ss) (ht : t ∈ ss)
    (hst : s ≠ t) : intrinsic s = intrinsic t ↔ ∃ n, readInt? s = some n ∧ readInt? t = some n := by
  have hread {u : String} {n : Int} (hu : readInt? u = some n) : intrinsic u = n := by
    rw [intrinsic, hu, getD_some]
  have hhash {u : String} (hu : readInt? u = none) : intrinsic u = signedHash u := by
    rw [intrinsic, hu, getD_none]
  constructor
  · intro heq
    cases hn : readInt? s with
    | none => exact absurd ((hhash hn).symm.trans heq) (apart s hs t ht hst hn)
    | some n =>
      cases hm : readInt? t with
      | none => exact absurd ((hhash hm).symm.trans heq.symm) (apart t ht s hs hst.symm hm)
      | some m =>
        rw [hread hn, hread hm] at heq
        exact ⟨n, rfl, congrArg some heq.symm⟩
  · rintro ⟨n, hn, hm⟩
    rw [hread hn, hread hm]

end Codes

open Codes (after)

/-- A text has the same code whenever it is coded. Where hashes are apart, two of the texts that were coded have the
same code just if they are spellings of one number, and the code of a text is read back as the text just if no other
spelling of its number came later. -/
theorem code_eq_iff_spellings {ss : List String} (apart : Codes.HashesApart ss) :
    (∀ us s, ((after us).encode s).1 = Codes.intrinsic s) ∧
    (∀ s ∈ ss, ∀ t ∈ ss, s ≠ t →
      (Codes.intrinsic s = Codes.intrinsic t ↔ ∃ n, Text.readInt? s = some n ∧ Text.readInt? t = some n)) ∧
    ∀ s ∈ ss, (after ss).decode (Codes.intrinsic s) = s ↔ ∀ t ∈ ss, s ≠ t →
      (∃ n, Text.readInt? s = some n ∧ Text.readInt? t = some n) → ss.idxOf t < ss.idxOf s := by
  refine ⟨fun us s ↦ (Codes.knows_after us).encode_fst s, fun s hs t ht ↦ Codes.intrinsic_eq_iff apart hs ht,
    fun s hs ↦ ?_⟩
  rw [Codes.decode_after_eq_iff hs]
  refine forall_congr' fun t ↦ forall_congr' fun ht ↦ ?_
  by_cases hst : s = t
  · simp [hst]
  · have hidx : ss.idxOf t ≠ ss.idxOf s := fun h ↦ hst ((List.idxOf_inj ht).1 h).symm
    rw [eq_comm, Codes.intrinsic_eq_iff apart hs ht hst]
    exact ⟨fun h _ hn ↦ lt_of_le_of_ne (h hn) hidx, fun h hn ↦ (h hst hn).le⟩

/-- Of two spellings of one, the later one is the text of the code. -/
theorem spellings_of_one :
    (∀ us s, ((after us).encode s).1 = Codes.intrinsic s) ∧
    (∀ s ∈ ["1", "one", "01"], ∀ t ∈ ["1", "one", "01"], s ≠ t →
      (Codes.intrinsic s = Codes.intrinsic t ↔ ∃ n, Text.readInt? s = some n ∧ Text.readInt? t = some n)) ∧
    ∀ s ∈ ["1", "one", "01"], (after ["1", "one", "01"]).decode (Codes.intrinsic s) = s ↔
      ∀ t ∈ ["1", "one", "01"], s ≠ t → (∃ n, Text.readInt? s = some n ∧ Text.readInt? t = some n) →
        ["1", "one", "01"].idxOf t < ["1", "one", "01"].idxOf s :=
  code_eq_iff_spellings (by unfold Codes.HashesApart; decide +kernel)

/-! ## Codes that are shown alike -/

namespace Text

theorem toString_ne_empty (n : Int) : toString n ≠ "" := by
  cases n with
  | ofNat n => exact Nat.repr_ne_empty
  | negSucc n =>
    change "-" ++ n.succ.repr ≠ ""
    simp

/-- Two texts that are put together alike overlap. -/
theorem append_eq_append_iff {s t x y : String} :
    s ++ x = t ++ y ↔ (∃ u, t = s ++ u ∧ x = u ++ y) ∨ ∃ u, s = t ++ u ∧ y = u ++ x := by
  constructor
  · intro h
    have hlists : s.toList ++ x.toList = t.toList ++ y.toList := by
      rw [← toList_append, h, toList_append]
    refine (List.append_eq_append_iff.1 hlists).imp ?_ ?_ <;>
    · rintro ⟨us, hst, hxy⟩
      exact ⟨.ofList us, toList_inj.1 (by simp [hst]), toList_inj.1 (by simp [hxy])⟩
  · rintro (⟨u, rfl, rfl⟩ | ⟨u, rfl, rfl⟩) <;> rw [append_assoc]

end Text

namespace Codes

/-- The text that a code is shown by, and what is put behind it: a known code is shown by its own text, any other
one by the known text that it picks, with its digits. -/
def shown (codes : Codes) (c : Int) : String × String :=
  match codes.toText.lookup c with
  | some s => (s, "")
  | none => (((codes.toText.map (·.2))[(c.fmod codes.toText.length).toNat]?).getD "", toString c)

/-- Some of the digits that are put behind the text of one code belong to the text that another is shown by. -/
def Overlap (codes : Codes) (a b : Int) : Prop :=
  ∃ digits, digits ≠ "" ∧ (codes.shown b).1 = (codes.shown a).1 ++ digits ∧
    (codes.shown a).2 = digits ++ (codes.shown b).2

variable {codes : Codes} {ss : List String} {a b c : Int} {s : String}

theorem shown_of_lookup (h : codes.toText.lookup c = some s) : codes.shown c = (s, "") := by
  unfold shown
  rw [h]

theorem shown_snd_of_unknown (h : codes.toText.lookup c = none) : (codes.shown c).2 = toString c := by
  unfold shown
  rw [h]

theorem decode_eq_shown (codes : Codes) (c : Int) : codes.decode c = (codes.shown c).1 ++ (codes.shown c).2 := by
  unfold decode shown
  cases codes.toText.lookup c with
  | some s => simp
  | none =>
    simp only [List.length_map]
    cases (codes.toText.map (·.2))[(c.fmod codes.toText.length).toNat]? <;> simp

namespace Knows

/-- A code is told by the two parts that it is shown in. -/
theorem shown_injective (h : codes.Knows ss) : Function.Injective codes.shown := by
  intro a b hab
  cases ha : codes.toText.lookup a with
  | some s =>
    rw [shown_of_lookup ha] at hab
    cases hb : codes.toText.lookup b with
    | some t =>
      rw [shown_of_lookup hb] at hab
      obtain rfl : s = t := congrArg Prod.fst hab
      rw [← ((h.toText a s).1 ha).code, ((h.toText b s).1 hb).code]
    | none => exact absurd ((congrArg Prod.snd hab).trans (shown_snd_of_unknown hb)).symm (toString_ne_empty b)
  | none =>
    have hab := congrArg Prod.snd hab
    rw [shown_snd_of_unknown ha] at hab
    cases hb : codes.toText.lookup b with
    | some t => exact absurd (hab.trans (congrArg Prod.snd (shown_of_lookup hb))) (toString_ne_empty a)
    | none => exact Int.repr_injective (hab.trans (shown_snd_of_unknown hb))

theorem decode_eq_decode_iff (h : codes.Knows ss) (hab : a ≠ b) :
    codes.decode a = codes.decode b ↔ codes.Overlap a b ∨ codes.Overlap b a := by
  -- If nothing overlaps, both parts are the same.
  have hne {x y : Int} (hxy : x ≠ y) {u : String} (hfst : (codes.shown y).1 = (codes.shown x).1 ++ u)
      (hsnd : (codes.shown x).2 = u ++ (codes.shown y).2) : u ≠ "" := by
    rintro rfl
    rw [append_empty] at hfst
    rw [empty_append] at hsnd
    exact hxy (h.shown_injective (Prod.ext hfst.symm hsnd))
  rw [decode_eq_shown, decode_eq_shown, append_eq_append_iff]
  refine or_congr ⟨?_, ?_⟩ ⟨?_, ?_⟩
  · rintro ⟨u, hfst, hsnd⟩
    exact ⟨u, hne hab hfst hsnd, hfst, hsnd⟩
  · rintro ⟨u, -, hfst, hsnd⟩
    exact ⟨u, hfst, hsnd⟩
  · rintro ⟨u, hfst, hsnd⟩
    exact ⟨u, hne hab.symm hfst hsnd, hfst, hsnd⟩
  · rintro ⟨u, -, hfst, hsnd⟩
    exact ⟨u, hfst, hsnd⟩

/-- A code is shown by one of the texts that were coded, if there are any. -/
theorem shown_fst_mem (h : codes.Knows ss) (hne : codes.toText ≠ []) (c : Int) : (codes.shown c).1 ∈ ss := by
  cases hc : codes.toText.lookup c with
  | some s =>
    rw [shown_of_lookup hc]
    exact ((h.toText c s).1 hc).mem
  | none =>
    have hpos : (0 : Int) < codes.toText.length := by exact_mod_cast List.length_pos_iff.2 hne
    have hlt : (c.fmod codes.toText.length).toNat < (codes.toText.map (·.2)).length := by
      have := Int.fmod_nonneg_of_pos c hpos
      have := Int.fmod_lt_of_pos c hpos
      rw [List.length_map]
      omega
    unfold shown
    rw [hc]
    dsimp only
    rw [List.getElem?_eq_getElem hlt, getD_some]
    obtain ⟨e, he, heq⟩ := List.mem_map.1 (List.getElem_mem hlt)
    exact heq ▸ h.texts e he

end Knows

/-- No text is another one with nothing but digits and signs behind it. -/
def Unextended (ss : List String) : Prop :=
  ∀ s ∈ ss, ∀ t ∈ ss, ∀ u, t = s ++ u → u ≠ "" → ∃ x ∈ u.toList, x.isDigit = false ∧ x ≠ '-'

/-- What overlaps is made of the digits of a code. -/
theorem Knows.not_overlap (h : codes.Knows ss) (hss : Unextended ss) : ¬ codes.Overlap a b := by
  rintro ⟨u, hu, hfst, hsnd⟩
  by_cases hne : codes.toText = []
  · have hempty (c : Int) : (codes.shown c).1 = "" := by simp [shown, hne]
    rw [hempty, hempty, empty_append] at hfst
    exact hu hfst.symm
  · obtain ⟨x, hx, hdigit, hsign⟩ := hss _ (h.shown_fst_mem hne a) _ (h.shown_fst_mem hne b) u hfst hu
    have hmem : x ∈ (codes.shown a).2.toList := by
      rw [hsnd, toList_append]
      exact List.mem_append_left _ hx
    cases ha : codes.toText.lookup a with
    | some s =>
      rw [shown_of_lookup ha] at hmem
      simp at hmem
    | none =>
      rw [shown_snd_of_unknown ha] at hmem
      exact notMem_toString ⟨hdigit, hsign⟩ a hmem

end Codes

/-- Two different codes in columns of texts are shown alike just if they overlap: the first digits of one of them,
behind the text that it is shown by, make the text that the other is shown by. They never do if none of the texts that
were coded is another one with digits behind it. -/
theorem shownAlike_iff_overlap (ss : List String) {type : String} (htype : type = "varchar" ∨ type = "text")
    {a b : Int} (hab : a ≠ b) :
    (Search.decode (after ss) type a = Search.decode (after ss) type b ↔
      (after ss).Overlap a b ∨ (after ss).Overlap b a) ∧
    (Codes.Unextended ss → Search.decode (after ss) type a ≠ Search.decode (after ss) type b) := by
  have hknows := Codes.knows_after ss
  have hdecode (c : Int) : Search.decode (after ss) type c = .str ((after ss).decode c) := by
    obtain rfl | rfl := htype <;> rfl
  have hiff : Search.decode (after ss) type a = Search.decode (after ss) type b ↔
      (after ss).Overlap a b ∨ (after ss).Overlap b a := by
    rw [hdecode, hdecode, Value.str.injEq, hknows.decode_eq_decode_iff hab]
  refine ⟨hiff, fun hss heq ↦ ?_⟩
  exact (hiff.1 heq).elim (hknows.not_overlap hss) (hknows.not_overlap hss)

/-- Where "1" and "12" were coded, the code 2 is shown as "1" with a "2" behind it, like the code 12. -/
theorem shownAlike_two_twelve :
    Search.decode (after ["1", "12"]) "varchar" 2 = Search.decode (after ["1", "12"]) "varchar" 12 :=
  (shownAlike_iff_overlap ["1", "12"] (.inl rfl) (by decide)).1.2
    (.inl ⟨"2", by decide, by decide +kernel, by decide +kernel⟩)

end QueryEquiv
