import Mathlib
import QueryEquiv.Text.Case

/-!
# Lower case

Names are compared by their lower case, and the names of tables and columns are kept in it. So both ways of
comparing come to the same only because a text in lower case is its own lower case (`Text.lower_lower`): no letter is
moved to one that is moved again. The letters on either side are taken together as the binary digits of a number,
and the two numbers have no digit in common.
-/

namespace QueryEquiv.Text

open List String

def CaseRun.points (r : CaseRun) : List Nat :=
  (List.range ((r.last - r.first) / r.step + 1)).map fun i ↦ r.first + r.step * i

theorem CaseRun.mem_points {r : CaseRun} {n : Nat} (h : r.covers n = true) : n ∈ r.points := by
  simp only [CaseRun.covers, Bool.and_eq_true, decide_eq_true_eq, beq_iff_eq] at h
  obtain ⟨⟨h₁, h₂⟩, h₃⟩ := h
  refine mem_map.2 ⟨(n - r.first) / r.step, ?_, ?_⟩
  · exact mem_range.2 (Nat.lt_succ_of_le (Nat.div_le_div_right (by omega)))
  · rw [Nat.mul_div_cancel' (Nat.dvd_of_mod_eq_zero h₃), Nat.add_sub_cancel' h₁]

/-- A list of numbers, each as a binary digit. -/
def bitsOf (ns : List Nat) : Nat := ns.foldr (fun n m ↦ 2 ^ n ||| m) 0

theorem testBit_bitsOf {ns : List Nat} {n : Nat} (h : n ∈ ns) : (bitsOf ns).testBit n = true := by
  induction ns with
  | nil => cases h
  | cons m ns ih =>
    change (2 ^ m ||| bitsOf ns).testBit n = true
    rw [Nat.testBit_or, Nat.testBit_two_pow]
    rcases mem_cons.1 h with rfl | h
    · simp
    · rw [ih h, Bool.or_true]

/-- What letters with a lower case are moved to. -/
def lowerPoints : List Nat := lowerRuns.toList.flatMap fun r ↦ r.points.map fun n : Nat ↦ ((n : Int) + r.shift).toNat

theorem lowerPoints_apart : bitsOf (lowerRuns.toList.flatMap CaseRun.points) &&& bitsOf lowerPoints = 0 := by
  decide +kernel

/-- A character that is its own lower case, wherever it stands. -/
def Small (c : Char) : Prop := lowerChar c = c ∧ c.toNat ≠ 931 ∧ c.toNat ≠ 304

instance (c : Char) : Decidable (Small c) := inferInstanceAs (Decidable (_ ∧ _))

theorem small_toLower {c : Char} (h : c.toNat < 128) : Small c.toLower := by
  have : ∀ n < 128, Small (Char.ofNat n).toLower := by decide +kernel
  simpa using this c.toNat h

theorem shiftBy_cases (runs : Array CaseRun) (c : Char) : shiftBy runs c = c ∨
    ∃ r ∈ runs.toList, c.toNat ∈ r.points ∧ shiftBy runs c = Char.ofNat ((c.toNat : Int) + r.shift).toNat := by
  rw [shiftBy]
  cases hr : runs.find? (·.covers c.toNat) with
  | none => exact .inl rfl
  | some r =>
    exact .inr ⟨r, Array.mem_toList_iff.2 (Array.mem_of_find?_eq_some hr),
      CaseRun.mem_points (by simpa using Array.find?_some hr), rfl⟩

theorem small_of_mem {n : Nat} (h : n ∈ lowerPoints) : Small (Char.ofNat n) := by
  have valid : ∀ n ∈ lowerPoints, n.isValidChar ∧ n ≠ 931 ∧ n ≠ 304 ∧
      (n < 128 → (Char.ofNat n).toLower = Char.ofNat n) := by decide +kernel
  obtain ⟨hvalid, hs, hi, hascii⟩ := valid n h
  have hn : (Char.ofNat n).toNat = n := by rw [Char.toNat_ofNat, if_pos hvalid]
  refine ⟨?_, by rwa [hn], by rwa [hn]⟩
  by_cases hlt : n < 128
  · rw [lowerChar, hn, if_pos hlt, hascii hlt]
  · refine (if_neg (by rwa [hn])).trans ((shiftBy_cases lowerRuns _).resolve_right ?_)
    rintro ⟨r, hr, hmem, -⟩
    rw [hn] at hmem
    have hzero := congrArg (Nat.testBit · n) lowerPoints_apart
    simp [Nat.testBit_and, testBit_bitsOf h, testBit_bitsOf (mem_flatMap.2 ⟨r, hr, hmem⟩)] at hzero

theorem small_lowerChar {c : Char} (hs : c.toNat ≠ 931) (hi : c.toNat ≠ 304) : Small (lowerChar c) := by
  by_cases hc : c.toNat < 128
  · rw [lowerChar, if_pos hc]
    exact small_toLower hc
  · have hlower : lowerChar c = shiftBy lowerRuns c := if_neg hc
    obtain he | ⟨r, hr, hmem, he⟩ := shiftBy_cases lowerRuns c
    · have hself := hlower.trans he
      rw [hself]
      exact ⟨hself, hs, hi⟩
    · rw [hlower, he]
      exact small_of_mem (mem_flatMap.2 ⟨r, hr, mem_map.2 ⟨_, hmem, rfl⟩⟩)

/-- The lower case of a character that stands between two others. -/
def lowerBetween (before : Option Char) (c : Char) (after : Option Char) : List Char :=
  if c.toNat == 931 then
    if before.any isCased && after.all (!isCased ·) then [Char.ofNat 962] else [Char.ofNat 963]
  else if c.toNat == 304 then ['i', Char.ofNat 775]
  else [lowerChar c]

theorem lowerChars_cons (before : Option Char) (c : Char) (cs : List Char) :
    lowerChars before (c :: cs) = lowerBetween before c cs.head? ++ lowerChars (some c) cs := by
  cases cs <;> rfl

theorem small_lowerChars (before : Option Char) (cs : List Char) : ∀ c ∈ lowerChars before cs, Small c := by
  have special : Small (Char.ofNat 962) ∧ Small (Char.ofNat 963) ∧ Small 'i' ∧ Small (Char.ofNat 775) := by
    decide +kernel
  have sigma (b : Bool) : ∀ c ∈ if b then [Char.ofNat 962] else [Char.ofNat 963], Small c := by
    cases b
    · exact forall_mem_singleton.2 special.2.1
    · exact forall_mem_singleton.2 special.1
  induction cs generalizing before with
  | nil => exact fun c h ↦ absurd h not_mem_nil
  | cons c rest ih =>
    rw [lowerChars_cons, forall_mem_append]
    refine ⟨?_, ih _⟩
    unfold lowerBetween
    split
    · exact sigma _
    · split
      · rw [forall_mem_cons, forall_mem_singleton]
        exact special.2.2
      · rw [forall_mem_singleton]
        exact small_lowerChar (by simpa using ‹¬(c.toNat == 931) = true›) (by simpa using ‹¬(c.toNat == 304) = true›)

theorem lowerChars_of_small {cs : List Char} (h : ∀ c ∈ cs, Small c) (before : Option Char) :
    lowerChars before cs = cs := by
  induction cs generalizing before with
  | nil => rfl
  | cons c cs ih =>
    rw [forall_mem_cons] at h
    obtain ⟨⟨hlower, hs, hi⟩, h⟩ := h
    rw [lowerChars_cons, lowerBetween, if_neg (by rwa [beq_iff_eq]), if_neg (by rwa [beq_iff_eq]), hlower, ih h]
    rfl

/-- Lower case is its own lower case. -/
theorem lower_lower (s : String) : lower (lower s) = lower s := by
  have small : ∀ c ∈ (lower s).toList, Small c := by
    unfold lower
    split
    · next h =>
      rw [toList_map, forall_mem_map]
      exact fun c hc ↦ small_toLower (by simpa using all_eq_true.1 h c hc)
    · rw [toList_ofList]
      exact small_lowerChars none s.toList
  generalize lower s = t at small
  unfold lower
  split
  · next h =>
    refine toList_injective ?_
    rw [toList_map]
    refine (map_congr_left fun c hc ↦ ?_).trans (map_id _)
    have hself := (small c hc).1
    rwa [lowerChar, if_pos (by simpa using all_eq_true.1 h c hc)] at hself
  · rw [lowerChars_of_small small, ofList_toList]

end QueryEquiv.Text
