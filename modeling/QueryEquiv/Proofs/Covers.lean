import QueryEquiv.Proofs.Running
import QueryEquiv.Search.Cover
import QueryEquiv.Search.Model

/-!
# Completeness of covers

A cover runs through all combinations of 0 and 1 where it leaves nothing open (`Cover.exists_bits`). So every vector
of decisions agrees with a member, unless the choices come twice over: both halves of a member are the same, and
decisions that differ in them at a position that is not open are missed (`Cover.covers_iff`).
-/

namespace QueryEquiv.Search

open List

/-- A vector of choices agrees with decisions wherever it is fixed. -/
def Agrees (vec : Choices) (x : List Bool) : Prop :=
  ∀ (j : Nat) v, vec[j]? = some (.fixed v) → ∃ b, x[j]? = some b ∧ v = .int b.toInt

/-- Some member of a cover agrees with decisions. -/
def Covers (c : Cover) (x : List Bool) : Prop := ∃ vec ∈ c.members, Agrees vec x

namespace Cover

/-! ## Numbers as choices -/

/-- Digits above those of the positions do not matter. -/
theorem bits_add_mul (opens : List Bool) (i b : Nat) : bits opens (i + b * 2 ^ width opens) = bits opens i := by
  induction opens generalizing b with
  | nil => rfl
  | cons o rest ih =>
    cases o with
    | true =>
      have hw : width (true :: rest) = width rest := by simp [width]
      rw [hw, bits, bits, ih]
    | false =>
      have hw : width (false :: rest) = width rest + 1 := by simp [width]
      have hb : b * 2 ^ (width rest + 1) = b * 2 * 2 ^ width rest := by rw [Nat.pow_succ]; ring
      rw [hw, hb, bits, bits, ih, Nat.pow_eq, Nat.add_mul_div_right _ _ (Nat.two_pow_pos _), Nat.add_mul_mod_self_right]

/-- Every combination of 0 and 1 at the positions that are not left open is that of some number. -/
theorem exists_bits (opens : List Bool) {f : Nat → Int} (hf : ∀ j : Nat, opens[j]? = some false → f j = 0 ∨ f j = 1) :
    ∃ i < 2 ^ width opens, ∀ (j : Nat) v, (bits opens i)[j]? = some (.fixed v) → v = .int (f j) := by
  induction opens generalizing f with
  | nil => exact ⟨0, by simp [width], fun j v h ↦ by simp [bits] at h⟩
  | cons o rest ih =>
    obtain ⟨i, hi, hbits⟩ := ih (f := fun j ↦ f (j + 1)) fun j hj ↦ hf (j + 1) hj
    cases o with
    | true =>
      refine ⟨i, by simpa [width] using hi, fun j v h ↦ ?_⟩
      cases j with
      | zero => simp [bits] at h
      | succ j => exact hbits j v h
    | false =>
      have hw : width (false :: rest) = width rest + 1 := by simp [width]
      obtain ⟨b, hb, hfb⟩ : ∃ b : Nat, b < 2 ∧ f 0 = b := by
        obtain h | h := hf 0 rfl
        · exact ⟨0, by decide, h⟩
        · exact ⟨1, by decide, h⟩
      refine ⟨i + b * 2 ^ width rest, ?_, fun j v h ↦ ?_⟩
      · rw [hw, Nat.pow_succ]
        nlinarith [Nat.two_pow_pos (width rest)]
      · rw [bits, bits_add_mul] at h
        cases j with
        | zero =>
          rw [Nat.pow_eq, Nat.add_mul_div_right _ _ (Nat.two_pow_pos _), Nat.div_eq_of_lt hi, Nat.zero_add,
            Nat.mod_eq_of_lt hb] at h
          rw [getElem?_cons_zero] at h
          cases h
          rw [hfb]
        | succ j => exact hbits j v h

variable {opens : List Bool} {i j : Nat} {c : Cover} {x : List Bool}

@[simp] theorem length_bits (opens : List Bool) (i : Nat) : (bits opens i).length = opens.length := by
  induction opens with
  | nil => rfl
  | cons o rest ih => cases o <;> simp [bits, ih]

/-- A member is fixed where the cover leaves nothing open. -/
theorem exists_fixed_iff : (∃ v, (bits opens i)[j]? = some (.fixed v)) ↔ opens[j]? = some false := by
  induction opens generalizing j with
  | nil => simp [bits]
  | cons o rest ih =>
    cases j with
    | zero => cases o <;> simp [bits]
    | succ j => cases o <;> simpa [bits] using ih

/-- Decisions at all positions are covered, except that both halves have to be alike if there are two. -/
theorem covers_iff_halves (hx : (if c.twice then c.opens.length * 2 else c.opens.length) ≤ x.length) :
    Covers c x ↔ (c.twice = true → ∀ j, c.opens[j]? = some false → x[j]? = x[c.opens.length + j]?) := by
  constructor
  · rintro ⟨_, hvec, h⟩ htwice j hj
    obtain ⟨i, -, rfl⟩ := mem_map.1 hvec
    obtain ⟨v, hv⟩ := exists_fixed_iff (i := i).2 hj
    rw [member, if_pos htwice] at h
    have hlt : j < (bits c.opens i).length := (List.getElem?_eq_some_iff.1 hv).1
    obtain ⟨b, hb, rfl⟩ := h j v (by rw [getElem?_append_left hlt, hv])
    obtain ⟨b', hb', heq⟩ := h (c.opens.length + j) _ (by
      rw [getElem?_append_right (by simp), length_bits, Nat.add_sub_cancel_left, hv])
    obtain rfl : b = b' :=
      (by decide : ∀ b b' : Bool, b.toInt = b'.toInt → b = b') b b' (Value.int.inj heq)
    rw [hb, hb']
  · intro hhalves
    obtain ⟨i, hi, hbits⟩ := exists_bits c.opens (f := fun j ↦ (x.getD j false).toInt) fun j _ ↦ by
      cases x.getD j false <;> simp
    refine ⟨c.member i, mem_map_of_mem (mem_range.2 hi), fun j v hv ↦ ?_⟩
    have fixed {j : Nat} {v : Value} (hv : (bits c.opens i)[j]? = some (.fixed v)) (hj : j < x.length) :
        ∃ b, x[j]? = some b ∧ v = .int b.toInt := by
      refine ⟨x[j], getElem?_eq_getElem hj, ?_⟩
      rw [hbits j v hv, getD_eq_getElem _ _ hj]
    cases htwice : c.twice with
    | false =>
      rw [htwice] at hx
      rw [member, htwice, if_neg Bool.false_ne_true] at hv
      exact fixed hv ((length_bits c.opens i ▸ (List.getElem?_eq_some_iff.1 hv).1).trans_le hx)
    | true =>
      rw [htwice, if_pos rfl] at hx
      rw [member, if_pos htwice, getElem?_append, length_bits] at hv
      split at hv
      · exact fixed hv (by omega)
      · obtain ⟨j, rfl⟩ := Nat.exists_eq_add_of_le (Nat.le_of_not_lt ‹_›)
        rw [Nat.add_sub_cancel_left] at hv
        have hlt : j < c.opens.length := length_bits c.opens i ▸ (List.getElem?_eq_some_iff.1 hv).1
        rw [← hhalves htwice j (exists_fixed_iff.1 ⟨v, hv⟩)]
        exact fixed hv (by omega)

/-! ## The cover of a table -/

theorem positions_eq_false {left middle right : Int} {j : Nat} (h : (positions left middle right)[j]? = some false) :
    left ≤ j ∧ (j : Int) < left.toNat + middle := by
  unfold positions at h
  rw [append_assoc, getElem?_append, getElem?_append] at h
  simp only [length_replicate, getElem?_replicate] at h
  split at h
  · simp at h
  · split at h <;> simp at h
    omega

/-- A number of positions, if it is given. -/
def Asked (v : Value) : Prop := v = .null ∨ ∃ k : Nat, v = .int k

section Tables

variable {t : Table} {o : Openness} {u v : Value} {k n : Int}

theorem leavesSome_ok (hu : Asked u) (hv : whole v = .ok n) :
    ∃ r, leavesSome u v = .ok r ∧ (r = true → ∃ k : Nat, u = .int k ∧ k < n) := by
  obtain rfl | ⟨k, rfl⟩ := hu
  · exact ⟨false, rfl, by simp⟩
  · cases v <;> cases hv <;> exact ⟨_, rfl, fun h ↦ ⟨k, rfl, of_decide_eq_true h⟩⟩

theorem choiceCount_eq (hn : whole t.bound = .ok n) :
    choiceCount t = .ok (if t.mentionsIfAny "Grouped" then n.toNat * 2 else n.toNat) := by
  unfold choiceCount
  generalize t.bound = v at hn ⊢
  cases v with
  | bool b => cases hn; cases b <;> split <;> rfl
  | int n =>
    cases hn
    split
    · exact congrArg Except.ok (by omega : (n * 2).toNat = n.toNat * 2)
    · rfl
  | _ => cases hn

/-- A cover has a position for each row of a table, and it comes twice over for groups unless it leaves everything
open. -/
structure Fits (t : Table) (n : Int) (c : Cover) : Prop where
  length : c.opens.length = n.toNat
  twice : c.twice = t.mentionsIfAny "Grouped" ∨ c.twice = false ∧ ∀ j : Nat, c.opens[j]? ≠ some false

theorem allOpen_fits (hn : whole t.bound = .ok n) : ∃ c, allOpen t = .ok c ∧ Fits t n c := by
  refine ⟨_, Outcome.bind_ok_iff.2 ⟨n, hn, rfl⟩, by simp [positions], .inr ⟨rfl, fun j hj ↦ ?_⟩⟩
  have := positions_eq_false hj
  omega

theorem positions_fits (left right : Nat) {middle : Int} (hm : middle = n - left - right) (hle : left + right ≤ n) :
    Fits t n { opens := positions left middle right, twice := t.mentionsIfAny "Grouped" } := by
  refine ⟨?_, .inl rfl⟩
  simp only [positions, length_append, length_replicate]
  omega

theorem exists_bind {α β : Type} {x : Outcome α} {f : α → Outcome β} {P : β → Prop} {a : α} (hx : x = .ok a)
    (h : ∃ b, f a = .ok b ∧ P b) : ∃ b, (x >>= f) = .ok b ∧ P b := by
  subst hx
  exact h

/-- The cover of a table has a position for each row, whatever is asked for. -/
theorem ofTable_fits {s : String} (hn : whole t.bound = .ok n) (hs : t.lineage = some s)
    (ho : ∀ v ∈ [o.left, o.right, o.sides], Asked v)
    (hr : o.ratio = .null ∨ ∃ opens, byRatio t o.ratio = .ok opens) : ∃ c, ofTable t o = .ok c ∧ Fits t n c := by
  have hm : t.mentions "Sorted" = .ok (Text.occursIn "Sorted" s) := by rw [Table.mentions, hs]
  unfold ofTable
  refine exists_bind hm ?_
  split
  · exact allOpen_fits hn
  have hsides : ∃ u, twofold o.sides = .ok u ∧ (u = .null ∨ ∃ k : Nat, o.sides = .int k ∧ u = .int (k * 2 : Nat)) := by
    obtain h | ⟨k, h⟩ := ho o.sides (by simp) <;> rw [h]
    · exact ⟨.null, rfl, .inl rfl⟩
    · exact ⟨_, rfl, .inr ⟨k, rfl, rfl⟩⟩
  obtain ⟨u, hu, hasked⟩ := hsides
  refine exists_bind hu ?_
  obtain ⟨inner, hinner, hlt⟩ := leavesSome_ok (hasked.imp_right fun ⟨_, _, h⟩ ↦ ⟨_, h⟩) hn
  refine exists_bind hinner ?_
  split
  · obtain ⟨_, rfl, hlt⟩ := hlt ‹_›
    obtain h | ⟨k, hk, h⟩ := hasked
    · cases h
    · cases h
      refine exists_bind hn (exists_bind (a := (k : Int)) (by rw [hk]; rfl) ⟨_, rfl, positions_fits k k ?_ ?_⟩)
      all_goals omega
  obtain ⟨first, hfirst, hlt⟩ := leavesSome_ok (ho o.left (by simp)) hn
  refine exists_bind hfirst ?_
  split
  · obtain ⟨k, hk, hlt⟩ := hlt ‹_›
    refine exists_bind hn (exists_bind (a := (k : Int)) (by rw [hk]; rfl) ⟨_, rfl, positions_fits k 0 ?_ ?_⟩)
    all_goals omega
  obtain ⟨last, hlast, hlt⟩ := leavesSome_ok (ho o.right (by simp)) hn
  refine exists_bind hlast ?_
  split
  · obtain ⟨k, hk, hlt⟩ := hlt ‹_›
    refine exists_bind hn (exists_bind (a := (k : Int)) (by rw [hk]; rfl) ⟨_, rfl, positions_fits 0 k ?_ ?_⟩)
    all_goals omega
  split
  · rename_i hgiven
    obtain h | ⟨opens, hopens⟩ := hr
    · rw [h] at hgiven
      cases hgiven
    · refine exists_bind hopens ⟨_, rfl, ?_⟩
      unfold byRatio at hopens
      simp only [Outcome.bind_ok_iff] at hopens
      obtain ⟨_, _, k, -, _, hn', hopens⟩ := hopens
      obtain rfl := Except.ok.inj (hn.symm.trans hn')
      split at hopens
      · cases hopens
      · rename_i hk
        obtain rfl := Outcome.pure_ok_iff.1 hopens
        simp only [Bool.or_eq_true, decide_eq_true_eq, not_or, Int.not_lt] at hk
        obtain ⟨k, rfl⟩ := Int.eq_ofNat_of_zero_le hk.1
        exact positions_fits 0 k (by omega) (by omega)
  · exact allOpen_fits hn

end Tables

/-- Decisions about all rows of a table agree with a member of its cover, unless the table is one of groups and they
differ in both halves at a position that is not open. So a cover misses none exactly if it leaves everything open or
the table is not one of groups. -/
theorem ofTable_covers_iff {t : Table} {o : Openness} {b : Int} {s : String} (hb : whole t.bound = .ok b)
    (hs : t.lineage = some s) (ho : ∀ v ∈ [o.left, o.right, o.sides], Asked v)
    (hr : o.ratio = .null ∨ ∃ opens, byRatio t o.ratio = .ok opens) :
    ∃ c n, ofTable t o = .ok c ∧ choiceCount t = .ok n ∧
      (∀ x : List Bool, x.length = n → (Covers c x ↔
        (t.mentionsIfAny "Grouped" = true → ∀ j, c.opens[j]? = some false → x[j]? = x[c.opens.length + j]?))) ∧
      ((∀ x : List Bool, x.length = n → Covers c x) ↔
        (t.mentionsIfAny "Grouped" = true → ∀ j : Nat, c.opens[j]? ≠ some false)) := by
  obtain ⟨c, hc, hfits⟩ := ofTable_fits hb hs ho hr
  refine ⟨c, _, hc, choiceCount_eq hb, ?_⟩
  rw [← hfits.length]
  have each (x : List Bool) (hx : x.length = if t.mentionsIfAny "Grouped" then c.opens.length * 2 else c.opens.length) :
      Covers c x ↔ (t.mentionsIfAny "Grouped" = true → ∀ j, c.opens[j]? = some false →
        x[j]? = x[c.opens.length + j]?) := by
    rcases hfits.twice with htwice | ⟨htwice, hopen⟩
    · rw [← htwice] at hx ⊢
      exact covers_iff_halves hx.ge
    · rw [covers_iff_halves (by rw [htwice, if_neg Bool.false_ne_true, hx]; split <;> omega)]
      exact ⟨fun _ _ j hj ↦ absurd hj (hopen j), fun _ _ j hj ↦ absurd hj (hopen j)⟩
  refine ⟨each, fun h hgrouped j hj ↦ ?_, fun h x hx ↦ (each x hx).2 fun hgrouped j hj ↦ absurd hj (h hgrouped j)⟩
  -- The decision for one group alone has different halves.
  have hlt : j < c.opens.length := (List.getElem?_eq_some_iff.1 hj).1
  have hx := (each ((List.range (c.opens.length * 2)).map (decide <| · = j)) (by simp [hgrouped])).1
    (h _ (by simp [hgrouped])) hgrouped j hj
  rw [getElem?_map, getElem?_map, getElem?_range (by omega), getElem?_range (by omega)] at hx
  rw [Option.map_some, Option.map_some, Option.some.injEq, decide_eq_decide] at hx
  omega

def groupedPair : Table := { id := 2, name := .str "t", bound := .int 2, lineage := some "Grouped from T1" }

/-- Both halves of a member are the same. -/
theorem groupedPair_covers : ∃ c, ofTable groupedPair { left := .int 1 } = .ok c ∧
    Covers c [false, true, false, true] ∧ ¬ Covers c [false, false, false, true] := by
  obtain ⟨c, n, hc, hn, h, -⟩ := ofTable_covers_iff (t := groupedPair) (o := { left := .int 1 }) (b := 2) rfl rfl
    (by simpa [Asked] using ⟨1, rfl⟩) (.inl rfl)
  obtain rfl : { opens := [true, false], twice := true } = c := Except.ok.inj hc
  obtain rfl : 4 = n := Except.ok.inj hn
  refine ⟨_, hc, (h _ rfl).2 fun _ j hj ↦ ?_, fun hcovers ↦ ?_⟩
  · rcases j with _ | _ | j
    · rfl
    · rfl
    · cases hj
  · exact absurd ((h _ rfl).1 hcovers rfl 1 rfl) (by decide)

end Cover

end QueryEquiv.Search
