import Mathlib
import QueryEquiv.Combinatorics

/-!
# Groupings are set partitions

The groupings of a list into `n` blocks are its partitions: each is found, whatever the order of its blocks, and none
is found twice (`partitions_exact`). A block is a sublist, and as no element occurs twice, its members tell it.
-/

namespace QueryEquiv.Combinatorics

open List

variable {α : Type} {xs block : List α} {g h : List (List α)} {n fuel : Nat}

/-- A list is split into `n` blocks, which have its members between them. -/
structure Splits (xs : List α) (n : Nat) (g : List (List α)) : Prop where
  block : ∀ b ∈ g, b ≠ [] ∧ b.Sublist xs
  flatten : g.flatten.Perm xs
  length : g.length = n

theorem mem_choose {l : List α} : l ∈ choose n xs ↔ l.Sublist xs ∧ l.length = n := by
  induction xs generalizing n l with
  | nil => cases n <;> cases l <;> simp [choose]
  | cons x xs ih =>
    cases n with
    | zero => cases l <;> simp [choose]
    | succ n =>
      simp only [choose, mem_append, mem_map, ih, sublist_cons_iff]
      constructor
      · rintro (⟨r, ⟨hr, rfl⟩, rfl⟩ | ⟨hl, hlen⟩)
        · exact ⟨.inr ⟨r, rfl, hr⟩, rfl⟩
        · exact ⟨.inl hl, hlen⟩
      · rintro ⟨hl | ⟨r, rfl, hr⟩, hlen⟩
        · exact .inr ⟨hl, hlen⟩
        · exact .inl ⟨r, ⟨hr, by simpa using hlen⟩, rfl⟩

/-- There are no more blocks than members, and if there are as many, each block has one. -/
theorem length_le_flatten (h : ∀ b ∈ g, b ≠ []) :
    g.length ≤ g.flatten.length ∧ (g.length = g.flatten.length → g = g.flatten.map ([·])) := by
  induction g with
  | nil => simp
  | cons b g ih =>
    rw [forall_mem_cons] at h
    obtain ⟨hle, heq⟩ := ih h.2
    obtain ⟨x, b, rfl⟩ := exists_cons_of_ne_nil h.1
    simp only [flatten_cons, length_append, length_cons]
    refine ⟨by omega, fun hlen ↦ ?_⟩
    obtain rfl : b = [] := length_eq_zero_iff.1 (by omega)
    rw [singleton_append, map_cons, ← heq (by simp only [length_nil] at hlen; omega)]

theorem Splits.apart (hxs : xs.Nodup) (h : Splits xs n g) : g.Pairwise List.Disjoint :=
  (nodup_flatten.1 (h.flatten.nodup_iff.2 hxs)).2

theorem Splits.nodup (hxs : xs.Nodup) (h : Splits xs n g) : g.Nodup :=
  (h.apart hxs).imp_of_mem fun {a b} ha _ hab heq ↦ by
    obtain ⟨x, hx⟩ := exists_mem_of_ne_nil a (h.block a ha).1
    exact hab hx (heq ▸ hx)

variable [DecidableEq α]

/-- What a block leaves. -/
abbrev without (xs block : List α) : List α := xs.filter fun x ↦ !block.contains x

theorem append_without (hxs : xs.Nodup) (hsub : block.Sublist xs) : (block ++ without xs block).Perm xs := by
  have hdiff : xs.diff block = without xs block := by simp [hxs.sdiff_eq_filter, without]
  exact hdiff ▸ subperm_append_diff_self_of_count_le fun x _ ↦ hsub.count_le x

/-- A first block is taken off. -/
theorem splits_cons_iff (hxs : xs.Nodup) (hne : block ≠ []) (hsub : block.Sublist xs) :
    Splits xs (n + 1) (block :: g) ↔ Splits (without xs block) n g := by
  have hperm : (block :: g).flatten.Perm xs ↔ g.flatten.Perm (without xs block) :=
    ⟨fun h ↦ (perm_append_left_iff block).1 (h.trans (append_without hxs hsub).symm),
      fun h ↦ (h.append_left block).trans (append_without hxs hsub)⟩
  constructor
  · intro h
    have hflat := hperm.1 h.flatten
    refine ⟨fun b hb ↦ ?_, hflat, Nat.succ.inj h.length⟩
    obtain ⟨hb', hbs⟩ := h.block b (mem_cons_of_mem _ hb)
    -- No member of `b` is in the first block, so taking that away from `xs` leaves `b` a sublist.
    have hself : without b block = b := filter_eq_self.2 fun x hx ↦
      (mem_filter.1 (hflat.subset (mem_flatten_of_mem hb hx))).2
    exact ⟨hb', hself ▸ hbs.filter _⟩
  · intro h
    refine ⟨forall_mem_cons.2 ⟨⟨hne, hsub⟩, fun b hb ↦ ?_⟩, hperm.2 h.flatten, congrArg (· + 1) h.length⟩
    exact ⟨(h.block b hb).1, (h.block b hb).2.trans filter_sublist⟩

/-- The groupings are the ways to split a list, with their blocks in some order. -/
theorem groupings_split (hxs : xs.Nodup) (hne : xs ≠ []) (hn : 1 ≤ n) (hfuel : xs.length < fuel) :
    (∀ g ∈ groupings fuel xs n, Splits xs n g) ∧ ∀ g, Splits xs n g → ∃ h ∈ groupings fuel xs n, h.Perm g := by
  induction fuel generalizing xs n with
  | zero => omega
  | succ fuel ih =>
    have hmost {ys : List α} {g m} (h : Splits ys m g) :=
      h.flatten.length_eq ▸ h.length ▸ length_le_flatten fun b hb ↦ (h.block b hb).1
    unfold groupings
    split_ifs with hone hall hmany
    · obtain rfl : n = 1 := by omega
      refine ⟨?_, fun g h ↦ ⟨_, mem_singleton_self _, ?_⟩⟩
      · simpa using ⟨by simpa using hne, by simp, rfl⟩
      obtain ⟨b, rfl⟩ := length_eq_one_iff.1 h.length
      have hlen := h.flatten.length_eq
      rw [flatten_singleton] at hlen
      rw [(h.block b (mem_singleton_self b)).2.eq_of_length hlen]
    · obtain rfl : n = xs.length := by omega
      refine ⟨?_, fun g h ↦ ⟨_, mem_singleton_self _, ?_⟩⟩
      · simpa using ⟨by simp, by simp [← flatMap_def], by simp⟩
      · rw [(hmost h).2 rfl]
        exact (h.flatten.map _).symm
    · refine ⟨by simp, fun g h ↦ ?_⟩
      have := (hmost h).1
      omega
    · obtain ⟨m, rfl⟩ : ∃ m, n = m + 1 := ⟨n - 1, by omega⟩
      -- A block that leaves something out leaves a list that is shorter and not empty.
      have hrest {b : List α} (hb : b ≠ []) (hsub : b.Sublist xs) (hlt : b.length < xs.length) :=
        have hlen := length_append ▸ (append_without hxs hsub).length_eq
        have hpos := length_pos_iff.2 hb
        @ih (without xs b) m (hxs.filter _) (ne_nil_of_length_pos (by omega)) (by omega) (by omega)
      simp only [mem_flatMap, mem_range, mem_choose, mem_map, Nat.cast_add_one, add_sub_cancel_right]
      constructor
      · rintro g ⟨i, hi, b, ⟨hsub, hlen⟩, g', hg', rfl⟩
        have hb : b ≠ [] := ne_nil_of_length_eq_add_one hlen
        exact (splits_cons_iff hxs hb hsub).2 ((hrest hb hsub (by omega)).1 g' hg')
      · intro g h
        obtain ⟨b, g, rfl⟩ := exists_cons_of_length_eq_add_one h.length
        obtain ⟨hb, hsub⟩ := h.block b mem_cons_self
        have h := (splits_cons_iff hxs hb hsub).1 h
        have hpos := length_pos_iff.2 hb
        have hlen := length_append ▸ (append_without hxs hsub).length_eq
        have hm := (hmost h).1
        obtain ⟨h', hh', hperm⟩ := (hrest hb hsub (by omega)).2 g h
        exact ⟨b :: h', ⟨b.length - 1, by omega, b, ⟨hsub, by omega⟩, h', hh', rfl⟩, hperm.cons b⟩

/-- Of those that are the same, the first is kept. -/
theorem eraseDupsBy_spec {β : Type} {same : β → β → Bool} (hsame : ∀ a, same a a = true) (l : List β) :
    l.eraseDupsBy same ⊆ l ∧ (∀ a ∈ l, ∃ b ∈ l.eraseDupsBy same, same a b = true) ∧
      (l.eraseDupsBy same).Pairwise fun a b ↦ same b a = false := by
  induction hn : l.length using Nat.strong_induction_on generalizing l with
  | _ n ih =>
    rcases l with _ | ⟨a, l⟩
    · simp
    · obtain ⟨hsub, hkept, hapart⟩ := ih _ (hn ▸ Nat.lt_succ_of_le (length_filter_le ..))
        (l.filter (same · a = false)) rfl
      rw [eraseDupsBy_cons]
      refine ⟨cons_subset_cons a fun b hb ↦ (mem_filter.1 (hsub hb)).1, fun b hb ↦ ?_, ?_⟩
      · by_cases hba : same b a = true
        · exact ⟨a, mem_cons_self, hba⟩
        · obtain rfl | hb := mem_cons.1 hb
          · exact absurd (hsame b) hba
          · obtain ⟨c, hc, hbc⟩ := hkept b (mem_filter.2 ⟨hb, by simpa using hba⟩)
            exact ⟨c, mem_cons_of_mem a hc, hbc⟩
      · exact pairwise_cons.2 ⟨fun b hb ↦ by simpa using (mem_filter.1 (hsub hb)).2, hapart⟩

theorem sameBlocks_iff : sameBlocks g h = true ↔ ∀ b, b ∈ g ↔ b ∈ h := by
  simp [sameBlocks, iff_def, forall_and]

theorem eraseDups_of_nodup {β : Type} [BEq β] [LawfulBEq β] {l : List β} (h : l.Nodup) : l.eraseDups = l := by
  induction l with
  | nil => rfl
  | cons a l ih =>
    obtain ⟨ha, hl⟩ := nodup_cons.1 h
    rw [eraseDups_cons, filter_eq_self.2 fun b hb ↦ by simpa using ne_of_mem_of_not_mem hb ha, ih hl]

/-- The pairs that a grouping keeps apart are those that no block has both of. -/
theorem apart_exact (hxs : xs.Nodup) (h : Splits xs n g) : (apart xs g).Nodup ∧
    ∀ i j, (i, j) ∈ apart xs g ↔ i ∈ xs ∧ j ∈ xs ∧ ∀ b ∈ g, ¬ (i ∈ b ∧ j ∈ b) := by
  constructor
  · refine nodup_flatMap.2 ⟨fun b hb ↦ nodup_flatMap.2 ⟨fun x _ ↦ ?_, ?_⟩, ?_⟩
    · exact (hxs.filter _).map fun _ _ h ↦ (Prod.mk.inj h).2
    · exact (hxs.sublist (h.block b hb).2).imp fun hne p hp hq ↦ by grind
    · exact (h.apart hxs).imp fun hbc p hp hq ↦ by grind [List.Disjoint]
  · intro i j
    simp only [apart, mem_flatMap, mem_map, mem_filter, Prod.mk.injEq, Bool.and_eq_true, bne_iff_ne,
      Bool.not_eq_true', contains_eq_mem, decide_eq_false_iff_not]
    constructor
    · rintro ⟨b, hb, x, hx, y, ⟨hy, -, hout⟩, rfl, rfl⟩
      refine ⟨(h.block b hb).2.subset hx, hy, fun c hc hxy ↦ ?_⟩
      have : Std.Symm (@List.Disjoint α) := ⟨fun _ _ h ↦ h.symm⟩
      exact (h.apart hxs).forall hb hc (fun hbc ↦ hout (hbc ▸ hxy.2)) hx hxy.1
    · rintro ⟨hi, hj, hno⟩
      obtain ⟨b, hb, hib⟩ := mem_flatten.1 (h.flatten.mem_iff.2 hi)
      have hout : j ∉ b := fun hjb ↦ hno b hb ⟨hib, hjb⟩
      exact ⟨b, hb, i, hib, j, ⟨hj, fun hij ↦ hout (hij ▸ hib), hout⟩, rfl, rfl⟩

/-- The groupings that are found are the partitions of a list without repetitions into `n` blocks, each of them once,
whatever the order of the blocks. Each comes with the pairs of elements in different blocks. -/
theorem partitions_exact (hxs : xs.Nodup) (hne : xs ≠ []) (hn : 1 ≤ n) :
    (∀ p ∈ partitions xs n, Splits xs n p.blocks ∧ p.apart.Nodup ∧
      ∀ i j, (i, j) ∈ p.apart ↔ i ∈ xs ∧ j ∈ xs ∧ ∀ b ∈ p.blocks, ¬ (i ∈ b ∧ j ∈ b)) ∧
    (∀ g, Splits xs n g → ∃ p ∈ partitions xs n, p.blocks.Perm g) ∧
    (partitions xs n).Pairwise fun p q ↦ ¬ p.blocks.Perm q.blocks := by
  obtain ⟨hsplit, hall⟩ := groupings_split hxs hne hn (Nat.lt_succ_self _)
  have hself : (groupings (xs.length + 1) xs n).map List.eraseDups = groupings (xs.length + 1) xs n :=
    (map_congr_left fun g hg ↦ eraseDups_of_nodup ((hsplit g hg).nodup hxs)).trans (map_id _)
  have hsame : ∀ g : List (List α), sameBlocks g g = true := fun g ↦ sameBlocks_iff.2 fun _ ↦ .rfl
  obtain ⟨hmem, hkept, hapart⟩ := eraseDupsBy_spec hsame (groupings (xs.length + 1) xs n)
  simp only [partitions, hself]
  generalize eraseDupsBy _ _ = ds at hmem hkept hapart
  have hds : ∀ g ∈ ds, Splits xs n g := fun g hg ↦ hsplit g (hmem hg)
  refine ⟨forall_mem_map.2 fun g hg ↦ ⟨hds g hg, apart_exact hxs (hds g hg)⟩, fun g hg ↦ ?_, ?_⟩
  · obtain ⟨h, hh, hperm⟩ := hall g hg
    obtain ⟨d, hd, heq⟩ := hkept h hh
    refine ⟨_, mem_map_of_mem hd, List.Perm.trans ?_ hperm⟩
    exact (perm_ext_iff_of_nodup ((hds d hd).nodup hxs) ((hsplit h hh).nodup hxs)).2 fun b ↦
      (sameBlocks_iff.1 heq b).symm
  · refine pairwise_map.2 (hapart.imp fun hne hperm ↦ ?_)
    rw [sameBlocks_iff.2 fun b ↦ hperm.mem_iff.symm] at hne
    cases hne

/-- Three indices in two blocks. -/
theorem partitions_three :
    (∀ p ∈ partitions [0, 1, 2] 2, Splits [0, 1, 2] 2 p.blocks) ∧ (partitions [0, 1, 2] 2).length = 3 :=
  ⟨fun p hp ↦ ((partitions_exact (n := 2) (by decide) (by decide) (by decide)).1 p hp).1, by decide⟩

end QueryEquiv.Combinatorics
