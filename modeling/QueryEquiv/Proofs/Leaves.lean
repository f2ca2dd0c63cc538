import QueryEquiv.Proofs.Meaning
import QueryEquiv.Proofs.Relations

/-!
# Leaves of readings

The operations on readings put together the terms of their operands. So whatever holds of the leaves of
the operands holds of the leaves of the result; only an operation on a whole table brings in leaves of
its own, and none of these is a choice.
-/

namespace QueryEquiv

open Reading Outcome List

open Outcome (Both)
open Term (Leaves)

/-- The leaves of a reading have a property. -/
def Reading.Leaves (p : Term → Prop) (r : Reading) : Prop := r.1.Leaves p ∧ r.2.Leaves p

structure Contribution.Leaves (p : Term → Prop) (x : Contribution) : Prop where
  val : x.val.Leaves p
  null : x.null.Leaves p
  flag : x.flag.Leaves p

namespace Term

variable {p : Term → Prop} {a b c : Term}

theorem leaves_ensureNumber (ha : Leaves p a) (h : a.ensureNumber = .ok b) : Leaves p b := by
  obtain ⟨k, -, h⟩ := bind_ok_iff.1 h
  split at h
  · obtain rfl := pure_ok_iff.1 h
    exact ⟨ha, trivial, trivial⟩
  · obtain rfl := pure_ok_iff.1 h
    exact ha

theorem leaves_ensureTruth (ha : Leaves p a) (h : a.ensureTruth = .ok b) : Leaves p b := by
  obtain ⟨k, -, h⟩ := bind_ok_iff.1 h
  split at h
  · obtain rfl := pure_ok_iff.1 h
    exact ⟨ha, trivial⟩
  · obtain rfl := pure_ok_iff.1 h
    exact ha

theorem leaves_compare {op : Comparison} (ha : Leaves p a) (hb : Leaves p b)
    (h : compare op a b = .ok c) : Leaves p c := by
  unfold compare at h
  split at h
  · obtain ⟨v, -, h⟩ := bind_ok_iff.1 h
    obtain rfl := pure_ok_iff.1 h
    trivial
  · unfold comparison at h
    split at h
    · cases h
    · cases h
      exact ⟨ha, hb⟩

theorem leaves_compute {op : Arith} (ha : Leaves p a) (hb : Leaves p b)
    (h : compute op a b = .ok c) : Leaves p c := by
  unfold compute at h
  split at h
  · obtain ⟨v, -, h⟩ := bind_ok_iff.1 h
    obtain rfl := pure_ok_iff.1 h
    trivial
  · cases h
  · cases h
    exact ⟨ha, hb⟩

theorem leaves_negate (ha : Leaves p a) (h : a.negate = .ok b) : Leaves p b := by
  unfold negate at h
  split at h
  · obtain ⟨v, -, h⟩ := bind_ok_iff.1 h
    obtain rfl := pure_ok_iff.1 h
    trivial
  · cases h
    exact ha

def Leafy (p : Term → Prop) (t u : Term) : Prop := t.Leaves p ∧ u.Leaves p

private theorem Leafy.all {ts us : List Term} (h : Forall₂ (Leafy p) ts us) :
    (∀ t ∈ ts, t.Leaves p) ∧ ∀ u ∈ us, u.Leaves p := by
  induction h with
  | nil => simp
  | cons htu _ ih => exact ⟨forall_mem_cons.2 ⟨htu.1, ih.1⟩, forall_mem_cons.2 ⟨htu.2, ih.2⟩⟩

/-- The ways to put terms together bring in no leaves. -/
theorem leafy : Respected (Leafy p) (Leafy p) (Leafy p) where
  value h := h
  condition h := h
  int _ := ⟨trivial, trivial⟩
  bool _ := ⟨trivial, trivial⟩
  number h _ _ ha hb := ⟨leaves_ensureNumber h.1 ha, leaves_ensureNumber h.2 hb⟩
  truth h _ _ ha hb := ⟨leaves_ensureTruth h.1 ha, leaves_ensureTruth h.2 hb⟩
  compare _ _ _ _ _ h h' _ _ ha hb := ⟨leaves_compare h.1 h'.1 ha, leaves_compare h.2 h'.2 hb⟩
  compute _ _ _ _ _ h h' _ _ ha hb := ⟨leaves_compute h.1 h'.1 ha, leaves_compute h.2 h'.2 hb⟩
  negate h _ _ ha hb := ⟨leaves_negate h.1 ha, leaves_negate h.2 hb⟩
  arith _ _ _ _ _ h h' := ⟨⟨h.1, h'.1⟩, ⟨h.2, h'.2⟩⟩
  not h := h
  and h := ⟨(leaves_and _).2 (Leafy.all h).1, (leaves_and _).2 (Leafy.all h).2⟩
  or h := ⟨(leaves_or _).2 (Leafy.all h).1, (leaves_or _).2 (Leafy.all h).2⟩
  implies h h' := ⟨⟨h.1, h'.1⟩, ⟨h.2, h'.2⟩⟩
  ite h h' h'' := ⟨⟨h.1, h'.1, h''.1⟩, ⟨h.2, h'.2, h''.2⟩⟩
  choice h h' h'' := ⟨⟨h.1, h'.1, h''.1⟩, ⟨h.2, h'.2, h''.2⟩⟩

end Term

namespace Reading

variable {p : Term → Prop} {t : Term} {r : Reading} {rs : List Reading}

@[simp] theorem leaves_certain : (certain t).Leaves p ↔ t.Leaves p :=
  and_iff_left trivial

@[simp] theorem leaves_missing : missing.Leaves p := ⟨trivial, trivial⟩

theorem related_self : Related (Term.Leafy p) (Term.Leafy p) r r ↔ r.Leaves p := and_congr and_self_iff and_self_iff

theorem leaves_orElse {a b c : Reading} (ha : a.Leaves p) (hb : b.Leaves p) (hc : c.Leaves p) :
    (orElse a b c).Leaves p := by
  simp [Leaves, orElse, ha.1, ha.2, hb.1, hb.2, hc.1, hc.2]

theorem leaves_orNext {a b : Reading} (ha : a.Leaves p) (hb : b.Leaves p) : (orNext a b).Leaves p := by
  simp [Leaves, orNext, ha.1, ha.2, hb.1, hb.2]

theorem Leaves.all (h : ∀ r ∈ rs, r.Leaves p) : Forall₂ (Related (Term.Leafy p) (Term.Leafy p)) rs rs :=
  forall₂_same.2 fun r hr ↦ related_self.2 (h r hr)

end Reading

theorem Contribution.Leaves.all {p : Term → Prop} {xs : List Contribution} (h : ∀ x ∈ xs, x.Leaves p) :
    Forall₂ (Contribution.Related (Term.Leafy p) (Term.Leafy p)) xs xs :=
  forall₂_same.2 fun x hx ↦
    have hx := h x hx
    ⟨⟨hx.val, hx.val⟩, ⟨hx.null, hx.null⟩, ⟨hx.flag, hx.flag⟩⟩

/-- An operation that is related to itself brings in no leaves. -/
theorem Keeps.leaves {P : Workspace → Prop} {p : Term → Prop} {x : Outcome Reading}
    (h : Both (Related (Term.Leafy p) (Term.Leafy p)) x x) : Keeps P (liftM x) (Leaves p) :=
  .lift fun _ hx ↦ related_self.1 (h hx hx)

/-- A computation is compared with itself. -/
theorem pairs_leaves_iff {P : Workspace → Prop} {p : Term → Prop} {x : Encoding Reading} :
    Pairs P x x (Related (Term.Leafy p) (Term.Leafy p)) ↔ Keeps P x (Leaves p) := by
  constructor
  · intro h w a w' hw hg
    obtain ⟨⟨hw', -⟩, hr⟩ := h hw hw hg hg
    exact ⟨hw', related_self.1 hr⟩
  · intro h v a v' w b w' hv hw ha hb
    obtain ⟨hv', hl⟩ := h hv ha
    obtain ⟨hw', hr⟩ := h hw hb
    exact ⟨⟨hv', hw'⟩, ⟨hl.1, hr.1⟩, ⟨hl.2, hr.2⟩⟩

/-! ## Lists gone through -/

variable {α β : Type} {f : α → Outcome β} {l : List α} {bs : List β}

/-- A list that is gone through with success, member by member. -/
theorem Outcome.mapM_ok (h : l.mapM f = .ok bs) : Forall₂ (fun a b ↦ f a = .ok b) l bs := by
  induction l generalizing bs with
  | nil =>
    rw [mapM_nil] at h
    obtain rfl := pure_ok_iff.1 h
    exact .nil
  | cons a l ih =>
    rw [mapM_cons] at h
    obtain ⟨b, hb, h⟩ := bind_ok_iff.1 h
    obtain ⟨cs, hcs, h⟩ := bind_ok_iff.1 h
    obtain rfl := pure_ok_iff.1 h
    exact .cons hb (ih hcs)

theorem Outcome.mem_mapM (h : l.mapM f = .ok bs) :
    (∀ a ∈ l, ∃ b ∈ bs, f a = .ok b) ∧ ∀ b ∈ bs, ∃ a ∈ l, f a = .ok b := by
  have hf := mapM_ok h
  clear h
  induction hf with
  | nil => simp
  | cons hab _ ih =>
    simp only [forall_mem_cons, exists_mem_cons_iff]
    exact ⟨⟨.inl hab, fun a ha ↦ .inr (ih.1 a ha)⟩, .inl hab, fun b hb ↦ .inr (ih.2 b hb)⟩

end QueryEquiv
