import Mathlib
import QueryEquiv.Encode.Query

/-!
# Running an encoding

What a computation gives in a workspace, and what it leaves behind. A computation that succeeds is
taken apart at its binds into steps that succeed, so the specification of a function is put together
from those of the functions it calls.

`Gives` is about one run. `Keeps` is about all of them: from a workspace with a property a computation
that succeeds comes to one with the property, and its result has another. Computations that only read
are dealt with by `Keeps` alone.
-/

namespace QueryEquiv

open List

variable {α : Type}

theorem Outcome.bind_ok_iff {β : Type} {x : Outcome α} {f : α → Outcome β} {b : β} :
    (x >>= f) = .ok b ↔ ∃ a, x = .ok a ∧ f a = .ok b := by
  cases x <;> simp [bind, Except.bind]

@[simp] theorem Outcome.pure_ok_iff {a b : α} : (pure a : Outcome α) = .ok b ↔ b = a := by
  simp [pure, Except.pure, eq_comm]

/-- What a computation comes to in a workspace. -/
def exec {α : Type} (x : Encoding α) (w : Workspace) : Outcome α × Workspace := x.run.run w

theorem exec_bind {β : Type} (x : Encoding α) (f : α → Encoding β) (w : Workspace) : exec (x >>= f) w =
      match exec x w with
      | (.ok a, v) => exec (f a) v
      | (.error e, v) => (.error e, v) := by
  unfold exec
  rw [ExceptT.run_bind, StateT.run_bind]
  rcases x.run.run w with ⟨e | a, v⟩ <;> rfl

@[simp] theorem exec_pure (a : α) (w : Workspace) : exec (pure a) w = (.ok a, w) := rfl

@[simp] theorem exec_get (w : Workspace) : exec get w = (.ok w, w) := rfl

@[simp] theorem exec_lift (x : Outcome α) (w : Workspace) : exec (liftM x) w = (x, w) := rfl

theorem exec_tryCatch (x : Encoding α) (handle : Fault → Encoding α) (w : Workspace) : exec (tryCatch x handle) w =
      match exec x w with
      | (.ok a, v) => (.ok a, v)
      | (.error e, v) => exec (handle e) v := by
  unfold exec ExceptT.run StateT.run
  simp only [tryCatch, tryCatchThe, MonadExceptOf.tryCatch, ExceptT.tryCatch, ExceptT.mk, bind, StateT.bind]
  rcases x w with ⟨e | a, v⟩ <;> rfl

/-- A computation succeeds in a workspace with a result, and leaves a workspace behind. -/
def Gives {α : Type} (x : Encoding α) (w : Workspace) (a : α) (w' : Workspace) : Prop :=
  exec x w = (.ok a, w')

theorem Outcome.ok_of_toOption {x : Outcome α} {a : α} (h : x.toOption = some a) : x = .ok a := by
  rcases x with e | b
  · cases h
  · obtain rfl : b = a := Option.some_inj.1 h
    rfl

theorem Gives.of_toOption {x : Encoding α} {w : Workspace} {a : α}
    (h : (exec x w).1.toOption = some a) : Gives x w a (exec x w).2 := by
  unfold Gives
  rcases hx : exec x w with ⟨_ | b, v⟩
  · rw [hx] at h
    cases h
  · rw [hx] at h
    obtain rfl : b = a := by simpa [Except.toOption] using h
    rfl

namespace Gives

variable {α β : Type} {w w' : Workspace}

variable {x : Encoding α} {a : α} {v : Workspace}

theorem bind_iff {f : α → Encoding β} {b : β} : Gives (x >>= f) w b w' ↔ ∃ a v, Gives x w a v ∧ Gives (f a) v b w' := by
  unfold Gives
  rw [exec_bind]
  rcases exec x w with ⟨e | a, v⟩
  · simp
  · constructor
    · exact fun h ↦ ⟨a, v, rfl, h⟩
    · rintro ⟨b, u, h, hb⟩
      cases h
      exact hb

@[simp] theorem pure_iff {b : α} : Gives (pure a) w b w' ↔ b = a ∧ w' = w := by
  change (Except.ok a, w) = (Except.ok b, w') ↔ _
  simp [eq_comm]

@[simp] theorem not_throw {e : Fault} : ¬ Gives (throw e) w a w' := by
  change ¬ (Except.error e, w) = (Except.ok a, w')
  simp

@[simp] theorem get_iff : Gives get w v w' ↔ v = w ∧ w' = w := by
  change (Except.ok w, w) = (Except.ok v, w') ↔ _
  simp [eq_comm]

@[simp] theorem set_iff {u : PUnit} : Gives (set v) w u w' ↔ w' = v := by
  change (Except.ok PUnit.unit, v) = (Except.ok u, w') ↔ _
  simp [eq_comm]

@[simp] theorem modify_iff {f : Workspace → Workspace} {u : PUnit} : Gives (modify f) w u w' ↔ w' = f w := by
  change (Except.ok PUnit.unit, f w) = (Except.ok u, w') ↔ _
  simp [eq_comm]

@[simp] theorem lift_iff {x : Outcome α} : Gives (liftM x) w a w' ↔ x = .ok a ∧ w' = w := by
  change (x, w) = (Except.ok a, w') ↔ _
  simp [eq_comm]

/-- A computation that may be caught succeeds, or fails and is caught. -/
theorem tryCatch_cases {handle : Fault → Encoding α} (h : Gives (tryCatch x handle) w a w') :
    Gives x w a w' ∨ ∃ e v, exec x w = (.error e, v) ∧ Gives (handle e) v a w' := by
  unfold Gives at h ⊢
  rw [exec_tryCatch] at h
  rcases hx : exec x w with ⟨e | b, v⟩
  · rw [hx] at h
    exact .inr ⟨e, v, rfl, h⟩
  · rw [hx] at h
    exact .inl h

/-- A computation that goes on alike after either branch. -/
theorem branch {c : Prop} [Decidable c] {y : Encoding α} {f : α → Encoding β} {b : β}
    (h : Gives (if c then x >>= f else y >>= f) w b w') :
    ∃ a v, Gives (if c then x else y) w a v ∧ Gives (f a) v b w' := by
  rw [← bind_iff]
  split at h
  · rwa [if_pos ‹c›]
  · rwa [if_neg ‹¬ c›]

/-- The result and what is left behind are determined. -/
theorem unique {b : α} (h : Gives x w a w') (g : Gives x w b v) : a = b ∧ w' = v := by
  have := h.symm.trans g
  simpa using this

end Gives

/-- A computation that succeeds keeps a property of the workspace, and its result has a property. -/
def Keeps {α : Type} (P : Workspace → Prop) (x : Encoding α) (Q : α → Prop) : Prop :=
  ∀ ⦃w a w'⦄, P w → Gives x w a w' → P w' ∧ Q a

/-- A computation that succeeds keeps a property of the workspace, whatever its result is. -/
abbrev Guards {α : Type} (P : Workspace → Prop) (x : Encoding α) : Prop := Keeps P x fun _ ↦ True

/-- From workspaces with a property, a computation that succeeds comes to a result and a workspace with
another. -/
def Takes {α : Type} (P : Workspace → Prop) (x : Encoding α) (R : α → Workspace → Prop) : Prop :=
  ∀ ⦃w a w'⦄, P w → Gives x w a w' → R a w'

namespace Takes

variable {α β : Type} {P : Workspace → Prop} {R : α → Workspace → Prop} {T : β → Workspace → Prop}

theorem pure {a : α} (h : ∀ w, P w → R a w) : Takes P (pure a) R := by
  intro w b w' hw hg
  obtain ⟨rfl, rfl⟩ := Gives.pure_iff.1 hg
  exact h _ hw

variable {x : Encoding α} {f : α → Encoding β}

theorem bind (hx : Takes P x R) (hf : ∀ a, Takes (R a) (f a) T) : Takes P (x >>= f) T := by
  intro w b w' hw hg
  obtain ⟨a, v, ha, hb⟩ := Gives.bind_iff.1 hg
  exact hf a (hx hw ha) hb

/-- A property that some value is chosen for beforehand. -/
theorem exists' {ι : Type} {P : ι → Workspace → Prop} (h : ∀ i, Takes (P i) x R) :
    Takes (fun w ↦ ∃ i, P i w) x R := fun _ _ _ ⟨i, hi⟩ hg ↦ h i hi hg

end Takes

namespace Keeps

variable {α β : Type} {P : Workspace → Prop} {Q R : α → Prop}

theorem pure {a : α} (h : Q a) : Keeps P (pure a) Q := by
  intro w b w' hw hg
  obtain ⟨rfl, rfl⟩ := Gives.pure_iff.1 hg
  exact ⟨hw, h⟩

theorem throw {e : Fault} : Keeps P (throw e) Q := fun _ _ _ _ hg ↦ absurd hg Gives.not_throw

variable {S : β → Prop} {x : Encoding α} {f : α → Encoding β} {T : β → Workspace → Prop} {c : Prop} {l : List α}

theorem bind (hx : Keeps P x Q) (hf : ∀ a, Q a → Keeps P (f a) S) : Keeps P (x >>= f) S := by
  intro w b w' hw hg
  obtain ⟨a, v, ha, hb⟩ := Gives.bind_iff.1 hg
  obtain ⟨hv, hQ⟩ := hx hw ha
  exact hf a hQ hv hb

/-- After a computation that keeps a property, one that goes on from it. -/
theorem andThen (hx : Keeps P x Q) (hf : ∀ a, Q a → Takes P (f a) T) : Takes P (x >>= f) T := by
  intro w b w' hw hg
  obtain ⟨a, v, ha, hb⟩ := Gives.bind_iff.1 hg
  obtain ⟨hv, hQ⟩ := hx hw ha
  exact hf a hQ hv hb

/-- A computation that goes on alike after either branch. -/
theorem branch [Decidable c] {y : Encoding α} (h : Keeps P (if c then x else y) Q) (hf : ∀ a, Q a → Keeps P (f a) S) :
    Keeps P (if c then x >>= f else y >>= f) S := by
  split at h
  · exact (if_pos ‹c›) ▸ h.bind hf
  · exact (if_neg ‹¬ c›) ▸ h.bind hf

/-- After either branch, a computation that goes on from a property that both keep. -/
theorem branchThen [Decidable c] {y : Encoding α} (h : Keeps P (if c then x else y) Q) (hf : ∀ a, Q a → Takes P (f a) T) :
    Takes P (if c then x >>= f else y >>= f) T := by
  split at h
  · exact (if_pos ‹c›) ▸ h.andThen hf
  · exact (if_neg ‹¬ c›) ▸ h.andThen hf

/-- A computation that may be left out. -/
theorem optional [Decidable c] {x : Encoding Unit} {f : Unit → Encoding α}
    (hx : Guards P x) (hf : ∀ u, Keeps P (f u) Q) : Keeps P (if c then x >>= f else f ()) Q := by
  split
  · exact hx.bind fun u _ ↦ hf u
  · exact hf ()

theorem whenever [Decidable c] {x : Encoding Unit} (hx : Guards P x) : Guards P (if c then x else Pure.pure ()) := by
  split
  · exact hx
  · exact pure trivial

theorem optionalThen {T : α → Workspace → Prop} [Decidable c] {x : Encoding Unit}
    {f : Unit → Encoding α} (hx : Guards P x) (hf : ∀ u, Takes P (f u) T) :
    Takes P (if c then x >>= f else f ()) T := by
  split
  · exact hx.andThen fun u _ ↦ hf u
  · exact hf ()

theorem imp (h : Keeps P x Q) (hQ : ∀ a, Q a → R a) : Keeps P x R :=
  fun _ a _ hw hg ↦ (h hw hg).imp_right (hQ a)

theorem lift {x : Outcome α} (h : ∀ a, x = .ok a → Q a) : Keeps P (liftM x) Q := by
  intro w a w' hw hg
  obtain ⟨ha, rfl⟩ := Gives.lift_iff.1 hg
  exact ⟨hw, h a ha⟩

theorem outcome (x : Outcome α) : Guards P (liftM x : Encoding α) := lift fun _ _ ↦ trivial

theorem get : Keeps P get P := by
  intro w v w' hw hg
  obtain ⟨rfl, rfl⟩ := Gives.get_iff.1 hg
  exact ⟨hw, hw⟩

theorem modify {f : Workspace → Workspace} (h : ∀ w, P w → P (f w)) : Guards P (modify f) := by
  intro w u w' hw hg
  obtain rfl := Gives.modify_iff.1 hg
  exact ⟨h w hw, trivial⟩

theorem mapM (h : ∀ a ∈ l, Keeps P (f a) S) : Keeps P (l.mapM f) fun bs ↦ ∀ b ∈ bs, S b := by
  induction l with
  | nil =>
    rw [mapM_nil]
    exact pure (by simp)
  | cons a l ih =>
    rw [forall_mem_cons] at h
    rw [mapM_cons]
    refine h.1.bind fun b hb ↦ (ih h.2).bind fun bs hbs ↦ pure ?_
    rw [forall_mem_cons]
    exact ⟨hb, hbs⟩

theorem each (h : ∀ a ∈ l, Guards P (f a)) : Guards P (l.mapM f) :=
  (mapM h).imp fun _ _ ↦ trivial

theorem forIn {f : α → PUnit → Encoding (ForInStep PUnit)}
    (h : ∀ a ∈ l, ∀ u, Guards P (f a u)) : Guards P (forIn l ⟨⟩ f) := by
  induction l with
  | nil => exact pure trivial
  | cons a l ih =>
    rw [forIn_cons]
    refine (h a mem_cons_self ⟨⟩).bind fun s _ ↦ ?_
    split
    · exact pure trivial
    · exact ih fun a ha ↦ h a (mem_cons_of_mem _ ha)

theorem flatMapM {f : α → Encoding (List β)} (h : ∀ a ∈ l, Keeps P (f a) fun bs ↦ ∀ b ∈ bs, S b) :
    Keeps P (l.flatMapM f) fun bs ↦ ∀ b ∈ bs, S b := by
  have loop (bss : List (List β)) (hb : ∀ bs ∈ bss, ∀ b ∈ bs, S b) :
      Keeps P (flatMapM.loop f l bss) fun bs ↦ ∀ b ∈ bs, S b := by
    induction l generalizing bss with
    | nil =>
      refine pure fun b hmem ↦ ?_
      obtain ⟨bs, hbs, hb'⟩ := mem_flatten.1 hmem
      exact hb bs (mem_reverse.1 hbs) b hb'
    | cons a l ih =>
      rw [forall_mem_cons] at h
      exact h.1.bind fun bs hbs ↦ ih h.2 _ (forall_mem_cons.2 ⟨hbs, hb⟩)
  exact loop [] (by simp)

/-- What is kept whatever happens is kept by a computation that is caught. -/
theorem tryCatch {handle : Fault → Encoding α} (hx : Keeps P x Q)
    (hfail : ∀ ⦃w⦄, P w → P (exec x w).2) (hh : ∀ e, Keeps P (handle e) Q) : Keeps P (tryCatch x handle) Q := by
  intro w a w' hw hg
  obtain hg | ⟨e, v, he, hg⟩ := Gives.tryCatch_cases hg
  · exact hx hw hg
  · refine hh e ?_ hg
    have := hfail hw
    rwa [he] at this

end Keeps

/-- Whatever comes of it, a computation leaves a workspace behind that is related to the one before. -/
def Moves {α : Type} (R : Workspace → Workspace → Prop) (x : Encoding α) : Prop := ∀ w, R w (exec x w).2

namespace Moves

variable {α β : Type} {R : Workspace → Workspace → Prop} [Std.Refl R] [Trans R R R]

variable {f : α → Encoding β}

theorem bind {x : Encoding α} (hx : Moves R x) (hf : ∀ a, Moves R (f a)) : Moves R (x >>= f) := by
  intro w
  have h := hx w
  rw [exec_bind]
  rcases hr : exec x w with ⟨e | a, v⟩ <;> rw [hr] at h
  · exact h
  · exact Trans.trans h (hf a v)

theorem pure {a : α} : Moves R (pure a) := fun w ↦ Std.Refl.refl w

theorem lift {x : Outcome α} : Moves R (liftM x) := fun w ↦ Std.Refl.refl w

theorem mapM (hf : ∀ a, Moves R (f a)) (l : List α) : Moves R (l.mapM f) := by
  induction l with
  | nil =>
    rw [mapM_nil]
    exact pure
  | cons a l ih =>
    rw [mapM_cons]
    exact (hf a).bind fun _ ↦ ih.bind fun _ ↦ pure

end Moves

/-! ## Steps of a query -/

/-- From a table at hand and a workspace with a property, a step that succeeds comes to a result, a table
at hand and a workspace with another. -/
def Steps {α : Type} (P : Option Nat → Workspace → Prop) (x : Step α)
    (R : α → Option Nat → Workspace → Prop) : Prop :=
  ∀ h, Takes (P h) (x.run h) fun r w ↦ R r.1 r.2 w

namespace Steps

variable {α β : Type} {P : Option Nat → Workspace → Prop} {R : α → Option Nat → Workspace → Prop}
  {T : β → Option Nat → Workspace → Prop}

theorem pure {a : α} (h : ∀ hand w, P hand w → R a hand w) : Steps P (pure a) R :=
  fun hand ↦ .pure (h hand)

theorem bind {x : Step α} {f : α → Step β} (hx : Steps P x R) (hf : ∀ a, Steps (R a) (f a) T) : Steps P (x >>= f) T :=
  fun hand ↦ (hx hand).bind fun r ↦ hf r.1 r.2

theorem lift {x : Encoding α} (hx : ∀ hand, Takes (P hand) x fun a w ↦ R a hand w) : Steps P (liftM x) R :=
  fun hand ↦ (hx hand).bind fun _ ↦ .pure fun _ h ↦ h

theorem set {s : Option Nat} {Q : PUnit → Option Nat → Workspace → Prop}
    (h : ∀ hand w, P hand w → Q ⟨⟩ s w) : Steps P (set s) Q :=
  fun hand ↦ Takes.pure (a := (PUnit.unit, s)) fun w hw ↦ h hand w hw

end Steps

end QueryEquiv
