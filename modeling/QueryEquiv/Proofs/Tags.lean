import QueryEquiv.Proofs.Shape
import QueryEquiv.Proofs.Tables

/-!
# The tags of clauses

A tree that gets tags anew has no tag that was in use before, and what is known of a clause is copied under
its new tag only. So the tags of a tree can be told apart from all that come later.
-/

namespace QueryEquiv

open List

namespace Node

def tag? : Node → Option Nat
  | filter t _ | project t _ _ | join t _ _ _ _ _ | groupBy t _ _ | orderBy t _ _ _
  | query t _ _ _ _ _ _ _ | union t _ _ _ => some t
  | _ => none

/-- A property that copies of nodes keep, and that all nodes have but clauses and sources. -/
structure Innate (p : Node → Prop) : Prop extends Lasting p where
  plain : ∀ m : Node, m.tag? = none → m.isScan = false → p m

theorem innate_true : Innate fun _ ↦ True where
  complete _ _ _ := trivial
  truth := trivial
  retag _ _ _ := trivial
  plain _ _ _ := trivial

theorem fitting_innate : Innate fun m ↦ m.fitting = true where
  toLasting := fitting_lasting
  plain m ht hs := by
    cases m with
    | query | union => cases ht
    | scan => cases hs
    | _ => rfl

/-- Every tag in a tree has a property. -/
abbrev TagsIn (q : Nat → Prop) : Node → Prop := Everywhere fun m ↦ ∀ t, m.tag? = some t → q t

abbrev AllTagsIn (q : Nat → Prop) : List Node → Prop := EverywhereAll fun m ↦ ∀ t, m.tag? = some t → q t

theorem tagsIn_completable (q : Nat → Prop) : Completable fun m ↦ ∀ t, m.tag? = some t → q t where
  complete js n h := by cases n <;> exact h
  truth _ h := by cases h

abbrev Between (b c : Nat) (m : Node) : Prop := ∀ t, m.tag? = some t → b ≤ t ∧ t < c

/-! ## Tags given anew -/

/-- After a tag was given in the place of another. -/
abbrev Tagging.taken (s : Tagging) (t : Nat) : Tagging :=
  { next := s.next + 1, renamed := (t, s.next) :: s.renamed }

theorem retags_append (ms ns : List Node) (s : Tagging) : (retags (ms ++ ns)).run s =
    let r := (retags ns).run ((retags ms).run s).2
    (((retags ms).run s).1 ++ r.1, r.2) := by
  induction ms generalizing s with
  | nil => rfl
  | cons m ms ih => exact congrArg (fun r : List Node × Tagging ↦ (_ :: r.1, r.2)) (ih _)

theorem retags_cases (cs : List (Node × Node)) (s : Tagging) : (retags (cs.flatMap fun c ↦ [c.1, c.2])).run s =
    (((retagCases cs).run s).1.flatMap fun c ↦ [c.1, c.2], ((retagCases cs).run s).2) := by
  induction cs generalizing s with
  | nil => rfl
  | cons c cs ih => exact congrArg (fun r : List Node × Tagging ↦ (_ :: _ :: r.1, r.2)) (ih _)

theorem retags_withs (es : List (Value × Node)) (s : Tagging) : (retags (es.map (·.2))).run s =
    (((retagWiths es).run s).1.map (·.2), ((retagWiths es).run s).2) := by
  induction es generalizing s with
  | nil => rfl
  | cons e es ih => exact congrArg (fun r : List Node × Tagging ↦ (_ :: r.1, r.2)) (ih _)

/-- A node gets its tag, and then its parts get theirs. -/
theorem parts_retag (n : Node) (s : Tagging) :
    (retags n.parts).run (n.tag?.elim s s.taken) = ((n.retag.run s).1.parts, (n.retag.run s).2) := by
  cases n with
  | caseWhen cs =>
    change (retags (_ ++ _)).run s = _
    rw [retags_append, retags_cases]
    rfl
  | groupBy t ks =>
    change (retags (_ ++ _)).run (s.taken t) = _
    rw [retags_append]
    rfl
  | query t ws =>
    change (retags (_ ++ _)).run (s.taken t) = _
    rw [retags_append]
    cases ws with
    | none => rfl
    | some es =>
      rw [Option.getD_some, retags_withs]
      rfl
  | _ => rfl

theorem tag?_retag (n : Node) (s : Tagging) : (n.retag.run s).1.tag? = n.tag?.map fun _ ↦ s.next := by
  cases n with
  | query t ws => cases ws <;> rfl
  | _ => rfl

/-- What becomes of trees that get tags anew: the tags are those from the first free one on, each tag that was
replaced is one of the trees, and the trees keep what lasts. -/
structure Retagged (ns : List Node) (s : Tagging) (r : List Node × Tagging) : Prop where
  next : s.next ≤ r.2.next
  tags : ∀ n ∈ r.1, Everywhere (Between s.next r.2.next) n
  renamed : ∀ {q : Nat → Prop}, (∀ n ∈ ns, n.TagsIn q) → ∀ e ∈ r.2.renamed, e ∈ s.renamed ∨ q e.1 ∧ s.next ≤ e.2
  lasts : ∀ {p : Node → Prop}, Lasting p → (∀ n ∈ ns, Everywhere p n) → ∀ n ∈ r.1, Everywhere p n

theorem Everywhere.widen {b c b' c' : Nat} {n : Node} (h : Everywhere (Between b c) n) (hb : b' ≤ b) (hc : c ≤ c') :
    Everywhere (Between b' c') n :=
  h.imp fun _ hm t ht ↦ ⟨hb.trans (hm t ht).1, (hm t ht).2.trans_le hc⟩

theorem Retagged.cons {n n' : Node} {ns : List Node} {s s' : Tagging} {r : List Node × Tagging}
    (h : Retagged [n] s ([n'], s')) (g : Retagged ns s' r) : Retagged (n :: ns) s (n' :: r.1, r.2) where
  next := h.next.trans g.next
  tags := forall_mem_cons.2 ⟨(h.tags n' (by simp)).widen le_rfl g.next, fun m hm ↦ (g.tags m hm).widen h.next le_rfl⟩
  renamed hn e he := by
    rw [forall_mem_cons] at hn
    obtain he | ⟨hq, hle⟩ := g.renamed hn.2 e he
    · exact h.renamed (by simpa using hn.1) e he
    · exact .inr ⟨hq, h.next.trans hle⟩
  lasts hp hn := by
    rw [forall_mem_cons] at hn
    exact forall_mem_cons.2 ⟨h.lasts hp (by simpa using hn.1) n' (by simp), g.lasts hp hn.2⟩

/-- Lists of trees get tags anew one after the other. -/
theorem retagged_list {ns : List Node} (h : ∀ n ∈ ns, ∀ s, Retagged [n] s ([(n.retag.run s).1], (n.retag.run s).2))
    (s : Tagging) : Retagged ns s ((retags ns).run s) := by
  induction ns generalizing s with
  | nil => exact ⟨le_rfl, forall_mem_nil _, fun _ _ he ↦ .inl he, fun _ h ↦ h⟩
  | cons n ns ih =>
    rw [forall_mem_cons] at h
    exact (h.1 s).cons (ih h.2 _)

theorem retagged_retag (n : Node) (s : Tagging) : Retagged [n] s ([(n.retag.run s).1], (n.retag.run s).2) := by
  induction n using parts_induction generalizing s with
  | _ n ih =>
    have h := retagged_list ih (n.tag?.elim s s.taken)
    rw [parts_retag] at h
    have hstart : s.next ≤ (n.tag?.elim s s.taken).next := by cases n.tag? <;> simp
    refine ⟨hstart.trans h.next, forall_mem_singleton.2 (everywhere_iff.2 ⟨fun t ht ↦ ?_, fun c hc ↦ ?_⟩),
      fun hn e he ↦ ?_, fun hp hn ↦ forall_mem_singleton.2 ?_⟩
    · rw [tag?_retag] at ht
      obtain ⟨old, hold, rfl⟩ := Option.map_eq_some_iff.1 ht
      rw [hold] at h
      exact ⟨le_rfl, h.next⟩
    · exact (h.tags c hc).widen hstart le_rfl
    · obtain ⟨hself, hparts⟩ := everywhere_iff.1 (forall_mem_singleton.1 hn)
      obtain he | ⟨hq, hle⟩ := h.renamed hparts e he
      · cases ht : n.tag? with
        | none =>
          rw [ht] at he
          exact .inl he
        | some t =>
          rw [ht] at he
          obtain rfl | he := mem_cons.1 he
          · exact .inr ⟨hself t ht, le_rfl⟩
          · exact .inl he
      · exact .inr ⟨hq, hstart.trans hle⟩
    · have hn := everywhere_iff.1 (forall_mem_singleton.1 hn)
      exact everywhere_iff.2 ⟨hp.retag n s hn.1, h.lasts hp hn.2⟩

theorem retagged_retags (ns : List Node) (s : Tagging) : Retagged ns s ((retags ns).run s) :=
  retagged_list (fun n _ ↦ retagged_retag n) s

theorem next_retag (s : Tagging) (n : Node) : s.next ≤ (n.retag.run s).2.next := (retagged_retag n s).next

theorem tagsIn_retag (n : Node) (s : Tagging) : Everywhere (Between s.next (n.retag.run s).2.next) (n.retag.run s).1 :=
  (retagged_retag n s).tags _ (mem_singleton_self _)

end Node

namespace Workspace

/-- Copies of regular trees are regular. -/
theorem copied_keeps {p : Node → Prop} (hp : Node.Lasting p) {P : Workspace → Prop}
    (hP : ∀ (w : Workspace) n cs, P w → P { w with nextTag := n, clauses := w.clauses ++ cs })
    {ns : List Node} (h : ∀ n ∈ ns, n.Everywhere p) : Keeps P (copied ns) fun ns' ↦ ∀ n ∈ ns', n.Everywhere p := by
  intro w ns' w' hw hg
  simp only [copied, Gives.bind_iff, Gives.get_iff] at hg
  obtain ⟨_, _, ⟨rfl, rfl⟩, _, _, rfl, rfl, rfl⟩ := hg
  refine ⟨hP _ _ _ hw, ?_⟩
  refine (Node.retagged_retags _ _).lasts hp ?_
  rw [Node.completes_eq_map, forall_mem_map]
  exact fun n hn ↦ Node.everywhere_complete hp.toCompletable _ (h n hn)

end Workspace

end QueryEquiv
