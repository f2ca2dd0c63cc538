import QueryEquiv.Proofs.Conflicts
import QueryEquiv.Proofs.Enduring

/-!
# Numbers of clauses

A clause is numbered before it is carried out, and its number is part of its labels. No two clauses have
the same number, so nothing else is added under the labels of a clause. Of the clauses that may be the last
of a query this is shown in two steps. As long as a clause waits for its number, all numbers in use are
at most the number of clauses so far (`Orderly`); from then on its number is in no other label (`Spare`).
-/

namespace QueryEquiv

open Formulas List Workspace String Nat

variable {tag : Nat} {cs : List (Nat × ClauseState)}

/-! ## Labels with numbers -/

/-- A label of a clause that a query can end with, of a number. -/
inductive Numbered (n : Nat) : String → Prop
  | of {kind : String} (h : kind ∈ ["project", "union", "distinct"]) : Numbered n s!"{kind}${n}"

namespace Numbered

variable {n m : Nat} {l : String}

theorem distinct : Numbered n s!"distinct${n}" := .of (by simp : "distinct" ∈ _)

/-- What stands before the number, and the number, are found again. -/
theorem label_inj {kind name : String} (hk : '$' ∉ kind.toList)
    (h : s!"{kind}${n}" = s!"{name}${m}") : kind = name ∧ n = m := by
  have hdigits : '$' ∉ n.repr.toList := by
    rw [toList_repr]
    intro hmem
    exact absurd (isDigit_of_mem_toDigits (by decide) (by decide) hmem) (by decide)
  have hlist : kind.toList ++ '$' :: n.repr.toList = name.toList ++ '$' :: m.repr.toList := by
    have := congrArg toList h
    change (kind ++ "$" ++ n.repr).toList = (name ++ "$" ++ m.repr).toList at this
    simpa [toList_append] using this
  obtain ⟨hname, -, hnum⟩ := (append_cons_inj_of_notMem hk hdigits).1 hlist
  have hread := congrArg (fun ds ↦ ofDigitChars 10 ds 0) hnum
  exact ⟨toList_inj.1 hname, by simpa [toList_repr] using hread⟩

theorem eq_of_label {name : String} (h : Numbered n s!"{name}${m}") : n = m := by
  generalize hl : s!"{name}${m}" = l at h
  obtain ⟨hk⟩ := h
  refine (label_inj ?_ hl.symm).2
  revert hk
  simp only [mem_cons, not_mem_nil, or_false]
  rintro (rfl | rfl | rfl) <;> decide

/-- A label begins like one of three words. -/
theorem head? (h : Numbered n l) : l.toList.head? ∈ [some 'p', some 'u', some 'd'] := by
  obtain ⟨hk⟩ := h
  simp only [mem_cons, not_mem_nil, or_false] at hk
  obtain rfl | rfl | rfl := hk <;> simp [toList_append, toString]

theorem not_unclaimed (h : Unclaimed l) : ¬ Numbered n l := by
  intro hn
  have := hn.head?
  cases h <;> simp [toList_append, toString] at this

theorem not_made_up {k : Nat} : ¬ Numbered n s!"f_{k}" := by
  intro hn
  have := hn.head?
  simp [toList_append, toString] at this

end Numbered

/-! ## Labels of formulas -/

namespace Formulas

theorem labels_replace (f : Formula) (es : List Formula) : (replace f es).map (·.label) =
      if f.label ∈ es.map (·.label) then es.map (·.label) else es.map (·.label) ++ [f.label] := by
  induction es with
  | nil => simp [replace]
  | cons g es ih =>
    unfold replace
    by_cases hg : g.label = f.label
    · simp [hg]
    · have hne : ¬ f.label = g.label := fun h ↦ hg h.symm
      rw [if_neg (by simpa using hg), map_cons, ih]
      simp only [map_cons, mem_cons, hne, false_or]
      split <;> rfl

theorem nodup_replace (f : Formula) {es : List Formula} (h : (es.map (·.label)).Nodup) :
    ((replace f es).map (·.label)).Nodup := by
  rw [labels_replace]
  split
  · exact h
  · rename_i hl
    rw [nodup_append]
    exact ⟨h, by simp, fun a ha b hb hab ↦ hl (by rwa [← mem_singleton.1 hb, ← hab])⟩

theorem mem_replace_self (f : Formula) (es : List Formula) : f ∈ replace f es := by
  induction es with
  | nil => exact mem_cons_self
  | cons e es ih =>
    unfold replace
    split
    · exact mem_cons_self
    · exact mem_cons_of_mem _ ih

theorem mem_replace {f g : Formula} {es : List Formula} (h : g ∈ es) :
    g ∈ replace f es ∨ es.find? (fun e ↦ e.label == f.label) = some g := by
  induction es with
  | nil => cases h
  | cons e es ih =>
    unfold replace
    rw [List.find?_cons]
    cases he : e.label == f.label with
    | true =>
      obtain rfl | h := mem_cons.1 h
      · exact .inr rfl
      · exact .inl (mem_cons_of_mem _ h)
    | false =>
      obtain rfl | h := mem_cons.1 h
      · exact .inl mem_cons_self
      · exact (ih h).imp_left (mem_cons_of_mem _)

def target (fs : Formulas) (label : Option String) : String := label.getD s!"f_{fs.unnamed}"

variable (fs : Formulas) (t : Term) (label : Option String)

/-- A formula is added to what stands under its label. -/
theorem entries_append : (fs.append t label).entries =
      replace ⟨fs.target label, (fs.find? (fs.target label)).elim t (.and [·, t]), fs.nextStamp⟩ fs.entries := by
  cases label with
  | some l =>
    simp only [append, target, Option.getD_some]
    cases fs.find? l <;> rfl
  | none =>
    simp only [append, target, Option.getD_none]
    rw [show find? { fs with unnamed := fs.unnamed + 1 } _ = fs.find? _ from rfl]
    cases fs.find? s!"f_{fs.unnamed}" <;> rfl

/-- A formula is added under its label, and a new label comes last. -/
theorem labels_append : (fs.append t label).labels =
      if fs.target label ∈ fs.labels then fs.labels else fs.labels ++ [fs.target label] := by
  rw [labels, entries_append]
  exact labels_replace _ _

@[simp] theorem clauseCount_append : (fs.append t label).clauseCount = fs.clauseCount := by
  unfold append
  split
  · split <;> rfl
  · dsimp only
    split <;> rfl

@[simp] theorem written_append : (fs.append t label).written = fs.written := by
  unfold append
  split
  · split <;> rfl
  · dsimp only
    split <;> rfl

variable {fs t label}

theorem mem_labels_append {l : String} (h : l ∈ (fs.append t label).labels) :
    l ∈ fs.labels ∨ l = fs.target label := by
  rw [labels_append] at h
  split at h
  · exact .inl h
  · simpa using h

/-- What is added under a label that is free, or under none, has no number of its own. -/
theorem numbered_target {F : String → Prop} {n : Nat}
    (h : ∀ l, label = some l → F l ∨ Unclaimed l) (hn : Numbered n (fs.target label)) : F (fs.target label) := by
  cases label with
  | some l => exact (h l rfl).resolve_right fun hu ↦ Numbered.not_unclaimed hu hn
  | none => exact absurd hn Numbered.not_made_up

theorem nodup_labels_append (h : fs.labels.Nodup) : (fs.append t label).labels.Nodup := by
  rw [labels, entries_append]
  exact nodup_replace _ h

end Formulas

/-! ## Clauses known by their tags -/

theorem mem_put_clause {c : ClauseState} {e : Nat × ClauseState}
    (h : e ∈ put tag c cs) : e = (tag, c) ∨ e ∈ cs := mem_put h

/-- A property of all labels of clauses of some tags, when one of them is looked up. -/
theorem labels_lookup {Q : Nat → Prop} {R : String → Prop} (h : ∀ e ∈ cs, Q e.1 → ∀ l ∈ e.2.labels, R l) (ht : Q tag) :
    ∀ l ∈ ((cs.lookup tag).getD {}).labels, R l := by
  intro l hl
  rcases hc : cs.lookup tag with _ | c
  · rw [hc] at hl
    cases hl
  · rw [hc] at hl
    exact h _ (mem_of_lookup hc) ht l hl

/-! ## Numbers in use -/

/-- The numbers in use are at most the number of clauses so far, and nothing is known of the clauses that are
reserved. Of the others only those count whose tags were taken from some tag on. -/
structure Orderly (since : Nat) (reserved : Nat → Prop) (F : String → Prop) (w : Workspace) : Prop where
  formulas : ∀ l ∈ w.formulas.labels, ∀ n, Numbered n l → n ≤ w.formulas.clauseCount
  clauses : ∀ e ∈ w.clauses, since ≤ e.1 → ∀ l ∈ e.2.labels, ∀ n, Numbered n l → n ≤ w.formulas.clauseCount
  held : ∀ l, F l → ∀ n, Numbered n l → n ≤ w.formulas.clauseCount
  tags : since ≤ w.nextTag ∧ ∀ t, reserved t → t < w.nextTag
  unknown : ∀ e ∈ w.clauses, ¬ reserved e.1
  unsettled : w.settled = false

namespace Orderly

variable {since : Nat} {reserved : Nat → Prop} {F : String → Prop} {w w' : Workspace}

/-- Only the formulas, the clauses and the tags matter. -/
theorem of_eq (h : Orderly since reserved F w) (hn : SameNotes w w') : Orderly since reserved F w' := by
  have hcount := hn.formulas.clauseCount
  refine ⟨?_, ?_, ?_, ?_, ?_, ?_⟩
  · rw [labels, hn.formulas.entries, hcount]
    exact h.formulas
  · rw [hn.clauses, hcount]
    exact h.clauses
  · rw [hcount]
    exact h.held
  · rw [hn.nextTag]
    exact h.tags
  · rw [hn.clauses]
    exact h.unknown
  · rw [hn.settled]
    exact h.unsettled

theorem clerking (since : Nat) (reserved : Nat → Prop) :
    Clerking (Orderly since reserved) fun t ↦ since ≤ t ∧ ¬ reserved t where
  drop hFG h := ⟨h.formulas, h.clauses, fun l hl ↦ h.held l (hFG l hl), h.tags, h.unknown, h.unsettled⟩
  append t label hl h := by
    refine ⟨fun l hm n hn ↦ ?_, ?_, ?_, h.tags, h.unknown, h.unsettled⟩
    · rw [clauseCount_append]
      obtain hm | rfl := mem_labels_append hm
      · exact h.formulas l hm n hn
      · exact h.held _ (numbered_target hl hn) n hn
    · simpa using h.clauses
    · simpa using h.held
  formulas hf _ h := h.of_eq ⟨hf, rfl, rfl, rfl⟩
  number h := by
    refine ⟨fun l hm n hn ↦ (h.formulas l hm n hn).trans (le_succ _),
      fun e he ht l hm n hn ↦ (h.clauses e he ht l hm n hn).trans (le_succ _), ?_, h.tags, h.unknown, h.unsettled⟩
    rintro l (hl | ⟨name, -, rfl⟩) n hn
    · exact (h.held l hl n hn).trans (le_succ _)
    · exact (Numbered.eq_of_label hn).le
  clause h ht := by
    refine ⟨h.formulas, h.clauses, ?_, h.tags, h.unknown, h.unsettled⟩
    rintro l (hl | hl) n hn
    · exact h.held l hl n hn
    · exact labels_lookup (R := fun l ↦ ∀ n, Numbered n l → _) h.clauses ht.1 l hl n hn
  changeClause ht hf h := by
    refine ⟨h.formulas, fun e he hte l hm n hn ↦ ?_, h.held, h.tags, fun e he ↦ ?_, h.unsettled⟩
    · obtain rfl | he := mem_put_clause he
      · obtain hm | hm := hf _ l hm
        · exact labels_lookup (R := fun l ↦ ∀ n, Numbered n l → _) h.clauses ht.1 l hm n hn
        · exact h.held l hm n hn
      · exact h.clauses e he hte l hm n hn
    · obtain rfl | he := mem_put_clause he
      · exact ht.2
      · exact h.unknown e he
  retag hnext hcs h := by
    refine ⟨h.formulas, fun e he hte l hm n hn ↦ ?_, h.held,
      ⟨h.tags.1.trans hnext, fun t ht ↦ (h.tags.2 t ht).trans_le hnext⟩, fun e he hr ↦ ?_, h.unsettled⟩
    · obtain he | he := mem_append.1 he
      · exact h.clauses e he hte l hm n hn
      · obtain ⟨-, t, ht, hlookup⟩ := hcs e he
        exact h.clauses _ (mem_of_lookup hlookup) ht.1 l hm n hn
    · obtain he | he := mem_append.1 he
      · exact h.unknown e he hr
      · exact absurd (h.tags.2 _ hr) (not_lt.2 (hcs e he).1)
  own h ht := ⟨h.tags.1.trans ht, fun hr ↦ absurd (h.tags.2 _ hr) (not_lt.2 ht)⟩
  same h hn := h.of_eq hn

end Orderly

/-! ## A clause that waits -/

/-- A clause that has its labels and was not carried out yet. -/
structure Awaited where
  /-- The first of the tags that count. -/
  since : Nat
  tag : Nat
  number : Nat
  label : String
  distinct : Option String

/-- Nothing was added under the number of a clause that waits, and no other clause has it. -/
structure Spare (a : Awaited) (F : String → Prop) (w : Workspace) : Prop where
  formulas : ∀ l ∈ w.formulas.labels, ¬ Numbered a.number l
  clauses : ∀ e ∈ w.clauses, a.since ≤ e.1 ∧ e.1 ≠ a.tag → ∀ l ∈ e.2.labels, ¬ Numbered a.number l
  held : ∀ l, F l → ¬ Numbered a.number l
  count : a.number ≤ w.formulas.clauseCount
  tags : a.since ≤ w.nextTag ∧ a.tag < w.nextTag
  state : ∃ c, w.clauses.lookup a.tag = some c ∧ c.label = some a.label ∧ c.distinct = a.distinct

namespace Spare

variable {a : Awaited} {F : String → Prop} {w w' : Workspace}

/-- Only the formulas, the clauses and the tags matter. -/
theorem of_eq (h : Spare a F w) (hn : SameNotes w w') : Spare a F w' := by
  refine ⟨?_, ?_, h.held, ?_, ?_, ?_⟩
  · rw [labels, hn.formulas.entries]
    exact h.formulas
  · rw [hn.clauses]
    exact h.clauses
  · rw [hn.formulas.clauseCount]
    exact h.count
  · rw [hn.nextTag]
    exact h.tags
  · rw [hn.clauses]
    exact h.state

theorem clerking (a : Awaited) : Clerking (Spare a) fun t ↦ a.since ≤ t ∧ t ≠ a.tag where
  drop hFG h := ⟨h.formulas, h.clauses, fun l hl ↦ h.held l (hFG l hl), h.count, h.tags, h.state⟩
  append t label hl h := by
    refine ⟨fun l hm hn ↦ ?_, h.clauses, h.held, ?_, h.tags, h.state⟩
    · obtain hm | rfl := mem_labels_append hm
      · exact h.formulas l hm hn
      · exact h.held _ (numbered_target hl hn) hn
    · simpa using h.count
  formulas hf _ h := h.of_eq ⟨hf, rfl, rfl, rfl⟩
  number h := by
    refine ⟨h.formulas, h.clauses, ?_, h.count.trans (le_succ _), h.tags, h.state⟩
    rintro l (hl | ⟨name, -, rfl⟩) hn
    · exact h.held l hl hn
    · have := Numbered.eq_of_label hn
      have := h.count
      omega
  clause h ht := by
    refine ⟨h.formulas, h.clauses, ?_, h.count, h.tags, h.state⟩
    rintro l (hl | hl)
    · exact h.held l hl
    · exact labels_lookup (Q := fun t ↦ a.since ≤ t ∧ t ≠ a.tag) h.clauses ht l hl
  changeClause ht hf h := by
    refine ⟨h.formulas, fun e he hte l hm ↦ ?_, h.held, h.count, h.tags, ?_⟩
    · obtain rfl | he := mem_put_clause he
      · obtain hm | hm := hf _ l hm
        · exact labels_lookup (Q := fun t ↦ a.since ≤ t ∧ t ≠ a.tag) h.clauses ht l hm
        · exact h.held l hm
      · exact h.clauses e he hte l hm
    · rw [lookup_put, if_neg (by simpa using ht.2.symm)]
      exact h.state
  retag hnext hcs h := by
    refine ⟨h.formulas, fun e he hte l hm ↦ ?_, h.held, h.count, ?_, ?_⟩
    · obtain he | he := mem_append.1 he
      · exact h.clauses e he hte l hm
      · obtain ⟨-, t, ht, hlookup⟩ := hcs e he
        exact h.clauses _ (mem_of_lookup hlookup) ht l hm
    · exact ⟨h.tags.1.trans hnext, h.tags.2.trans_le hnext⟩
    · obtain ⟨c, hc, hl⟩ := h.state
      exact ⟨c, by rw [lookup_append, hc, Option.some_or], hl⟩
  own h ht := ⟨h.tags.1.trans ht, (h.tags.2.trans_le ht).ne'⟩
  same h hn := h.of_eq hn

end Spare

/-! ## Formulas that are in order -/

/-- Each formula has a label of its own, and no text is kept yet. -/
structure Tidy (w : Workspace) : Prop where
  nodup : w.formulas.labels.Nodup
  unwritten : w.formulas.written = []

namespace Tidy

variable {w w' : Workspace}

theorem of_eq (h : Tidy w) (hf : w'.formulas.Alike w.formulas) : Tidy w' :=
  ⟨by rw [labels, hf.entries]; exact h.nodup, hf.written.trans h.unwritten⟩

theorem clerking : Clerking (fun _ ↦ Tidy) fun _ ↦ True where
  drop _ h := h
  append t label _ h := ⟨nodup_labels_append h.nodup, by simpa using h.unwritten⟩
  formulas hf _ h := h.of_eq hf
  number h := ⟨h.nodup, h.unwritten⟩
  clause h _ := h
  changeClause _ _ h := ⟨h.nodup, h.unwritten⟩
  retag _ _ h := ⟨h.nodup, h.unwritten⟩
  own _ _ := trivial
  same h hn := h.of_eq hn.formulas

end Tidy

end QueryEquiv
