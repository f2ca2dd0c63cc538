import QueryEquiv.Proofs.Asking
import QueryEquiv.Proofs.Loading
import QueryEquiv.Proofs.Outputs

/-!
# Workspaces between comparisons

A comparison works on a copy of the workspace and clears the workspace when it has come to an end. So
before every comparison, however many there were, the workspace is as good as new: no clause that is
still to come has anything in common with an earlier one (`Opened.fresh`). When two queries are encoded in
it, the label of the last clause belongs to the result of the second.
-/

namespace QueryEquiv

open Node Leads Formulas Gives List Workspace Inquiry

/-! ## Workspaces that are as good as new -/

/-- The numbers and tags of clauses that are still to come are in no use, and the formulas are in order. -/
structure Fresh (w : Workspace) : Prop where
  numbers : ∀ l ∈ w.formulas.labels, ∀ n, Numbered n l → n ≤ w.formulas.clauseCount
  tags : ∀ e ∈ w.clauses, e.1 < w.nextTag
  unsettled : w.settled = false
  tidy : Tidy w

namespace Fresh

variable {w v : Workspace}

theorem of_unencoded (h : Fresh w) (hv : Unencoded w v) : Fresh v := by
  obtain ⟨hf, hc, ht, hs⟩ := hv
  exact ⟨hf ▸ h.numbers, by rw [hc, ht]; exact h.tags, hs.trans h.unsettled, h.tidy.of_eq (hf ▸ ⟨rfl, rfl, rfl⟩)⟩

theorem moves_unencoded {α : Type} {x : Encoding α} (hx : Moves Unencoded x) : Moves (Preserves Fresh) x :=
  fun w h ↦ h.of_unencoded (hx w)

theorem emptied (h : Fresh w) {t : Value} (hf : v.formulas = { timeout := t }) (hc : v.clauses = w.clauses)
    (ht : v.nextTag = w.nextTag) (hs : v.settled = w.settled) : Fresh v := by
  refine ⟨?_, by rw [hc, ht]; exact h.tags, hs.trans h.unsettled, ?_, ?_⟩ <;> rw [hf]
  · simp [labels]
  · simp [labels]

theorem not_numbered_ic (n : Nat) : ¬ Numbered n "ic" := fun h ↦ absurd h.head? (by decide)

theorem loadConstraints_moves : Moves (Preserves Fresh) loadConstraints := by
  refine Moves.get.bind fun v ↦ (moves_unencoded (Unencoded.lenient.encode_moves _)).bind fun f w h ↦ ?_
  refine ⟨fun l hl n hn ↦ ?_, h.tags, h.unsettled, nodup_labels_append h.tidy.nodup, ?_⟩
  · obtain hl | rfl := mem_labels_append hl
    · exact (h.numbers l hl n hn).trans_eq (clauseCount_append _ _ _).symm
    · exact absurd hn (not_numbered_ic n)
  · exact (written_append _ _ _).trans h.tidy.unwritten

/-- A workspace that is cleared is as good as new, even if clearing fails half-way. -/
theorem clear_moves : Moves (Preserves Fresh) clear :=
  Moves.bind (fun _ h ↦ h.emptied rfl rfl rfl rfl) fun _ ↦ (moves_unencoded Unencoded.loadSchema_moves).bind fun _ ↦
    loadConstraints_moves.bind fun _ ↦ fun _ h ↦ h.of_unencoded ⟨rfl, rfl, rfl, rfl⟩

theorem start {schema : Value} {constraints : List Value} {bound timeBudget sizes : Value} {u : Unit}
    (h : Gives (start schema constraints bound timeBudget sizes) w u v) : Fresh v := by
  have new : Fresh {} := ⟨by simp [labels], by simp, rfl, by simp [labels], rfl⟩
  obtain ⟨_, w₁, h₁, h⟩ := bind_iff.1 h
  obtain rfl := set_iff.1 h₁
  have hw : Fresh { schema, constraints, bound, timeBudget, formulas := { timeout := timeBudget } } :=
    new.emptied rfl rfl rfl rfl
  obtain ⟨_, w₂, h₂, h⟩ := bind_iff.1 h
  have hw₂ := ((moves_unencoded Unencoded.loadSchema_moves).keeps hw h₂).1
  obtain ⟨_, w₃, h₃, h⟩ := bind_iff.1 h
  obtain rfl := modify_iff.1 h₃
  refine (loadConstraints_moves.keeps ?_ h).1
  exact hw₂.of_unencoded ⟨rfl, rfl, rfl, rfl⟩

theorem tagged_moves (n : Node) : Moves (Preserves Fresh) (tagged n) :=
  fun w h ↦ ⟨h.numbers, fun e he ↦ (h.tags e he).trans_le (next_retag { next := w.nextTag } n), h.unsettled,
    h.tidy.of_eq ⟨rfl, rfl, rfl⟩⟩

end Fresh

/-! ## Comparisons -/

section Comparisons

/-- The workspace is as good as new. -/
def FreshAt (a : Asking) : Prop := Fresh a.workspace

theorem encoding_fresh {α : Type} {x : Encoding α} (h : Moves (Preserves Fresh) x) :
    Leads FreshAt FreshAt (encoding x) fun _ ↦ FreshAt := by
  refine .encoding fun a ha ↦ ?_
  have := h a.workspace ha
  rcases hr : exec x a.workspace with ⟨e | v, w⟩ <;> rw [hr] at this
  · exact this
  · exact this

theorem readQueries_fresh (queries : List String) :
    Leads FreshAt FreshAt (Verdict.readQueries queries) fun _ ↦ FreshAt :=
  (mapM fun _ _ ↦ .dialogue (fun _ _ _ h ↦ h) fun _ _ h ↦ h).bind fun _ ↦
    (mapM fun _ _ ↦ .lift (fun _ _ _ h ↦ h) fun _ h ↦ h).bind fun _ ↦
    mapM fun n _ ↦ encoding_fresh (Fresh.tagged_moves n)

/-- A comparison works on a copy. -/
theorem run_fresh (m : Manner) (task : Inquiry Unit) :
    Leads FreshAt FreshAt (Verdict.run m task) fun _ ↦ FreshAt := by
  refine bind (Q := fun _ ↦ FreshAt) (fun a ha ↦ ha) fun _ ↦ ?_
  split
  · exact fun a ha ↦ ha
  · refine bind (Q := fun saved _ ↦ Fresh saved) (fun a ha ↦ ha) fun saved ↦ ?_
    refine bind (Q := fun _ _ ↦ Fresh saved) (.attempt fun _ h ↦ h) fun _ ↦ ?_
    exact bind (Q := fun _ _ ↦ Fresh saved) (fun a ha ↦ ha) fun _ ↦
      .modify fun a ha ↦ ha.of_unencoded ⟨rfl, rfl, rfl, rfl⟩

theorem check_fresh (m : Manner) (x y : String) : Leads FreshAt FreshAt (Verdict.check m x y) fun _ ↦ FreshAt := by
  refine (readQueries_fresh _).bind fun _ ↦ (run_fresh m _).bind fun _ ↦
    bind (Q := fun _ ↦ FreshAt) (.get fun _ h ↦ h) fun b ↦ ?_
  dsimp only
  split
  · exact .throw fun _ h ↦ h
  · exact .pure fun _ h ↦ h
  · exact (encoding_fresh Fresh.clear_moves).bind fun _ ↦ .pure fun _ h ↦ h

theorem disambiguate_fresh (m : Manner) (queries : List String) (tolerance : Value) :
    Leads FreshAt FreshAt (Verdict.disambiguate m queries tolerance) fun _ ↦ FreshAt := by
  refine (readQueries_fresh _).bind fun _ ↦ (run_fresh m _).bind fun _ ↦
    bind (Q := fun _ ↦ FreshAt) (.get fun _ h ↦ h) fun b ↦ ?_
  dsimp only
  split
  · split
    · exact (encoding_fresh Fresh.clear_moves).bind fun _ ↦ .pure fun _ h ↦ h
    · exact .throw fun _ h ↦ h
  · exact .throw fun _ h ↦ h

end Comparisons

/-- The workspaces that can be there before a comparison: one that was started, and one that a comparison or a
disambiguation has left behind, whatever came of it. -/
inductive Opened : Workspace → Prop
  | start {schema : Value} {constraints : List Value} {bound timeBudget sizes : Value} {w v : Workspace} {u : Unit}
      (h : Gives (Workspace.start schema constraints bound timeBudget sizes) w u v) : Opened v
  | check {a : Asking} (h : Opened a.workspace) (m : Manner) (x y : String) :
      Opened (inquire (Verdict.check m x y) a).2.workspace
  | disambiguate {a : Asking} (h : Opened a.workspace) (m : Manner) (queries : List String) (tolerance : Value) :
      Opened (inquire (Verdict.disambiguate m queries tolerance) a).2.workspace

theorem Opened.fresh {w : Workspace} (h : Opened w) : Fresh w := by
  induction h with
  | start h => exact Fresh.start h
  | check _ m x y ih => exact (check_fresh m x y).state ih
  | disambiguate _ m queries tolerance ih => exact (disambiguate_fresh m queries tolerance).state ih

/-! ## Two queries that are encoded -/

section Pairs

variable {w w₁ w₂ v : Workspace} {q₁ q₂ n₁ n₂ : Node}

theorem tagged_gives {q n : Node} (h : Gives (tagged q) w n v) :
    n = (q.retag.run { next := w.nextTag }).1 ∧ v = { w with nextTag := (q.retag.run { next := w.nextTag }).2.next } := by
  obtain ⟨hn, hv⟩ := Prod.mk.inj h
  exact ⟨(Except.ok.inj hn).symm, hv.symm⟩

/-- Two results of which the second is not sorted are compared without any change. -/
theorem difference_gives {a b : Nat} {u : Unit} (hb : ((w.catalog.table b).mentionsIfAny "Sorted") = false)
    (h : Gives (Verdict.difference [a, b]) w u v) :
    ∃ t, v = { w with formulas := w.formulas.append t (some "neq") } := by
  obtain ⟨f, w₁, hf, h⟩ := bind_iff.1 h
  obtain rfl := modify_iff.1 h
  simp only [Results.equal, bind_iff, table_gives, lift_iff] at hf
  obtain ⟨_, _, ⟨rfl, rfl⟩, _, _, ⟨rfl, rfl⟩, s, _, ⟨-, rfl⟩, r, _, ⟨-, rfl⟩, hf⟩ := hf
  rw [hb, Bool.and_false] at hf
  split at hf
  · obtain ⟨rfl, rfl⟩ := pure_iff.1 hf
    exact ⟨_, rfl⟩
  · obtain ⟨rfl, rfl⟩ := pure_iff.1 hf
    exact ⟨_, rfl⟩

/-- Two texts are read one after the other, and the trees get their tags in the same order. -/
theorem readQueries_gives {x y : String} {a b : Asking} {ns : List Node}
    (h : inquire (Verdict.readQueries [x, y]) a = (.ok ns, b)) :
    ∃ q₁ q₂ n₁ n₂ w, ns = [n₁, n₂] ∧ q₁.hasResult = true ∧ q₂.hasResult = true ∧ Gives (tagged q₁) a.workspace n₁ w ∧
      Gives (tagged q₂) w n₂ b.workspace := by
  simp only [Verdict.readQueries, mapM_cons, mapM_nil, bind_assoc, pure_bind] at h
  obtain ⟨t₁, a₁, ht₁, h⟩ := inquire_bind_ok.1 h
  obtain ⟨t₂, a₂, ht₂, h⟩ := inquire_bind_ok.1 h
  obtain ⟨q₁, a₃, hq₁, h⟩ := inquire_bind_ok.1 h
  obtain ⟨q₂, a₄, hq₂, h⟩ := inquire_bind_ok.1 h
  obtain ⟨n₁, a₅, hn₁, h⟩ := inquire_bind_ok.1 h
  obtain ⟨n₂, a₆, hn₂, h⟩ := inquire_bind_ok.1 h
  obtain ⟨hns, rfl⟩ := Prod.mk.inj h
  obtain ⟨hread₁, rfl⟩ := inquire_lift_ok.1 hq₁
  obtain ⟨hread₂, rfl⟩ := inquire_lift_ok.1 hq₂
  have hw : a₄.workspace = a.workspace := (workspace_of_dialogue ht₂).trans (workspace_of_dialogue ht₁)
  exact ⟨q₁, q₂, n₁, n₂, a₅.workspace, (Except.ok.inj hns).symm, readQuery_yields _ _ _ hread₁,
    readQuery_yields _ _ _ hread₂, hw ▸ gives_of_encoding hn₁, gives_of_encoding hn₂⟩

/-- Two queries have tags that are new, and different from each other. -/
theorem tagged_orderly (hw : Fresh w) (h₁ : Gives (tagged q₁) w n₁ w₁) (h₂ : Gives (tagged q₂) w₁ n₂ w₂) :
    n₁.TagsIn (fun t ↦ w.nextTag ≤ t ∧ ¬ (w₁.nextTag ≤ t ∧ t < w₂.nextTag)) ∧
      n₂.TagsIn (fun t ↦ w₁.nextTag ≤ t ∧ t < w₂.nextTag) ∧ w.nextTag ≤ w₁.nextTag ∧
      Orderly w.nextTag (fun t ↦ w.nextTag ≤ t ∧ t < w₂.nextTag) (fun _ ↦ False) w₂ := by
  obtain ⟨rfl, rfl⟩ := tagged_gives h₁
  obtain ⟨rfl, rfl⟩ := tagged_gives h₂
  have hnext₁ := next_retag { next := w.nextTag } q₁
  have hnext₂ := next_retag { next := (q₁.retag.run { next := w.nextTag }).2.next } q₂
  refine ⟨?_, tagsIn_retag q₂ { next := _ }, hnext₁, ?_⟩
  · refine (tagsIn_retag q₁ { next := w.nextTag }).imp fun m hm t ht ↦ ?_
    exact ⟨(hm t ht).1, fun h ↦ Nat.not_lt.2 h.1 (hm t ht).2⟩
  · exact ⟨hw.numbers, fun e he hle ↦ absurd (hw.tags e he) (Nat.not_lt.2 hle), fun _ h ↦ h.elim,
      ⟨hnext₁.trans hnext₂, fun t ht ↦ ht.2⟩, fun e he h ↦ Nat.not_lt.2 h.1 (hw.tags e he), hw.unsettled⟩

theorem encodeQueries_tidy (ns : List Node) : Guards Tidy (Verdict.encodeQueries ns) := by
  refine (Keeps.mapM (S := fun _ ↦ True) fun n _ ↦ ?_).bind fun _ _ ↦
    (Keeps.modify fun _ h ↦ h.of_eq ⟨rfl, rfl, rfl⟩).bind fun _ _ ↦ .pure trivial
  exact (Keeps.modify fun _ h ↦ h.of_eq ⟨rfl, rfl, rfl⟩).bind fun _ _ ↦
    Tidy.clerking.query (F := fun _ ↦ False) (everywhere_of_forall (fun _ _ _ ↦ trivial) _)

/-- The tags of a tree, of which the clause of its result has one for itself. -/
theorem tagged_rooted {q n : Node} (hq : q.hasResult = true) (h : Gives (tagged q) w n v) :
    (∃ root, w.nextTag ≤ root ∧ root < v.nextTag ∧ n.Rooted (fun t ↦ w.nextTag ≤ t ∧ t ≠ root) root) ∧
      n.TagsIn fun t ↦ w.nextTag ≤ t ∧ t < v.nextTag := by
  obtain ⟨rfl, rfl⟩ := tagged_gives h
  exact ⟨rooted_retag hq { next := w.nextTag }, tagsIn_retag q { next := _ }⟩

/-- When two queries are encoded in a workspace that is as good as new, the last label of a clause is that of the
second result. -/
theorem encodePair_gives {outputs : List Nat} (hw : Fresh w) (hq : q₂.hasResult = true)
    (h₁ : Gives (tagged q₁) w n₁ w₁) (h₂ : Gives (tagged q₂) w₁ n₂ w₂) (h : Gives (do
      let outputs ← Verdict.encodeQueries [n₁, n₂]
      Verdict.difference outputs
      return outputs) w₂ outputs v) :
    ∃ o₁ o₂ before l, outputs = [o₁, o₂] ∧ v.formulas.labels.filter Search.ofClause = before ++ [l] ∧ l ∉ before ∧
      Search.resultLabel (v.catalog.table o₂) = .ok (some l) ∧ Tidy v := by
  obtain ⟨htags₁, htags₂, hnext, horderly⟩ := tagged_orderly hw h₁ h₂
  have htidy : Tidy w₂ := ((Fresh.tagged_moves q₂).keeps ((Fresh.tagged_moves q₁).keeps hw h₁).1 h₂).1.tidy
  obtain ⟨⟨root, hle, hlt, hrooted⟩, -⟩ := tagged_rooted hq h₂
  obtain ⟨os, w₃, hencode, h⟩ := bind_iff.1 h
  obtain ⟨_, w₄, hdiffer, h⟩ := bind_iff.1 h
  obtain ⟨rfl, rfl⟩ := pure_iff.1 h
  obtain ⟨o₁, o₂, rfl, l, hl, -, hconcluded⟩ :=
    Verdict.encodeQueries_concludes htags₁ hrooted hnext hle ⟨hle, hlt⟩ htags₂.here
      (horderly.imp fun t ht ↦ ⟨hnext.trans ht.1, ht.2⟩) hencode
  obtain ⟨before, hlabels, hnew⟩ := hconcluded.last
  obtain ⟨lineage, hlineage, hS⟩ := hconcluded.lineage
  obtain ⟨t, rfl⟩ := difference_gives (by
    rw [Table.mentionsIfAny, hlineage]
    exact Text.occursIn_eq_false 'S' (by decide) hS) hdiffer
  have htidy := (encodeQueries_tidy _ htidy hencode).1
  refine ⟨o₁, o₂, before.filter Search.ofClause, l, rfl, ?_, fun h ↦ hnew (mem_filter.1 h).1, hconcluded.result,
    nodup_labels_append htidy.nodup, (written_append _ _ _).trans htidy.unwritten⟩
  -- The label of the difference is not that of a clause.
  have hneq : Search.ofClause "neq" = false := by decide +kernel
  dsimp only
  rw [labels_append, target, Option.getD_some]
  split
  · rw [hlabels, filter_append, filter_singleton, hl]
    rfl
  · rw [hlabels, filter_append, filter_append, filter_singleton, filter_singleton, hl, hneq]
    simp

end Pairs

end QueryEquiv
