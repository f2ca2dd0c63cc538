import QueryEquiv.Proofs.Scripts

/-!
# Texts that are kept

The text of a formula that belongs to a clause, a table or the goal is written once and kept. A formula that is added
under its label later joins what stands there, and the text stays. So a script has under each label the formula of the
label as it is, unless it was added to after its text had been kept; then it has the formula of that time.
-/

namespace QueryEquiv

open Formulas List Search

/-- The labels that are outgrown when a formula is added: the one that it is added under, if it has a text. -/
def Formulas.outgrow (fs : Formulas) (label : Option String) (outgrown : List String) : List String :=
  if fs.target label ∈ fs.written.map Prod.fst then fs.target label :: outgrown else outgrown

/-- Formulas that came about by any sequence of additions, decisions, conflicts learned, changes of the labels that are
considered, and scripts, whether these fail or not; with the labels that were added to after their texts had been
kept. -/
inductive Edited : List String → Workspace → Prop
  | empty {w : Workspace} (entries : w.formulas.entries = []) (written : w.formulas.written = []) : Edited [] w
  | append {outgrown : List String} {w : Workspace} (h : Edited outgrown w) (t : Term) (label : Option String) :
      Edited (w.formulas.outgrow label outgrown) (exec (Workspace.append t label) w).2
  | decide {outgrown : List String} {w : Workspace} (h : Edited outgrown w) (under : List (Int × Choices)) :
      Edited outgrown (exec (Workspace.changeFormulas fun fs ↦ assertDecisions { fs with under }) w).2
  | learn {outgrown : List String} {w : Workspace} (h : Edited outgrown w) (core : List String) :
      Edited outgrown (exec (Search.learn core) w).2
  | consider {outgrown : List String} {w : Workspace} (h : Edited outgrown w) (considered : Considered) :
      Edited outgrown (exec (Workspace.changeFormulas ({ · with considered })) w).2
  | script {outgrown : List String} {w : Workspace} (h : Edited outgrown w) :
      Edited outgrown (exec Search.script w).2

variable {outgrown : List String}

theorem Faithful.append {fs : Formulas} (h : Faithful outgrown fs.entries fs.written) (t : Term) (label : Option String) :
    Faithful (fs.outgrow label outgrown) (fs.append t label).entries (fs.append t label).written := by
  rw [written_append]
  unfold outgrow
  generalize hadded : fs.target label = added
  refine ⟨nodup_labels_append h.nodup, h.kept, fun e he ↦ ?_, fun l hl ↦ ?_⟩
  · obtain ⟨f, hf, hlabel, u, hu, htext⟩ := h.texts e he
    rw [entries_append, hadded]
    by_cases hadded : f.label = added
    · -- The formula is replaced by its conjunction with the new one.
      have hfind : fs.find? added = some f.term := by
        cases hfind : fs.entries.find? (·.label == added) with
        | none => exact absurd hadded (by simpa using List.find?_eq_none.1 hfind f hf)
        | some g =>
          have hg : g.label = f.label := by simpa [hadded] using List.find?_some hfind
          rw [Formulas.find?, hfind, inj_on_of_nodup_map h.nodup (mem_of_find?_eq_some hfind) hf hg]
          rfl
      have hmem : added ∈ fs.written.map Prod.fst := mem_map.2 ⟨e, he, hlabel.symm.trans hadded⟩
      refine ⟨_, mem_replace_self _ _, hadded.symm.trans hlabel, u, ?_, htext⟩
      change Stands _ ⟨added, (fs.find? added).elim t (.and [·, t]), fs.nextStamp⟩ u
      rw [hfind, if_pos hmem, Stands, if_pos mem_cons_self]
      rw [Stands] at hu
      split at hu
      · exact .tail hu ⟨t, rfl⟩
      · exact hu ▸ .single ⟨t, rfl⟩
    · refine ⟨f, (mem_replace hf).resolve_right fun hfind ↦ ?_, hlabel, u, ?_, htext⟩
      · exact hadded (by simpa using List.find?_some hfind)
      · split
        · simpa [Stands, hadded] using hu
        · exact hu
  · split at hl
    · exact (mem_cons.1 hl).elim (fun hl ↦ hl ▸ ‹_›) (h.known l)
    · exact h.known l hl

theorem Edited.faithful {w : Workspace} (h : Edited outgrown w) :
    Faithful outgrown w.formulas.entries w.formulas.written := by
  induction h with
  | empty hentries hwritten => rw [hentries, hwritten]; exact ⟨.nil, nofun, nofun, nofun⟩
  | append _ t label ih => exact ih.append t label
  | @decide _ w _ under ih => exact @Faithful.assertDecisions _ { w.formulas with under } ih
  | @learn _ w _ core ih =>
    obtain ⟨hentries, hwritten, -⟩ := Apart.learn_moves core w
    rwa [hentries, hwritten]
  | consider _ _ ih => exact ih
  | @script _ w _ ih =>
    obtain ⟨⟨written, hv⟩, hfaithful⟩ := (script_delivers w ⟨⟨_, rfl⟩, ih⟩).1
    rwa [hv] at hfaithful ⊢

/-- A script has one assertion for each formula that is asserted and one for each conflict learned, and nothing else.
Under a label that was not outgrown it asserts the formula of the label, and under one that was it asserts what that
formula has grown from, without what was added since. -/
theorem script_stands {w w' : Workspace} (h : Edited outgrown w) {text : String} (hg : Gives script w text w') :
    w.formulas.labels.Nodup ∧ Prints outgrown w.formulas text :=
  ⟨h.faithful.nodup, (script_delivers w ⟨⟨_, rfl⟩, h.faithful⟩).2 text (congrArg Prod.fst hg)⟩

/-- The goal is asserted, and added to after a script was written. -/
def regrown : Workspace :=
  (exec (do
    Workspace.append (.bool (.bool true)) (some "neq")
    let _ ← script
    Workspace.append (.bool (.bool false)) (some "neq")) {}).2

theorem regrown_stands : Edited ["neq"] regrown ∧ regrown.formulas.labels.Nodup ∧
    Prints ["neq"] regrown.formulas "\n(assert (! true :named neq))" := by
  have h : Edited ["neq"] regrown := by
    have := (((Edited.empty (w := {}) rfl rfl).append (.bool (.bool true)) (some "neq")).script).append
      (.bool (.bool false)) (some "neq")
    rwa [show outgrow _ _ _ = ["neq"] by decide +kernel] at this
  exact ⟨h, script_stands h (.of_toOption (by decide +kernel))⟩

end QueryEquiv
