import QueryEquiv.Proofs.Numbering
import QueryEquiv.Proofs.Rounds

/-!
# What solvers are sent

The script of a check has an assertion for each formula that belongs to no clause, and for those of the
clauses that are considered. Some texts are kept when they are first written, and they are those of the
formulas as long as the formulas stay the same. Of the formulas, a search only changes the one for its own
decisions, whose text is not kept.
-/

namespace QueryEquiv

open Text List Search Inquiry String

/-! ## Texts of formulas -/

/-- One formula is what another has become when a third was added to it. -/
def Joined (t u : Term) : Prop := ∃ added, u = .and [t, added]

/-- What stands for a formula in a script: itself, or if others were added to it after its text was kept, what it was
then. -/
def Stands (outgrown : List String) (f : Formula) (t : Term) : Prop :=
  if f.label ∈ outgrown then Relation.TransGen Joined t f.term else t = f.term

/-- Each formula has a label of its own, and the texts that are kept stand for them. -/
structure Faithful (outgrown : List String) (entries : List Formula) (written : List (String × String)) : Prop where
  nodup : (entries.map (·.label)).Nodup
  kept : ∀ e ∈ written, isKept e.1 = true
  texts : ∀ e ∈ written, ∃ f ∈ entries, f.label = e.1 ∧ ∃ t, Stands outgrown f t ∧ t.scriptText = .ok e.2
  known : ∀ l ∈ outgrown, l ∈ written.map Prod.fst

def Line (t : Term) (label line : String) : Prop := ∃ text, t.scriptText = .ok text ∧ line = assertion label text

/-- A text has one assertion for each formula that is asserted and one for each conflict learned, and nothing else. -/
def Prints (outgrown : List String) (fs : Formulas) (text : String) : Prop := ∃ lines others,
  text = String.join (lines ++ others) ∧
    List.Forall₂ (fun f line ↦ ∃ t, Stands outgrown f t ∧ Line t f.label line) (asserted fs) lines ∧
    List.Forall₂ (fun c line ↦ Line c.2 c.1 line) fs.conflicts others

/-- A text has an assertion for a formula. -/
def AssertedIn (text : String) (f : Formula) : Prop :=
  ∃ t, f.term.scriptText = .ok t ∧ Text.occursIn (assertion f.label t) text = true

theorem occursIn_join {s : String} {ss : List String} (h : s ∈ ss) : occursIn s (String.join ss) = true := by
  obtain ⟨before, after, rfl⟩ := append_of_mem h
  rw [occursIn_iff, join_append, join_cons, toList_append, toList_append]
  exact ⟨_, _, append_assoc _ _ _⟩

theorem occursIn_middle (s before after : String) : occursIn s (before ++ s ++ after) = true := by
  rw [occursIn_iff, toList_append, toList_append]
  exact ⟨_, _, rfl⟩

theorem occursIn_trans {s t u : String} (h : occursIn s t = true) (h' : occursIn t u = true) : occursIn s u = true :=
  occursIn_iff.2 ((occursIn_iff.1 h).trans (occursIn_iff.1 h'))

/-- Whatever comes of it, a computation keeps a property of the workspace, and a result has another. -/
def Delivers {α : Type} (P : Workspace → Prop) (x : Encoding α) (Q : α → Prop) : Prop :=
  ∀ w, P w → P (exec x w).2 ∧ ∀ a, (exec x w).1 = .ok a → Q a

namespace Delivers

variable {α β : Type} {P : Workspace → Prop} {Q : α → Prop} {S : β → Prop}

theorem pure {a : α} (h : Q a) : Delivers P (pure a) Q := fun _ hw ↦ ⟨hw, fun _ hb ↦ Except.ok.inj hb ▸ h⟩

theorem lift {x : Outcome α} (h : ∀ a, x = .ok a → Q a) : Delivers P (liftM x) Q := fun _ hw ↦ ⟨hw, h⟩

theorem bind {x : Encoding α} {f : α → Encoding β} (hx : Delivers P x Q) (hf : ∀ a, Q a → Delivers P (f a) S) :
    Delivers P (x >>= f) S := by
  intro w hw
  obtain ⟨hv, hQ⟩ := hx w hw
  rw [exec_bind]
  rcases hr : exec x w with ⟨e | a, v⟩ <;> rw [hr] at hv hQ
  · exact ⟨hv, fun _ h ↦ nomatch h⟩
  · exact hf a (hQ a rfl) v hv

theorem mapM {f : α → Encoding β} {T : α → β → Prop} {l : List α} (h : ∀ a ∈ l, Delivers P (f a) (T a)) :
    Delivers P (l.mapM f) (Forall₂ T l) := by
  induction l with
  | nil =>
    rw [mapM_nil]
    exact pure .nil
  | cons a l ih =>
    rw [forall_mem_cons] at h
    rw [mapM_cons]
    exact h.1.bind fun _ hb ↦ (ih h.2).bind fun _ hbs ↦ pure (.cons hb hbs)

end Delivers

section Writing

variable {outgrown : List String} {fs : Formulas}

def Writes (outgrown : List String) (fs : Formulas) (w : Workspace) : Prop :=
  (∃ written, w.formulas = { fs with written }) ∧ Faithful outgrown fs.entries w.formulas.written

theorem Stands.self {f : Formula} (h : f.label ∉ outgrown) : Stands outgrown f f.term := by rw [Stands, if_neg h]

/-- The text of a formula is one that stands for it, whether it was kept or not. -/
theorem formulaText_delivers {f : Formula} (hf : f ∈ fs.entries) :
    Delivers (Writes outgrown fs) (formulaText f) fun text ↦ ∃ t, Stands outgrown f t ∧ t.scriptText = .ok text := by
  intro w hw
  obtain ⟨⟨written, hformulas⟩, hfaithful⟩ := hw
  unfold formulaText
  split
  · rename_i hkept
    rw [exec_bind, exec_get]
    dsimp only
    cases hl : w.formulas.written.lookup f.label with
    | some text =>
      obtain ⟨g, hg, hlabel, ht⟩ := hfaithful.texts _ (Formulas.mem_of_lookup hl)
      obtain rfl := inj_on_of_nodup_map hfaithful.nodup hg hf hlabel
      exact ⟨⟨⟨written, hformulas⟩, hfaithful⟩, fun _ h ↦ Except.ok.inj h ▸ ht⟩
    | none =>
      have hfresh : f.label ∉ outgrown := fun hmem ↦ by
        obtain ⟨e, he, hlabel⟩ := mem_map.1 (hfaithful.known _ hmem)
        exact absurd (beq_self_eq_true f.label) (by simpa [hlabel] using lookup_eq_none_iff.1 hl e he)
      dsimp only
      rw [exec_bind, exec_lift]
      cases ht : f.term.scriptText with
      | error e => exact ⟨⟨⟨written, hformulas⟩, hfaithful⟩, fun _ h ↦ nomatch h⟩
      | ok text =>
        refine ⟨⟨⟨w.formulas.written ++ [(f.label, text)], ?_⟩, hfaithful.nodup, ?_, ?_, fun l hl ↦ ?_⟩, fun _ h ↦ ?_⟩
        · change ({ w.formulas with written := w.formulas.written ++ [(f.label, text)] } : Formulas) = _
          rw [hformulas]
        · exact forall_mem_append.2 ⟨hfaithful.kept, by simpa using hkept⟩
        · exact forall_mem_append.2 ⟨hfaithful.texts, forall_mem_singleton.2 ⟨f, hf, rfl, f.term, .self hfresh, ht⟩⟩
        · exact map_append ▸ mem_append_left _ (hfaithful.known l hl)
        · exact ⟨f.term, .self hfresh, Except.ok.inj h ▸ ht⟩
  · rename_i hkept
    refine ⟨⟨⟨written, hformulas⟩, hfaithful⟩, fun text h ↦ ⟨f.term, .self fun hmem ↦ ?_, h⟩⟩
    obtain ⟨e, he, hlabel⟩ := mem_map.1 (hfaithful.known _ hmem)
    exact hkept (hlabel ▸ hfaithful.kept e he)

theorem script_delivers : Delivers (Writes outgrown fs) script (Prints outgrown fs) := by
  intro w hw
  obtain ⟨⟨written, hformulas⟩, hfaithful⟩ := hw
  unfold script
  rw [exec_bind, exec_get]
  dsimp only
  rw [show asserted w.formulas = asserted fs by rw [hformulas]; rfl, show w.formulas.conflicts = fs.conflicts by rw [hformulas]]
  have hline (f : Formula) (hf : f ∈ asserted fs) := (formulaText_delivers (mem_filter.1 hf).1).bind
    fun text (⟨t, ht, htext⟩ : ∃ t, Stands outgrown f t ∧ _) ↦
      Delivers.pure (Q := fun line ↦ ∃ t, Stands outgrown f t ∧ Line t f.label line) ⟨t, ht, text, htext, rfl⟩
  have hconflict (c : String × Term) := (Delivers.lift (P := Writes outgrown fs) fun _ h ↦ h).bind fun text htext ↦
    Delivers.pure (Q := fun line ↦ Line c.2 c.1 line) ⟨text, htext, rfl⟩
  exact (Delivers.mapM hline).bind (fun lines hlines ↦ (Delivers.mapM fun c _ ↦ hconflict c).bind fun others hothers ↦
    .pure ⟨lines, others, rfl, hlines, hothers⟩) w ⟨⟨written, hformulas⟩, hfaithful⟩

/-- The script has an assertion for everything that is asserted, unless formulas were added to. -/
theorem script_asserts {w : Workspace} (hw : Writes [] fs w) {text : String} (h : (exec script w).1 = .ok text)
    {f : Formula} (hf : f ∈ asserted fs) : AssertedIn text f := by
  obtain ⟨lines, others, rfl, hlines, -⟩ := (script_delivers w hw).2 text h
  obtain ⟨i, hi, rfl⟩ := getElem_of_mem hf
  obtain ⟨t, ht, text, htext, hline⟩ := hlines.get hi (hlines.length_eq ▸ hi)
  obtain rfl : t = _ := ht
  exact ⟨text, htext, hline ▸ occursIn_join (mem_append_left _ (get_mem _ _))⟩

/-- The text of the decisions is never kept. -/
theorem Faithful.assertDecisions (h : Faithful outgrown fs.entries fs.written) :
    Faithful outgrown (assertDecisions fs).entries (assertDecisions fs).written := by
  have hother {f : Formula} {e : String × String} (he : e ∈ fs.written) (hl : f.label = e.1) : f.label ≠ decisionLabel :=
    fun hd ↦ absurd (h.kept e he) (by rw [← hl, hd]; decide)
  unfold Search.assertDecisions
  split
  · refine ⟨h.nodup.sublist (filter_sublist.map _), h.kept, fun e he ↦ ?_, h.known⟩
    obtain ⟨f, hf, hl, ht⟩ := h.texts e he
    exact ⟨f, mem_filter.2 ⟨hf, by simpa using hother he hl⟩, hl, ht⟩
  · refine ⟨Formulas.nodup_replace _ h.nodup, h.kept, fun e he ↦ ?_, h.known⟩
    obtain ⟨f, hf, hl, ht⟩ := h.texts e he
    refine ⟨f, (Formulas.mem_replace hf).resolve_right fun hfind ↦ ?_, hl, ht⟩
    exact hother he hl (by simpa using List.find?_some hfind)

end Writing

/-! ## Accounts of a search -/

/-- What a search has to account for: the formulas with the texts that are kept, the labels that are
considered, and what solvers were sent. -/
structure Account where
  entries : List Formula
  written : List (String × String)
  considered : Considered
  sent : Nat → Option SolverExchange

def Asking.account (a : Asking) : Account :=
  ⟨a.workspace.formulas.entries, a.workspace.formulas.written, a.workspace.formulas.considered, a.solvers.sent⟩

/-- What is asserted when a solver is asked. -/
def Account.asserted (c : Account) : List Formula :=
  c.entries.filter fun f ↦ !ofClause f.label || c.considered.contains f.label

/-- The last check of a prover has the verdict that there is a model. -/
def Account.Answered (p : Prover) (e : SolverExchange) (c : Account) : Prop :=
  ∃ i r rest, p.exchange = some i ∧ c.sent i = some e ∧ e.reply = some r ∧
    SolverReply.verdict? r.lines = some (true, rest)

/-- A check asserts a formula. -/
def Asserts (e : SolverExchange) (f : Formula) : Prop := (f.label, f.term) ∈ e.asserted ∧ AssertedIn e.script f

/-- The formulas, their texts and the labels that are considered are the same. -/
def Untouched (w v : Workspace) : Prop :=
  v.formulas.entries = w.formulas.entries ∧ v.formulas.written = w.formulas.written ∧
    v.formulas.considered = w.formulas.considered

instance : Std.Refl Untouched := ⟨fun _ ↦ ⟨rfl, rfl, rfl⟩⟩

instance : Trans Untouched Untouched Untouched :=
  ⟨fun h h' ↦ ⟨h'.1.trans h.1, h'.2.1.trans h.2.1, h'.2.2.trans h.2.2⟩⟩

/-- An inquiry that leaves the account as it is, whatever comes of it. -/
def Apart {α : Type} (x : Inquiry α) : Prop := ∀ a, (inquire x a).2.account = a.account

namespace Apart

variable {α β : Type}

theorem pure {v : α} : Apart (pure v) := fun _ ↦ rfl

theorem throw {e : Fault} : Apart (throw e : Inquiry α) := fun _ ↦ rfl

theorem lift {x : Outcome α} : Apart (liftM x : Inquiry α) := fun _ ↦ rfl

theorem bind {x : Inquiry α} {f : α → Inquiry β} (hx : Apart x) (hf : ∀ v, Apart (f v)) : Apart (x >>= f) := by
  intro a
  have h := hx a
  rw [inquire_bind]
  rcases hr : inquire x a with ⟨e | v, b⟩ <;> rw [hr] at h
  · exact h
  · exact (hf v b).trans h

theorem mapM {f : α → Inquiry β} (hf : ∀ v, Apart (f v)) (l : List α) : Apart (l.mapM f) := by
  induction l with
  | nil =>
    rw [mapM_nil]
    exact pure
  | cons v l ih =>
    rw [mapM_cons]
    exact (hf v).bind fun _ ↦ ih.bind fun _ ↦ pure

theorem forM {f : α → Inquiry PUnit} (hf : ∀ v, Apart (f v)) (l : List α) : Apart (l.forM f) := by
  induction l with
  | nil => exact pure
  | cons v l ih => exact (hf v).bind fun _ ↦ ih

theorem get : Apart get := fun _ ↦ rfl

theorem record (f : Report → Report) : Apart (record f) := fun _ ↦ rfl

theorem formulas : Apart formulas := fun _ ↦ rfl

theorem encoding {x : Encoding α} (h : Moves Untouched x) : Apart (encoding x) := by
  intro a
  rw [inquire_encoding]
  obtain ⟨he, hw, hc⟩ := h a.workspace
  simp only [Asking.account, he, hw, hc]

theorem note (level : Level) (text : String) : Apart (note level text) :=
  encoding fun _ ↦ ⟨rfl, rfl, rfl⟩

/-- What holds of the account goes on to hold. -/
theorem leads {E : Asking → Prop} {Q : Account → Prop} {x : Inquiry α} (h : Apart x) (hE : ∀ a, E a) :
    Leads E (fun a ↦ Q a.account) x fun _ a ↦ Q a.account := by
  intro a ha
  have hx := h a
  rcases hr : inquire x a with ⟨e | v, b⟩ <;> rw [hr] at hx
  · exact hE b
  · change Q b.account
    rwa [hx]

/-! ### Reading models -/

theorem print (i : Nat) (asked : List String) (line : SolverReply → String) : Apart (print i asked line) := by
  intro a
  have h := (print_sent (E := fun _ ↦ True) : Leads _ _ (Inquiry.print i asked line) _)
    (rfl : a.solvers.sent = a.solvers.sent)
  change Asking.account _ = _
  unfold Asking.account
  exact congrArg (Account.mk _ _ _) h

theorem nextLine (i : Nat) : Apart (nextLine i) := by
  intro a
  rcases he : a.solvers.exchanges[i]? with _ | e
  · unfold Inquiry.nextLine
    rw [inquire_bind, inquire_get]
    dsimp only
    rw [he]
    rfl
  · rcases hl : e.unread with _ | ⟨l, ls⟩
    · rw [inquire_nextLine_nil he hl]
    · rw [inquire_nextLine_cons he hl]
      exact congrArg (Account.mk _ _ _) (Solvers.sent_set he rfl)

theorem value (p : Prover) (f : String) (args : List Int) : Apart (value p f args) := by
  unfold Inquiry.value
  split
  · exact throw
  · refine (print _ _ _).bind fun _ ↦ (nextLine _).bind fun line ↦ ?_
    split
    · exact pure
    · exact throw

theorem choicesOf (p : Prover) (t : Table) : Apart (choicesOf p t) :=
  lift.bind fun _ ↦ mapM (fun _ ↦ (value _ _ _).bind fun _ ↦ pure) _

/-! ### Decisions and conflicts -/

theorem table (place : Nat) : Moves Untouched (Workspace.table place) := fun _ ↦ ⟨rfl, rfl, rfl⟩

theorem placeOf (id : Int) : Moves Untouched (Workspace.placeOf id) := by
  refine Moves.bind (fun _ ↦ ⟨rfl, rfl, rfl⟩) fun w ↦ ?_
  split
  · exact .pure
  · exact .lift

theorem tableOfLabel (label : String) : Moves Untouched (tableOfLabel label) := by
  refine Moves.bind (fun _ ↦ ⟨rfl, rfl, rfl⟩) fun w ↦ ?_
  split
  · exact .lift
  · split
    · exact .pure
    · exact (placeOf _).bind fun _ ↦ .pure

theorem changeFormulas {f : Formulas → Formulas}
    (h : ∀ fs, (f fs).entries = fs.entries ∧ (f fs).written = fs.written ∧ (f fs).considered = fs.considered) :
    Apart (changeFormulas f) := encoding fun w ↦ h w.formulas

theorem decideAt (p : Prover) (place : Nat) : Apart (decideAt p place) :=
  (encoding (table _)).bind fun _ ↦ (choicesOf _ _).bind fun _ ↦ changeFormulas fun _ ↦ ⟨rfl, rfl, rfl⟩

theorem decideLabel (p : Prover) (label : String) : Apart (decideLabel p label) := by
  refine (encoding (tableOfLabel label)).bind fun place ↦ ?_
  split
  · exact decideAt _ _
  · exact throw

theorem decideIfAny (p : Prover) (label : String) : Apart (decideIfAny p label) := by
  refine (encoding (tableOfLabel label)).bind fun place ↦ ?_
  split
  · exact decideAt _ _
  · exact pure

theorem tablesOf (labels : List String) (found : List (Int × Nat)) : Apart (tablesOf labels found) := by
  induction labels generalizing found with
  | nil => exact pure
  | cons label labels ih =>
    refine (encoding (tableOfLabel label)).bind fun place ↦ ?_
    split
    · exact ih _
    · exact (encoding (table _)).bind fun _ ↦ ih _

theorem coversOf (labels : List String) (o : Cover.Openness) : Apart (coversOf labels o) := by
  refine (tablesOf _ _).bind fun tables ↦ ?_
  have cover (x : Int × Nat) : Apart (do
      let t ← Inquiry.encoding (Workspace.table x.2)
      return (x.1, ← (Cover.ofTable t o : Outcome Cover)) : Inquiry (Int × Cover)) :=
    (encoding (table _)).bind fun _ ↦ lift.bind fun _ ↦ pure
  split
  · exact throw.bind fun _ ↦ mapM cover _
  · exact mapM cover _

theorem decisionsOf (labels : List String) (found : List (Int × Choices)) :
    Moves Untouched (decisionsOf labels found) := by
  induction labels generalizing found with
  | nil => exact .pure
  | cons label labels ih =>
    refine (tableOfLabel label).bind fun place ↦ ?_
    split
    · exact ih _
    · refine (table _).bind fun _ ↦ Moves.bind (fun _ ↦ ⟨rfl, rfl, rfl⟩) fun _ ↦ ?_
      split
      · exact ih _
      · exact ih _

theorem learn_moves (core : List String) : Moves Untouched (learn core) := by
  refine (decisionsOf _ _).bind fun conflict ↦ Moves.bind (fun w ↦ ?_) fun _ ↦ fun _ ↦ ⟨rfl, rfl, rfl⟩
  change Untouched w { w with formulas := addConflict conflict core w.formulas }
  unfold addConflict
  split
  · exact ⟨rfl, rfl, rfl⟩
  · exact ⟨rfl, rfl, rfl⟩

theorem learn (core : List String) : Apart (Inquiry.encoding (Search.learn core)) := encoding (learn_moves core)

theorem countBacktrack (p : Prover) : Apart (countBacktrack p) := by
  refine (record _).bind fun _ ↦ ?_
  split
  · exact throw
  · exact formulas.bind fun _ ↦ (record _).bind fun _ ↦ (mapM (fun _ ↦ lift) _).bind fun _ ↦ pure

end Apart

/-! ## Asking -/

section Asking

variable {p : Prover} {U : List Formula}

/-- The formulas other than that of the decisions are the same as ever, and the texts are theirs. -/
structure Account.Intact (U : List Formula) (c : Account) : Prop where
  others : c.entries.filter (·.label != decisionLabel) = U
  faithful : Faithful [] c.entries c.written

/-- A prover that says there is a model was sent an assertion for everything that is asserted. -/
def Account.Told (p : Prover) (c : Account) : Prop := ∃ e, c.Answered p e ∧ ∀ f ∈ c.asserted, Asserts e f

/-- The verdict that is read is that of the reply to what was sent. -/
theorem check_answered {text : String} {asserted : List (String × Term)} {V : Workspace → Prop}
    (hV : ∀ w m, V w → V { w with messages := m }) :
    Leads (fun _ ↦ True) (fun a ↦ V a.workspace) (check p text asserted) fun r a ↦ V a.workspace ∧
      (r.1 = true → ∃ e, a.account.Answered r.2 e ∧ e.asserted = asserted ∧ e.script = Solvers.scriptOf text) := by
  intro a ha
  refine ((check_leads (s := a.solvers) hV fun _ _ _ _ ↦ trivial).imp fun v b hv ↦ ?_) ⟨rfl, ha⟩
  obtain ⟨r, rest, e, ls, hreply, hheard, hexchange, -, -, -, hb⟩ := hv
  refine ⟨hb.workspace, fun hsat ↦ ?_⟩
  have hsent : b.account.sent a.solvers.exchanges.size =
      some { opening p (Solvers.scriptOf text) asserted (some r) with unread := [], asked := [] } := by
    change b.solvers.sent _ = _
    rw [hb.sent, ← hreply]
    exact congrArg (Option.map _) Array.getElem?_push_size
  refine ⟨_, ⟨_, r, rest, hexchange, hsent, rfl, ?_⟩, rfl, rfl⟩
  rw [hsat] at hheard
  exact SolverReply.verdict?_of_heard hheard

/-- A prover is asked about everything that is asserted. -/
theorem ask_told {K : Considered → Prop} :
    Leads (fun _ ↦ True) (fun a ↦ a.account.Intact U ∧ K a.account.considered) (ask p)
      fun r a ↦ (a.account.Intact U ∧ K a.account.considered) ∧ (r.1 = true → a.account.Told r.2) := by
  intro a ⟨hintact, hK⟩
  have current : Leads (fun _ ↦ True) (fun b ↦ b = a) Inquiry.formulas
      fun fs b ↦ fs = a.workspace.formulas ∧ b = a := by
    rintro b rfl
    exact ⟨rfl, rfl⟩
  refine current.bind_eq ?_ rfl
  -- Writing the script only adds texts, and these are faithful.
  let V (w : Workspace) : Prop := Writes [] a.workspace.formulas w
  refine Leads.bind (Q := fun text b ↦ (∀ f ∈ Search.asserted a.workspace.formulas, AssertedIn text f) ∧ V b.workspace)
    (.encoding fun b hb ↦ ?_) fun text ↦ .fact fun htext ↦ ?_
  · subst hb
    have hw : Writes [] b.workspace.formulas b.workspace := ⟨⟨_, rfl⟩, hintact.faithful⟩
    have hv := (script_delivers _ hw).1
    have hasserts (text : String) (h : (exec script b.workspace).1 = .ok text) := fun f ↦ script_asserts hw h (f := f)
    rcases hr : exec script b.workspace with ⟨e | text, w⟩ <;> rw [hr] at hv hasserts
    · trivial
    · exact ⟨hasserts text rfl, hv⟩
  · refine (check_answered (V := V) fun w m h ↦ h).imp fun r b ⟨hb, hanswer⟩ ↦ ?_
    obtain ⟨⟨written, hformulas⟩, hfaithful⟩ := hb
    have hentries : b.account.entries = a.account.entries := congrArg (·.entries) hformulas
    have hconsidered : b.account.considered = a.account.considered := congrArg (·.considered) hformulas
    refine ⟨⟨⟨by rw [hentries, hintact.others], by rw [hentries]; exact hfaithful⟩, by rwa [hconsidered]⟩, fun hr ↦ ?_⟩
    obtain ⟨e, he, hasserted, hscript⟩ := hanswer hr
    refine ⟨e, he, fun f hf ↦ ?_⟩
    have hf : f ∈ Search.asserted a.workspace.formulas := by
      rwa [Account.asserted, hentries, hconsidered] at hf
    refine ⟨?_, ?_⟩
    · rw [hasserted]
      exact mem_append_left _ (mem_map.2 ⟨f, hf, rfl⟩)
    · obtain ⟨t, ht, hoccurs⟩ := htext f hf
      exact ⟨t, ht, occursIn_trans hoccurs (hscript ▸ occursIn_middle _ _ _)⟩

end Asking

end QueryEquiv
