import QueryEquiv.Proofs.Conflicts

/-!
# The rounds of a search

Every step of a search keeps its invariant: the formulas stay as they are, the conflicts learned follow
from them, and the current decisions are those of models, except while backtracking tries out the members
of a cover. So all conflicts are sound at whatever point a search ends.
-/

namespace QueryEquiv.Search

open Leads Formulas List Inquiry

variable {conv : Conventions} {w₀ : Workspace} {tables : List (Option String × Int)} {E : Asking → Prop}

/-! ## Asserting decisions -/

section

variable {w : Workspace} {f : Formula}

theorem filter_replace {l : String} (hf : f.label = l) (es : List Formula) :
    (replace f es).filter (·.label != l) = es.filter (·.label != l) := by
  induction es with
  | nil => simp [Formulas.replace, hf]
  | cons g es ih =>
    unfold Formulas.replace
    split
    · rename_i hg
      have hgl : g.label = l := (eq_of_beq hg).trans hf
      simp [hf, hgl]
    · rw [filter_cons, filter_cons, ih]

theorem countP_replace {l : String} (hf : f.label = l) (es : List Formula) :
    (replace f es).countP (·.label == l) = max 1 (es.countP (·.label == l)) := by
  induction es with
  | nil => simp [Formulas.replace, hf]
  | cons g es ih =>
    unfold Formulas.replace
    split
    · rename_i hg
      have hgl : g.label = l := (eq_of_beq hg).trans hf
      simp [hf, hgl]
    · rename_i hg
      have hgl : (g.label == l) = false := by rw [← hf]; simpa using hg
      rw [countP_cons, countP_cons, ih, hgl]
      rfl

/-- Where a label occurs at most once, replacing leaves one formula under it. -/
theorem eq_of_mem_replace {g : Formula} {es : List Formula} (hes : es.countP (·.label == f.label) ≤ 1)
    (hg : g ∈ replace f es) (hl : g.label = f.label) : g = f := by
  induction es with
  | nil => simpa [Formulas.replace] using hg
  | cons h es ih =>
    unfold Formulas.replace at hg
    split at hg
    · rename_i hh
      obtain rfl | hg := mem_cons.1 hg
      · rfl
      · rw [countP_cons, if_pos hh] at hes
        have hnone : es.countP (·.label == f.label) = 0 := by omega
        exact absurd (by simpa using hl) (countP_eq_zero.1 hnone g hg)
    · rename_i hh
      rw [countP_cons, if_neg hh] at hes
      obtain rfl | hg := mem_cons.1 hg
      · exact absurd (by simpa using hl) hh
      · exact ih hes hg

namespace Sought

/-- What is asserted of the decisions is brought up to date. -/
theorem assertDecisions (h : Sought conv w₀ tables w) :
    Sought conv w₀ tables { w with formulas := assertDecisions w.formulas } ∧
      Stated (Search.assertDecisions w.formulas) := by
  unfold Search.assertDecisions
  split
  · refine ⟨{ h with entries := ?_, once := ?_ }, fun f hf hl ↦ ?_⟩
    · change (w.formulas.entries.filter (·.label != decisionLabel)).filter (·.label != decisionLabel) = _
      rw [filter_filter, ← h.entries]
      simp
    · change (w.formulas.entries.filter (·.label != decisionLabel)).countP (·.label == decisionLabel) ≤ 1
      rw [countP_eq_zero.2 fun f hf ↦ ?_]
      · exact Nat.zero_le 1
      · simpa using (mem_filter.1 hf).2
    · exact absurd hl (by simpa using (mem_filter.1 hf).2)
  · refine ⟨{ h with entries := ?_, once := ?_ }, fun f hf hl ↦ ?_⟩
    · exact (filter_replace (l := decisionLabel) rfl _).trans h.entries
    · exact (countP_replace (l := decisionLabel) rfl _).trans_le (Nat.max_le.2 ⟨Nat.le_refl 1, h.once⟩)
    · rw [eq_of_mem_replace h.once hf hl]
      rfl

end Sought

end

/-! ## Steps -/

/-- A property of the workspace, as long as everything that was said is true. -/
def Honestly (conv : Conventions) (V : Workspace → Prop) (a : Asking) : Prop :=
  a.solvers.Honest conv → V a.workspace

/-- A property does not depend on messages, nor on the labels considered and the texts written. -/
structure Indifferent (V : Workspace → Prop) : Prop where
  messages : ∀ w m, V w → V { w with messages := m }
  written : ∀ w t, V w → V { w with formulas := { w.formulas with written := t } }
  considered : ∀ w c, V w → V { w with formulas := { w.formulas with considered := c } }

section Steps

variable {V U : Workspace → Prop} {p : Prover}

theorem Indifferent.and (hV : Indifferent V) (hU : Indifferent U) : Indifferent fun w ↦ V w ∧ U w :=
  ⟨fun w m h ↦ ⟨hV.messages w m h.1, hU.messages w m h.2⟩, fun w t h ↦ ⟨hV.written w t h.1, hU.written w t h.2⟩,
    fun w c h ↦ ⟨hV.considered w c h.1, hU.considered w c h.2⟩⟩

/-- An encoding is run; only for truthful solvers something is known about it. -/
theorem honestly_encoding {α : Type} {K K' : Asking → Prop} {T : α → Asking → Prop} {x : Encoding α}
    (hE : ∀ a, (a.solvers.Honest conv → K' a) → E a) (h : ∀ a, K a → match exec x a.workspace with
      | (.ok v, w) => T v { a with workspace := w }
      | (.error _, w) => K' { a with workspace := w }) :
    Leads E (fun a ↦ a.solvers.Honest conv → K a) (encoding x) fun v a ↦ a.solvers.Honest conv → T v a := by
  refine .encoding fun a ha ↦ ?_
  have h hh := h a (ha hh)
  rcases hr : exec x a.workspace with ⟨e | v, w⟩ <;> simp only [hr] at h
  · exact hE _ h
  · exact h

theorem changeFormulas_leads {f : Formulas → Formulas} (h : ∀ w, V w → U { w with formulas := f w.formulas }) :
    Leads E (Honestly conv V) (Search.changeFormulas f) fun _ ↦ Honestly conv U :=
  .encoding fun a ha hh ↦ h a.workspace (ha hh)

theorem noted (hV : Indifferent V) {level : Level} {text : String} :
    Leads E (Honestly conv V) (note level text) fun _ ↦ Honestly conv V :=
  note_leads fun a m ha hh ↦ hV.messages a.workspace m (ha hh)

theorem recorded {P : Asking → Prop} {f : Report → Report} (h : ∀ a r, P a → P { a with report := r }) :
    Leads E P (record f) fun _ ↦ P := .modify fun a ha ↦ h a _ ha

theorem formulas_leads : Leads E (Honestly conv V) formulas
    fun fs ↦ Honestly conv fun w ↦ V w ∧ fs = w.formulas := by
  exact fun a ha hh ↦ ⟨ha hh, rfl⟩

theorem newProver_leads : Leads E (Honestly conv V) newProver fun _ ↦ Honestly conv V :=
  fun _ ha hh ↦ ha hh

theorem consider_leads (hV : Indifferent V) (hE : ∀ a, Honestly conv V a → E a) (label : String) :
    Leads E (Honestly conv V) (consider label) fun _ ↦ Honestly conv V := by
  refine bind (Q := fun _ ↦ Honestly conv V) (fun _ ha hh ↦ ha hh) fun fs ↦ ?_
  refine bind (Q := fun _ ↦ Honestly conv V) (.lift (fun _ _ _ ha ↦ ha) hE) fun c ↦ ?_
  exact changeFormulas_leads fun w hw ↦ hV.considered w c hw

def Written (w v : Workspace) : Prop := ∃ written, v = { w with formulas := { w.formulas with written } }

instance : Std.Refl Written := ⟨fun w ↦ ⟨w.formulas.written, rfl⟩⟩

instance : Trans Written Written Written := ⟨fun ⟨_, h⟩ ⟨u, h'⟩ ↦ ⟨u, by subst h; exact h'⟩⟩

theorem formulaText_moves (f : Formula) : Moves Written (formulaText f) := by
  unfold formulaText
  split
  · refine Moves.bind (fun w ↦ Std.Refl.refl w) fun v ↦ ?_
    split
    · exact .pure
    · exact Moves.lift.bind fun text ↦ .bind (fun w ↦ ⟨_, rfl⟩) fun _ ↦ .pure
  · exact .lift

/-- Writing the script changes nothing but the texts that are kept. -/
theorem script_moves : Moves Written script :=
  Moves.bind (fun w ↦ Std.Refl.refl w) fun _ ↦
    (Moves.mapM (fun f ↦ (formulaText_moves f).bind fun _ ↦ .pure) _).bind fun _ ↦
      (Moves.mapM (fun _ ↦ Moves.lift.bind fun _ ↦ .pure) _).bind fun _ ↦ .pure

theorem ask_leads (hV : Indifferent V) (hE : ∀ a, Honestly conv V a → E a) :
    Leads E (Honestly conv V) (ask p) fun r a ↦ a.solvers.Honest conv → V a.workspace ∧
      if r.1 then ∃ I, I.toConventions = conv ∧ (∀ x ∈ assertions a.workspace.formulas, I.Holds x.2) ∧ Tells I r.2 a
      else ∃ core, r.2.core = some core ∧ Contradicts conv (assertions a.workspace.formulas) core := by
  refine formulas_leads.bind fun fs ↦ ?_
  have hassert (w : Workspace) (t : List (String × String)) :
      assertions { w.formulas with written := t } = assertions w.formulas := rfl
  let V' (w : Workspace) : Prop := V w ∧ assertions fs = assertions w.formulas
  refine bind (Q := fun _ ↦ Honestly conv V') (.encoding fun a ha ↦ ?_) fun text ↦ ?_
  · have hscript := script_moves a.workspace
    rcases hr : exec script a.workspace with ⟨e | text, w⟩ <;> rw [hr] at hscript
    · obtain ⟨t, rfl⟩ := hscript
      exact hE _ fun hh ↦ hV.written _ t (ha hh).1
    · obtain ⟨t, rfl⟩ := hscript
      exact fun hh ↦ ⟨hV.written _ t (ha hh).1, by rw [(ha hh).2]; rfl⟩
  · refine (check_truthful (V := V') (fun w m hw ↦ ⟨hV.messages w m hw.1, hw.2⟩)
      fun a ha ↦ hE a fun hh ↦ (ha hh).1).imp fun r a h hh ↦ ?_
    obtain ⟨⟨hw, heq⟩, hr⟩ := h hh
    rw [heq] at hr
    exact ⟨hw, hr⟩

end Steps

/-! ## Taking decisions -/

section Deciding

variable {p : Prover} {I : Interpretation} {G : Prop}

/-- The invariant of a search, where the decisions about the tables of some labels are still to be taken. -/
def Deciding (conv : Conventions) (w₀ : Workspace) (tables : List (Option String × Int))
    (pending : List String) (w : Workspace) : Prop :=
  Sought conv w₀ tables w ∧
    ∀ d ∈ w.formulas.under, Decided conv w₀ d ∨ ∃ l ∈ pending, tables.lookup (some l) = some d.1

theorem Deciding.indifferent (pending : List String) : Indifferent (Deciding conv w₀ tables pending) where
  messages := fun _ _ ⟨h, hd⟩ ↦ ⟨{ h with }, hd⟩
  written := fun _ _ ⟨h, hd⟩ ↦ ⟨{ h with }, hd⟩
  considered := fun _ _ ⟨h, hd⟩ ↦ ⟨{ h with }, hd⟩

/-- The decisions about the table of a label are read off a model. -/
theorem Deciding.put {w : Workspace} {label : String} {rest : List String}
    (h : Deciding conv w₀ tables (label :: rest) w) (hI : I.toConventions = conv)
    (hother : ∀ f ∈ w₀.formulas.entries, ofClause f.label = false → I.Holds f.term) {id : Int} {place n : Nat}
    (hl : tables.lookup (some label) = some id) (hplace : w₀.database.place? id = some place)
    (hn : choiceCount (w₀.catalog.table place) = .ok n) :
    Deciding conv w₀ tables rest { w with formulas := { w.formulas with
      under := put id (told I id (List.range n)) w.formulas.under } } := by
  obtain ⟨h, hd⟩ := h
  refine ⟨{ h with nodup := nodup_put h.nodup, known := fun d hmem ↦ ?_ }, fun d hmem ↦ ?_⟩
  · obtain rfl | hmem := mem_put hmem
    · exact mem_map.2 ⟨_, mem_of_lookup hl, rfl⟩
    · exact h.known d hmem
  · have hnodup : ((Formulas.put id (told I id (List.range n)) w.formulas.under).map Prod.fst).Nodup :=
      nodup_put h.nodup
    have hlook := lookup_of_mem hnodup (k := d.1) (a := d.2) hmem
    rw [lookup_put] at hlook
    split at hlook
    · -- The decisions that were read.
      rename_i he
      refine .inl ⟨I, hI, hother, fun place' n' hplace' hn' i hi ↦ ?_⟩
      rw [eq_of_beq he] at hplace' ⊢
      rw [hplace] at hplace'
      cases hplace'
      rw [hn] at hn'
      cases hn'
      rw [← Option.some.inj hlook]
      simp [told, hi]
    · rename_i he
      refine (hd _ (mem_of_lookup hlook)).imp_right fun ⟨l, hmem, hl'⟩ ↦ ?_
      obtain rfl | hmem := mem_cons.1 hmem
      · rw [hl] at hl'
        exact absurd (beq_iff_eq.2 (Option.some.inj hl').symm) he
      · exact ⟨l, hmem, hl'⟩

theorem tableOfLabel_leads {K : Asking → Prop}
    (hK : ∀ a, K a → a.workspace.formulas.tableOf = some tables ∧ a.workspace.database = w₀.database)
    (hE : ∀ a, (a.solvers.Honest conv → K a) → E a) (label : String) :
    Leads E (fun a ↦ a.solvers.Honest conv → K a) (encoding (tableOfLabel label))
      fun r a ↦ a.solvers.Honest conv → K a ∧
        match r with
        | none => tables.lookup (some label) = none
        | some place => ∃ id, tables.lookup (some label) = some id ∧ w₀.database.place? id = some place := by
  refine honestly_encoding hE fun a ha ↦ ?_
  obtain ⟨htables, hdatabase⟩ := hK a ha
  rw [exec_tableOfLabel htables, hdatabase]
  cases hl : tables.lookup (some label) with
  | none => exact ⟨ha, rfl⟩
  | some id =>
    dsimp only
    cases hplace : w₀.database.place? id with
    | none => exact ha
    | some place => exact ⟨ha, id, rfl, hplace⟩

variable (ho : Owned conv w₀ tables)
  (hE : ∀ a pending, Honestly conv (fun w ↦ Deciding conv w₀ tables pending w ∧ G) a → E a)
  (hI : G → I.toConventions = conv)
  (hother : G → ∀ f ∈ w₀.formulas.entries, ofClause f.label = false → I.Holds f.term)
include ho hE hI hother

/-- The decisions of a clause are taken as they are in a model. -/
theorem decideAt_leads (label : String) (rest : List String) {place : Nat} : Leads E
      (fun a ↦ a.solvers.Honest conv → ((Deciding conv w₀ tables (label :: rest) a.workspace ∧ G) ∧ Tells I p a) ∧
        ∃ id, tables.lookup (some label) = some id ∧ w₀.database.place? id = some place) (decideAt p place)
      fun _ a ↦ a.solvers.Honest conv → (Deciding conv w₀ tables rest a.workspace ∧ G) ∧ Tells I p a := by
  let found (t : Table) : Prop := t = w₀.catalog.table place ∧
    ∃ id, tables.lookup (some label) = some id ∧ w₀.database.place? id = some place
  let V (t : Table) (w : Workspace) : Prop := (Deciding conv w₀ tables (label :: rest) w ∧ G) ∧ found t
  have hEV (t : Table) (a : Asking) (ha : Honestly conv (V t) a) : E a := hE a _ fun hh ↦ (ha hh).1
  refine bind (Q := fun t a ↦ a.solvers.Honest conv → V t a.workspace ∧ Tells I p a)
    (.encoding fun a ha hh ↦ ?_) fun t ↦ (choicesOf_leads (hEV t)).bind fun vec ↦ .encoding fun a ha hh ↦ ?_
  · obtain ⟨⟨hd, ht⟩, hplace⟩ := ha hh
    exact ⟨⟨hd, congrArg (·.table place) hd.1.1.catalog, hplace⟩, ht⟩
  · obtain ⟨⟨⟨⟨hd, hG⟩, rfl, id, hl, hplace⟩, n, hn, rfl⟩, ht⟩ := ha hh
    have hid : (w₀.catalog.table place).id = id := ho.filed _ (mem_of_lookup hl) place hplace
    rw [hid]
    exact ⟨⟨hd.put (hI hG) (hother hG) hl hplace hn, hG⟩, ht⟩

theorem decideLabel_leads (label : String) :
    Leads E (fun a ↦ a.solvers.Honest conv → (Deciding conv w₀ tables [] a.workspace ∧ G) ∧ Tells I p a)
      (decideLabel p label)
      fun _ a ↦ a.solvers.Honest conv → (Deciding conv w₀ tables [] a.workspace ∧ G) ∧ Tells I p a := by
  refine (tableOfLabel_leads (fun a h ↦ ⟨h.1.1.1.tableOf, h.1.1.1.database⟩)
    (fun a ha ↦ hE a [] fun hh ↦ (ha hh).1) label).bind fun r ↦ ?_
  cases r with
  | none => exact .throw fun a ha ↦ hE a [] fun hh ↦ (ha hh).1.1
  | some place =>
    refine (decideAt_leads ho hE hI hother label []).weaken fun a ha hh ↦ ?_
    obtain ⟨⟨⟨⟨hs, hd⟩, hG⟩, ht⟩, hplace⟩ := ha hh
    exact ⟨⟨⟨⟨hs, fun d hmem ↦ .inl ((hd d hmem).resolve_right (by simp))⟩, hG⟩, ht⟩, hplace⟩

/-- The decisions about the tables of all labels are taken, one after the other. -/
theorem decideIfAny_leads (labels : List String) :
    Leads E (fun a ↦ a.solvers.Honest conv → (Deciding conv w₀ tables labels a.workspace ∧ G) ∧ Tells I p a)
      (labels.forM (decideIfAny p))
      fun _ a ↦ a.solvers.Honest conv → (Deciding conv w₀ tables [] a.workspace ∧ G) ∧ Tells I p a := by
  induction labels with
  | nil => exact .pure fun _ ha ↦ ha
  | cons label labels ih =>
    change Leads E _ (decideIfAny p label >>= fun _ ↦ labels.forM (decideIfAny p)) _
    refine bind ?_ fun _ ↦ ih
    refine (tableOfLabel_leads (fun a h ↦ ⟨h.1.1.1.tableOf, h.1.1.1.database⟩)
      (fun a ha ↦ hE a _ fun hh ↦ (ha hh).1) label).bind fun r ↦ ?_
    cases r with
    | none =>
      refine .pure fun a ha hh ↦ ?_
      obtain ⟨⟨⟨⟨hs, hd⟩, hG⟩, ht⟩, hnone⟩ := ha hh
      refine ⟨⟨⟨hs, fun d hmem ↦ (hd d hmem).imp_right fun ⟨l, hl, htable⟩ ↦ ?_⟩, hG⟩, ht⟩
      obtain rfl | hl := mem_cons.1 hl
      · rw [hnone] at htable
        cases htable
      · exact ⟨l, hl, htable⟩
    | some place => exact decideAt_leads ho hE hI hother label labels

end Deciding

/-! ## Going through a cover -/

section Covering

variable {V : Workspace → Prop} {labels : List String} {G : Prop}

/-- Covers of decisions about tables of labels, one for each table. -/
structure Covering (w₀ : Workspace) (tables : List (Option String × Int)) (labels : List String)
    (o : Cover.Openness) (covers : List (Int × Cover)) : Prop where
  nodup : (covers.map Prod.fst).Nodup
  cover : ∀ x ∈ covers, ∃ l ∈ labels, ∃ place, tables.lookup (some l) = some x.1 ∧
    w₀.database.place? x.1 = some place ∧ Cover.ofTable (w₀.catalog.table place) o = .ok x.2

/-- Tables of labels, each once and with its place. -/
structure Listed (w₀ : Workspace) (tables : List (Option String × Int)) (labels : List String)
    (found : List (Int × Nat)) : Prop where
  nodup : (found.map Prod.fst).Nodup
  table : ∀ x ∈ found, ∃ l ∈ labels, tables.lookup (some l) = some x.1 ∧ w₀.database.place? x.1 = some x.2

theorem tablesOf_leads (ho : Owned conv w₀ tables) (hV : ∀ w, V w → Sought conv w₀ tables w)
    (hE : ∀ a, Honestly conv V a → E a) {rest : List String} (hrest : ∀ l ∈ rest, l ∈ labels)
    (found : List (Int × Nat)) :
    Leads E (Honestly conv fun w ↦ V w ∧ Listed w₀ tables labels found) (tablesOf rest found)
      fun found ↦ Honestly conv fun w ↦ V w ∧ Listed w₀ tables labels found := by
  induction rest generalizing found with
  | nil => exact .pure fun _ ha ↦ ha
  | cons l rest ih =>
    rw [forall_mem_cons] at hrest
    refine (tableOfLabel_leads (K := fun a ↦ V a.workspace ∧ Listed w₀ tables labels found)
      (fun a h ↦ ⟨(hV _ h.1).tableOf, (hV _ h.1).database⟩) (fun a ha ↦ hE a fun hh ↦ (ha hh).1) l).bind fun r ↦ ?_
    cases r with
    | none => exact (ih hrest.2 found).weaken fun a ha hh ↦ (ha hh).1
    | some place =>
      refine bind (Q := fun t ↦ Honestly conv fun w ↦ V w ∧
        Listed w₀ tables labels (put t.id place found)) (.encoding fun a ha hh ↦ ?_) fun t ↦ ih hrest.2 _
      obtain ⟨⟨hw, hfound⟩, id, hl, hplace⟩ := ha hh
      have hid : (a.workspace.catalog.table place).id = id := by
        rw [(hV _ hw).catalog]
        exact ho.filed _ (mem_of_lookup hl) place hplace
      refine ⟨hw, nodup_put hfound.nodup, fun x hx ↦ ?_⟩
      obtain rfl | hx := mem_put hx
      · dsimp only
        rw [hid]
        exact ⟨l, hrest.1, hl, hplace⟩
      · exact hfound.table x hx

variable {o : Cover.Openness}

theorem coverEach_leads (hV : ∀ w, V w → w.catalog = w₀.catalog) (hE : ∀ a, Honestly conv V a → E a) (found : List (Int × Nat)) :
    Leads E (Honestly conv V) (found.mapM fun (id, place) ↦ do
        let t ← encoding (Workspace.table place)
        return (id, ← Cover.ofTable t o))
      fun covers ↦ Honestly conv fun w ↦ V w ∧ Forall₂ (fun x y ↦ y.1 = x.1 ∧
        Cover.ofTable (w₀.catalog.table x.2) o = .ok y.2) found covers := by
  induction found generalizing V with
  | nil =>
    rw [mapM_nil]
    exact .pure fun _ ha hh ↦ ⟨ha hh, .nil⟩
  | cons x found ih =>
    rw [mapM_cons, bind_assoc]
    refine bind (Q := fun t ↦ Honestly conv fun w ↦ V w ∧ t = w₀.catalog.table x.2)
      (.encoding fun a ha hh ↦ ⟨ha hh, congrArg (·.table x.2) (hV _ (ha hh))⟩) fun t ↦ ?_
    rw [bind_assoc]
    let V' (c : Cover) (w : Workspace) : Prop := V w ∧ Cover.ofTable (w₀.catalog.table x.2) o = .ok c
    refine bind (Q := fun c ↦ Honestly conv (V' c)) (.lift (fun c hc a ha hh ↦ ?_) fun a ha ↦ ?_) fun c ↦ ?_
    · obtain ⟨hw, rfl⟩ := ha hh
      exact ⟨hw, hc⟩
    · exact hE a fun hh ↦ (ha hh).1
    · rw [pure_bind]
      refine (ih (V := V' c) (fun w h ↦ hV w h.1) fun a ha ↦ hE a fun hh ↦ (ha hh).1).bind fun cs ↦ ?_
      exact .pure fun a ha hh ↦ ⟨(ha hh).1.1, .cons ⟨rfl, (ha hh).1.2⟩ (ha hh).2⟩

theorem coversOf_leads (ho : Owned conv w₀ tables) (hV : ∀ w, V w → Sought conv w₀ tables w)
    (hE : ∀ a, Honestly conv V a → E a) : Leads E (Honestly conv V) (coversOf labels o)
      fun covers ↦ Honestly conv fun w ↦ V w ∧ Covering w₀ tables labels o covers := by
  refine bind ((tablesOf_leads ho hV hE (fun l (h : l ∈ labels) ↦ h) []).weaken
    fun a ha hh ↦ ⟨ha hh, nodup_nil, by simp⟩) fun found ↦ ?_
  split
  · exact .bind (Q := fun _ _ ↦ False) (.throw fun a ha ↦ hE a fun hh ↦ (ha hh).1) fun _ _ h ↦ h.elim
  · rename_i hsome
    clear hsome
    refine (coverEach_leads (V := fun w ↦ V w ∧ Listed w₀ tables labels found) (fun w h ↦ (hV w h.1).catalog)
      (fun a ha ↦ hE a fun hh ↦ (ha hh).1) found).imp fun covers a ha hh ↦ ?_
    obtain ⟨⟨hw, hlisted⟩, hcovers⟩ := ha hh
    obtain ⟨hlength, hget⟩ := forall₂_iff_get.1 hcovers
    refine ⟨hw, ?_, fun y hy ↦ ?_⟩
    · have : covers.map Prod.fst = found.map Prod.fst :=
        ext_getElem (by simp [hlength]) fun i hi hi' ↦ by simpa using (hget i (by simpa using hi') (by simpa using hi)).1
      rw [this]
      exact hlisted.nodup
    · obtain ⟨i, hi, rfl⟩ := getElem_of_mem hy
      obtain ⟨x, hx, h₁, h₂⟩ : ∃ x ∈ found, covers[i].1 = x.1 ∧ Cover.ofTable (w₀.catalog.table x.2) o = .ok covers[i].2 :=
        ⟨found[i], getElem_mem _, hget i (hlength ▸ hi) hi⟩
      obtain ⟨l, hl, htable, hplace⟩ := hlisted.table x hx
      rw [h₁]
      exact ⟨l, hl, x.2, htable, hplace, h₂⟩

/-- Decisions that no model takes. -/
def Excluded (conv : Conventions) (w₀ : Workspace) (ds : List (Int × Choices)) : Prop :=
  ∀ I, Models conv w₀ I → ¬ ∀ d ∈ ds, Takes I d

/-- No model takes decisions that agree with a member of each cover. -/
def Missed (conv : Conventions) (w₀ : Workspace) (covers : List (Int × Cover)) (chosen : List (Int × Choices)) :
    Prop :=
  ∀ I, Models conv w₀ I → (∀ d ∈ chosen, Takes I d) →
    ¬ ∀ x ∈ covers, ∃ i < x.2.count, Takes I (x.1, x.2.member i)

/-- An attempt that fails establishes something, and one that succeeds has taken its decisions. -/
def Attempted (conv : Conventions) (w₀ : Workspace) (tables : List (Option String × Int)) (labels : List String)
    {α : Type} (F G : Prop) (r : Option α) (a : Asking) : Prop :=
  a.solvers.Honest conv →
    match r with
    | none => Deciding conv w₀ tables labels a.workspace ∧ G ∧ F
    | some _ => Deciding conv w₀ tables [] a.workspace ∧ G

variable {α : Type}

theorem firstOf_leads {f : Nat → Inquiry (Option α)} {n : Nat} {C : Prop} {F : Nat → Prop}
    (hf : ∀ i < n, ∀ G, (G → C) → Leads E (Honestly conv fun w ↦ Deciding conv w₀ tables labels w ∧ G) (f i)
      (Attempted conv w₀ tables labels (F i) G)) (k : Nat) (hk : k ≤ n) (G : Prop) (hG : G → C) :
    Leads E (Honestly conv fun w ↦ Deciding conv w₀ tables labels w ∧ G) (firstOf f n k)
      (Attempted conv w₀ tables labels (∀ i, n - k ≤ i → i < n → F i) G) := by
  induction k generalizing G with
  | zero => exact .pure fun a ha hh ↦ ⟨(ha hh).1, (ha hh).2, fun i h₁ h₂ ↦ absurd h₂ (by omega)⟩
  | succ k ih =>
    refine (hf (n - (k + 1)) (by omega) G hG).bind fun r ↦ ?_
    cases r with
    | some v => exact .pure fun _ ha hh ↦ ha hh
    | none =>
      refine (ih (by omega) (G ∧ F (n - (k + 1))) fun h ↦ hG h.1).imp fun r a ha hh ↦ ?_
      have h := ha hh
      cases r with
      | some v => exact ⟨h.1, h.2.1⟩
      | none =>
        obtain ⟨hd, ⟨hG, hfirst⟩, hrest⟩ := h
        refine ⟨hd, hG, fun i h₁ h₂ ↦ ?_⟩
        obtain rfl | hi := eq_or_ne i (n - (k + 1))
        · exact hfirst
        · exact hrest i (by omega) h₂

/-- Going through all combinations of members of covers without success leaves no model that takes decisions
of any of them. -/
theorem attempts_leads {attempt : List (Int × Choices) → Inquiry (Option α)} {covers₀ : List (Int × Cover)} {C : Prop}
    (hattempt : ∀ chosen, chosen.map Prod.fst = covers₀.map Prod.fst → ∀ G, (G → C) →
      Leads E (Honestly conv fun w ↦ Deciding conv w₀ tables labels w ∧ G) (attempt chosen)
        (Attempted conv w₀ tables labels (Excluded conv w₀ chosen) G))
    (covers : List (Int × Cover)) (chosen : List (Int × Choices))
    (hkeys : chosen.map Prod.fst ++ covers.map Prod.fst = covers₀.map Prod.fst) (G : Prop) (hG : G → C) :
    Leads E (Honestly conv fun w ↦ Deciding conv w₀ tables labels w ∧ G) (attempts attempt covers chosen)
      (Attempted conv w₀ tables labels (Missed conv w₀ covers chosen) G) := by
  induction covers generalizing chosen G with
  | nil =>
    refine (hattempt chosen (by simpa using hkeys) G hG).imp fun r a ha hh ↦ ?_
    have h := ha hh
    cases r with
    | some v => exact h
    | none => exact ⟨h.1, h.2.1, fun I hI ht _ ↦ h.2.2 I hI ht⟩
  | cons x covers ih =>
    obtain ⟨t, c⟩ := x
    refine (firstOf_leads (fun i _ G hG ↦ ih (chosen ++ [(t, c.member i)]) (by simpa using hkeys) G hG) c.count
      (Nat.le_refl _) G hG).imp fun r a ha hh ↦ ?_
    have h := ha hh
    cases r with
    | some v => exact h
    | none =>
      refine ⟨h.1, h.2.1, fun I hI ht hall ↦ ?_⟩
      rw [forall_mem_cons] at hall
      obtain ⟨⟨i, hi, hmember⟩, hrest⟩ := hall
      refine h.2.2 i (by omega) hi I hI (fun d hd ↦ ?_) hrest
      obtain hd | hd := mem_append.1 hd
      · exact ht d hd
      · rw [mem_singleton.1 hd]
        exact hmember

end Covering

/-! ## Going back -/

section Backtracking

variable {p : Prover} {core : List String} {w : Workspace} {pending : List String} {o : Cover.Openness}
  {covers : List (Int × Cover)} {chosen : List (Int × Choices)}

theorem Sought.holds_other (h : Sought conv w₀ tables w) {I : Interpretation}
    (hI : ∀ x ∈ assertions w.formulas, I.Holds x.2) :
    ∀ f ∈ w₀.formulas.entries, ofClause f.label = false → I.Holds f.term := by
  intro f hf hclause
  rw [← h.entries] at hf
  refine hI (f.label, f.term) (mem_append_left _ (mem_map.2 ⟨f, ?_, rfl⟩))
  exact mem_filter.2 ⟨mem_of_mem_filter hf, by simp [hclause]⟩

theorem under_assertDecisions (fs : Formulas) : (assertDecisions fs).under = fs.under := by
  unfold assertDecisions
  split <;> rfl

theorem Deciding.assertDecisions (h : Deciding conv w₀ tables pending w) :
    Deciding conv w₀ tables pending { w with formulas := assertDecisions w.formulas } ∧
      Stated (Search.assertDecisions w.formulas) := by
  refine ⟨⟨h.1.assertDecisions.1, fun d hd ↦ h.2 d ?_⟩, h.1.assertDecisions.2⟩
  rwa [← under_assertDecisions w.formulas]

theorem Deciding.learned (h : Deciding conv w₀ tables pending w)
    {conflicts : List (String × Term)} {conflictCount : Nat} {messages : List Message}
    (hc : ∀ c ∈ conflicts, Learned conv w₀ tables c) : Deciding conv w₀ tables pending
      { w with formulas := { w.formulas with conflicts, conflictCount }, messages } :=
  ⟨{ h.1 with conflicts := hc }, h.2⟩

theorem Covering.label (hc : Covering w₀ tables core o covers) (hkeys : chosen.map Prod.fst = covers.map Prod.fst) {d : Int × Choices}
    (hd : d ∈ chosen) : ∃ l ∈ core, tables.lookup (some l) = some d.1 := by
  have hmem : d.1 ∈ covers.map Prod.fst := hkeys ▸ mem_map_of_mem hd
  obtain ⟨x, hx, he⟩ := mem_map.1 hmem
  obtain ⟨l, hl, _, htable, -⟩ := hc.cover x hx
  exact ⟨l, hl, he ▸ htable⟩

/-- Decisions to be tried out replace the current ones. -/
theorem Deciding.try (h : Deciding conv w₀ tables pending w) (hc : Covering w₀ tables core o covers) (hkeys : chosen.map Prod.fst = covers.map Prod.fst) :
    Deciding conv w₀ tables core { w with formulas := { w.formulas with under := chosen } } := by
  refine ⟨{ h.1 with nodup := ?_, known := fun d hd ↦ ?_ }, fun d hd ↦ .inr (hc.label hkeys hd)⟩
  · change (chosen.map Prod.fst).Nodup
    rw [hkeys]
    exact hc.nodup
  · obtain ⟨l, -, htable⟩ := hc.label hkeys hd
    exact mem_map.2 ⟨_, mem_of_lookup htable, rfl⟩

variable (ho : Owned conv w₀ tables) (hE : ∀ a pending, Honestly conv (Deciding conv w₀ tables pending) a → E a)
include ho hE

theorem learn_leads {K : Asking → Prop} {F : Prop} {ls : List String}
    (h : ∀ a, K a → Deciding conv w₀ tables pending a.workspace ∧ F ∧ ∀ I, Models conv w₀ I →
      ¬ ∀ d ∈ a.workspace.formulas.under, (∃ l ∈ ls, tables.lookup (some l) = some d.1) → Takes I d) :
    Leads E (fun a ↦ a.solvers.Honest conv → K a) (encoding (learn ls))
      fun _ ↦ Honestly conv fun w ↦ Deciding conv w₀ tables pending w ∧ F := by
  refine honestly_encoding (fun a ↦ hE a pending) fun a ha ↦ ?_
  obtain ⟨hd, hF, hnone⟩ := h a ha
  obtain ⟨cs, n, ms, hw, hcs⟩ := exec_learn hd.1 ho ls hnone
  rcases hr : exec (learn ls) a.workspace with ⟨e | u, w⟩ <;> rw [hr] at hw <;> dsimp only at hw <;> subst hw
  · exact hd.learned hcs
  · exact ⟨hd.learned hcs, hF⟩

/-- Decisions are tried out: a model is found and gives the decisions, or no model takes them. -/
theorem tryOut_leads {considered : Considered}
    {before : List (Int × Choices)} (hkeys : chosen.map Prod.fst = covers.map Prod.fst) (G : Prop)
    (hG : G → Covering w₀ tables core o covers) : Leads E (Honestly conv fun w ↦ Deciding conv w₀ tables core w ∧ G)
      (do
        Search.changeFormulas ({ · with under := chosen })
        note .debug s!"trying partition {decisionsText chosen}"
        Search.changeFormulas assertDecisions
        let (sat, p) ← ask p
        if sat then
          core.forM (decideIfAny p)
          Search.changeFormulas fun now ↦ assertDecisions { now with considered }
          let changed := changedDecisions before (← formulas).under
          record fun r ↦ { r with changes := r.changes.map (· ++ [changed]) }
          return some ()
        else
          encoding (learn core)
          return none) (Attempted conv w₀ tables core (Excluded conv w₀ chosen) G) := by
  have hE' (a : Asking) (pending : List String)
      (ha : Honestly conv (fun w ↦ Deciding conv w₀ tables pending w ∧ G) a) : E a :=
    hE a pending fun hh ↦ (ha hh).1
  -- What is known when the solver is asked.
  let V (w : Workspace) : Prop := (Deciding conv w₀ tables core w ∧ G) ∧ Stated w.formulas ∧ w.formulas.under = chosen
  have hdeciding : Indifferent fun w ↦ Deciding conv w₀ tables core w ∧ G :=
    (Deciding.indifferent core).and ⟨fun _ _ h ↦ h, fun _ _ h ↦ h, fun _ _ h ↦ h⟩
  have hV : Indifferent V := hdeciding.and ⟨fun _ _ h ↦ h, fun _ _ h ↦ h, fun _ _ h ↦ h⟩
  have hEV (a : Asking) (ha : Honestly conv V a) : E a := hE' a core fun hh ↦ (ha hh).1
  let V₁ (w : Workspace) : Prop := (Deciding conv w₀ tables core w ∧ G) ∧ w.formulas.under = chosen
  have hV₁ : Indifferent V₁ := hdeciding.and ⟨fun _ _ h ↦ h, fun _ _ h ↦ h, fun _ _ h ↦ h⟩
  refine (changeFormulas_leads (U := V₁) fun w h ↦ ⟨⟨h.1.try (hG h.2) hkeys, h.2⟩, rfl⟩).bind fun _ ↦ ?_
  refine (noted hV₁).bind fun _ ↦ (changeFormulas_leads (U := V) fun w h ↦ ?_).bind fun _ ↦ ?_
  · exact ⟨⟨h.1.1.assertDecisions.1, h.1.2⟩, h.1.1.assertDecisions.2, (under_assertDecisions _).trans h.2⟩
  refine (ask_leads hV hEV).bind fun ⟨sat, p⟩ ↦ ?_
  cases sat with
  | true =>
    -- A model gives decisions for all tables of the core.
    refine weaken (choose conv (K := fun I a ↦ (Deciding conv w₀ tables core a.workspace ∧
      G ∧ I.toConventions = conv ∧ ∀ f ∈ w₀.formulas.entries, ofClause f.label = false → I.Holds f.term) ∧
        Tells I p a) fun I ↦ ?_) fun a ha hh ↦ ?_
    · refine (decideIfAny_leads ho (fun a pending ha ↦ hE a pending fun hh ↦ (ha hh).1) (fun h ↦ h.2.1)
        (fun h ↦ h.2.2) core).bind fun _ ↦ ?_
      refine (weaken (P := Honestly conv fun w ↦ Deciding conv w₀ tables [] w ∧ G)
        (changeFormulas_leads (U := fun w ↦ Deciding conv w₀ tables [] w ∧ G) fun w h ↦ ?_)
        fun a ha hh ↦ ?_).bind fun _ ↦ ?_
      · exact ⟨((Deciding.indifferent []).considered w considered h.1).assertDecisions.1, h.2⟩
      · exact ⟨(ha hh).1.1, (ha hh).1.2.1⟩
      · refine formulas_leads.bind fun fs ↦ (recorded fun a r ha ↦ ha).bind fun _ ↦ .pure fun a ha hh ↦ ?_
        exact (ha hh).1
    · obtain ⟨⟨⟨hd, hG⟩, -⟩, I, hI, hholds, ht⟩ := ha hh
      exact ⟨I, ⟨hd, hG, hI, hd.1.holds_other hholds⟩, ht⟩
  | false =>
    refine (learn_leads ho hE (F := G ∧ Excluded conv w₀ chosen) fun a ha ↦ ?_).bind fun _ ↦ .pure fun a ha hh ↦ ha hh
    obtain ⟨⟨⟨hd, hg⟩, hstated, hunder⟩, core', -, hcontra⟩ := ha
    have hex : Excluded conv w₀ chosen := by
      intro I hI
      rw [← hunder]
      exact hd.1.excludes_all hstated hcontra hI
    exact ⟨hd, ⟨hg, hex⟩, fun I hI hall ↦ hex I hI fun d hmem ↦ hall d (hunder ▸ hmem) ((hG hg).label hkeys hmem)⟩

/-- Going back finds decisions that suit the core, or there are covers of the decisions about its tables
such that no model agrees with a member of each. -/
theorem backtrack_leads (core : List String) : Leads E (Honestly conv (Deciding conv w₀ tables [])) (backtrack core)
      fun found a ↦ a.solvers.Honest conv →
        if found then Deciding conv w₀ tables [] a.workspace
        else Sought conv w₀ tables a.workspace ∧
          ∃ covers, Covering w₀ tables core { left := .int 8 } covers ∧ Missed conv w₀ covers [] := by
  refine (noted (Deciding.indifferent [])).bind fun _ ↦ newProver_leads.bind fun p ↦ ?_
  refine (formulas_leads.imp (R := fun _ ↦ Honestly conv (Deciding conv w₀ tables []))
    fun _ _ h hh ↦ (h hh).1).bind fun fs ↦ ?_
  refine (changeFormulas_leads (U := Deciding conv w₀ tables core) fun w h ↦ ?_).bind fun _ ↦ ?_
  · exact ⟨{ h.1 with nodup := nodup_nil, known := by simp }, by simp⟩
  refine (coversOf_leads ho (fun w h ↦ h.1) fun a ha ↦ hE a core ha).bind fun covers ↦ ?_
  refine bind (attempts_leads (fun chosen hkeys G hG ↦ tryOut_leads ho hE hkeys G hG) covers [] rfl
    (Covering w₀ tables core { left := .int 8 } covers) id) fun r ↦ .pure fun a ha hh ↦ ?_
  have h := ha hh
  cases r with
  | some u => exact h.1
  | none => exact ⟨h.1.1, covers, h.2⟩

/-! ## The search -/

omit ho hE in
/-- The contradicting clauses are those of the core that the solver named. -/
theorem countBacktrack_leads {V : Workspace → Prop} (hE : ∀ a, Honestly conv V a → E a) (p : Prover) : Leads E
      (fun a ↦ a.solvers.Honest conv → V a.workspace ∧
        ∃ core, p.core = some core ∧ Contradicts conv (assertions a.workspace.formulas) core) (countBacktrack p)
      fun ls a ↦ a.solvers.Honest conv → V a.workspace ∧ ∃ core lss,
        Contradicts conv (assertions a.workspace.formulas) core ∧ core.mapM clausesOf = .ok lss ∧ ls = lss.flatten := by
  refine (recorded fun _ _ h ↦ h).bind fun _ ↦ ?_
  cases hp : p.core with
  | none => exact .throw fun a ha ↦ hE a fun hh ↦ (ha hh).1
  | some core =>
    refine bind (Q := fun _ a ↦ a.solvers.Honest conv → V a.workspace ∧
      Contradicts conv (assertions a.workspace.formulas) core) (fun a ha hh ↦ ?_) fun fs ↦ ?_
    · obtain ⟨hw, core', hcore, hcontra⟩ := ha hh
      cases hcore
      exact ⟨hw, hcontra⟩
    · refine (recorded fun _ _ h ↦ h).bind fun _ ↦ ?_
      refine (mapM_lift (fun a ha ↦ hE a fun hh ↦ (ha hh).1) core).bind fun lss ↦ .fact fun hlss ↦ ?_
      exact .pure fun a ha hh ↦ ⟨(ha hh).1, core, lss, (ha hh).2, hlss, rfl⟩

/-- After a round with a model, the search goes on with the decisions of the model. -/
theorem solved_leads {α : Type} {p : Prover}
    {Q : α → Asking → Prop} {worklist : List String} {next : List String × List (List String)}
    {go : List String → List (List String) → Inquiry α}
    (hgo : ∀ worklist remaining, Leads E (Honestly conv (Deciding conv w₀ tables [])) (go worklist remaining) Q) :
    Leads E (fun a ↦ a.solvers.Honest conv → (Deciding conv w₀ tables [] a.workspace ∧ Stated a.workspace.formulas) ∧
        ∃ I, I.toConventions = conv ∧ (∀ x ∈ assertions a.workspace.formulas, I.Holds x.2) ∧ Tells I p a) (do
        record fun r ↦ { r with solved := r.solved.map (· + 1) }
        worklist.forM (decideLabel p)
        let (worklist, remaining) := next
        worklist.forM consider
        go worklist remaining) Q := by
  refine (recorded fun _ _ h ↦ h).bind fun _ ↦ ?_
  refine weaken (choose conv (K := fun I a ↦ (Deciding conv w₀ tables [] a.workspace ∧
    I.toConventions = conv ∧ ∀ f ∈ w₀.formulas.entries, ofClause f.label = false → I.Holds f.term) ∧
      Tells I p a) fun I ↦ ?_) fun a ha hh ↦ ?_
  · refine (forM fun l _ ↦ decideLabel_leads ho (fun a pending ha ↦ hE a pending fun hh ↦ (ha hh).1) (·.1)
      (·.2) l).bind fun _ ↦ ?_
    refine weaken (P := Honestly conv (Deciding conv w₀ tables [])) ?_ fun a ha hh ↦ (ha hh).1.1
    exact (forM fun l _ ↦ consider_leads (Deciding.indifferent []) (fun a ↦ hE a []) l).bind fun _ ↦ hgo _ _
  · obtain ⟨⟨hd, -⟩, I, hI, hholds, ht⟩ := ha hh
    exact ⟨I, ⟨hd, hI, hd.1.holds_other hholds⟩, ht⟩

/-- At the end of the rounds the invariant holds; if they end without success, then there are covers of
the decisions about the tables of some clauses such that no model agrees with a member of each. -/
theorem rounds_leads (fuel : Nat) (p : Prover)
    (worklist : List String) (remaining : List (List String)) (backtracks : Nat) :
    Leads E (Honestly conv (Deciding conv w₀ tables [])) (search.rounds fuel p worklist remaining backtracks)
      fun r a ↦ a.solvers.Honest conv → Sought conv w₀ tables a.workspace ∧
        (r = none → ∃ core covers, Covering w₀ tables core { left := .int 8 } covers ∧ Missed conv w₀ covers []) := by
  have hV : Indifferent (Deciding conv w₀ tables []) := Deciding.indifferent []
  -- When the solver is asked, the decisions are asserted.
  let V (w : Workspace) : Prop := Deciding conv w₀ tables [] w ∧ Stated w.formulas
  have hstated : Indifferent V := hV.and ⟨fun _ _ h ↦ h, fun _ _ h ↦ h, fun _ _ h ↦ h⟩
  have hEV (a : Asking) (ha : Honestly conv V a) : E a := hE a [] fun hh ↦ (ha hh).1
  induction fuel generalizing p worklist remaining backtracks with
  | zero => exact .throw fun a ha ↦ hE a [] ha
  | succ fuel ih =>
    unfold search.rounds
    split
    · refine (formulas_leads.imp (R := fun _ ↦ Honestly conv (Deciding conv w₀ tables []))
        fun _ _ h hh ↦ (h hh).1).bind fun fs ↦ (noted hV).bind fun _ ↦ (noted hV).bind fun _ ↦ ?_
      exact .pure fun a ha hh ↦ ⟨(ha hh).1, by simp⟩
    · refine (recorded fun _ _ h ↦ h).bind fun _ ↦ ?_
      refine (changeFormulas_leads (U := V) fun w h ↦ h.assertDecisions).bind fun _ ↦ ?_
      refine (formulas_leads.imp (R := fun _ ↦ Honestly conv V) fun _ _ h hh ↦ (h hh).1).bind fun fs ↦
        (noted hstated).bind fun _ ↦ (noted hstated).bind fun _ ↦ (ask_leads hstated hEV).bind fun ⟨sat, p⟩ ↦ ?_
      cases sat with
      | true => exact solved_leads ho hE fun worklist remaining ↦ ih p worklist remaining backtracks
      | false =>
        have hnote {level : Level} {text : String} : Leads E (fun a ↦ a.solvers.Honest conv → V a.workspace ∧
            ∃ core, p.core = some core ∧ Contradicts conv (assertions a.workspace.formulas) core)
            (note level text) fun _ a ↦ a.solvers.Honest conv → V a.workspace ∧
              ∃ core, p.core = some core ∧ Contradicts conv (assertions a.workspace.formulas) core :=
          note_leads fun a m ha hh ↦ ⟨hstated.messages _ m (ha hh).1, (ha hh).2⟩
        refine hnote.bind fun _ ↦ hnote.bind fun _ ↦ (countBacktrack_leads hEV p).bind fun core ↦ ?_
        refine (learn_leads ho hE (F := True) fun a ha ↦ ?_).bind fun _ ↦
          ((backtrack_leads ho hE core).weaken fun a ha hh ↦ (ha hh).1).bind fun found ↦ ?_
        · obtain ⟨⟨hd, hstated⟩, _, _, hcontra, hlss, rfl⟩ := ha
          have hdecided : ∀ d ∈ a.workspace.formulas.under, Decided conv w₀ d :=
            fun d hmem ↦ (hd.2 d hmem).resolve_right (by simp)
          exact ⟨hd, trivial, fun I hI ↦ hd.1.excludes_core ho hstated hdecided hcontra hlss hI⟩
        cases found with
        | true => exact ih p worklist remaining (backtracks + 1)
        | false =>
          refine (note_leads fun a m ha hh ↦ ?_).bind fun _ ↦ .pure fun a ha hh ↦ ?_
          · exact ⟨{ (ha hh).1 with }, (ha hh).2⟩
          · obtain ⟨h, hcovers⟩ := ha hh
            exact ⟨h, fun _ ↦ ⟨core, hcovers⟩⟩

end Backtracking

/-- All conflicts learned follow from the formulas, if everything that was said is true. -/
def Sound (conv : Conventions) (w₀ : Workspace) (a : Asking) : Prop :=
  a.solvers.Honest conv → ∀ c ∈ a.workspace.formulas.conflicts, ∀ I, Models conv w₀ I → I.Holds c.2

theorem Sought.sound {a : Asking} (h : a.solvers.Honest conv → Sought conv w₀ tables a.workspace) :
    Sound conv w₀ a := by
  intro hh c hc
  obtain ⟨-, -, -, -, -, hsound⟩ := (h hh).conflicts c hc
  exact hsound

/-- The search begins when the table of each label is found out. -/
theorem Deciding.begin {messages : List Message} (ho : Owned conv w₀ tables) (hunder : w₀.formulas.under = [])
    (hconflicts : w₀.formulas.conflicts = []) : Deciding conv w₀ tables [] { w₀ with
      formulas := { w₀.formulas with tableOf := some tables }, messages } := by
  have hnone : ∀ f ∈ w₀.formulas.entries, (f.label == decisionLabel) = false :=
    fun f hf ↦ beq_eq_false_iff_ne.2 (ho.fresh f hf)
  refine ⟨⟨rfl, rfl, rfl, ?_, ?_, ?_, ?_, ?_⟩, ?_⟩
  · exact filter_eq_self.2 fun f hf ↦ by simpa using ho.fresh f hf
  · rw [countP_eq_zero.2 fun f hf ↦ by simp [hnone f hf]]
    exact Nat.zero_le 1
  all_goals simp [hunder, hconflicts]

/-- A search learns only what follows, whether it succeeds or not; and if it gives up, then there are covers
of the decisions about the tables of some clauses such that no model agrees with a member of each. -/
theorem search_leads (hunder : w₀.formulas.under = []) (hconflicts : w₀.formulas.conflicts = [])
    (ho : ∀ tables, tablesOfLabels w₀ = .ok tables → Owned conv w₀ tables) (outputs : List Nat) :
    Leads (Sound conv w₀) (fun a ↦ a.workspace = w₀) (search outputs)
      fun r a ↦ Sound conv w₀ a ∧ (a.solvers.Honest conv → r = none →
        ∃ tables core covers, tablesOfLabels w₀ = .ok tables ∧
          Covering w₀ tables core { left := .int 8 } covers ∧ Missed conv w₀ covers []) := by
  have hstart (a : Asking) (ha : a.workspace = w₀) : Sound conv w₀ a := by
    intro _ c hc
    rw [ha, hconflicts] at hc
    cases hc
  refine bind (Q := fun _ a ↦ a.workspace = w₀) (recorded fun _ _ h ↦ h) fun _ ↦ ?_
  refine bind (Q := fun _ a ↦ ∃ tables, tablesOfLabels w₀ = .ok tables ∧
    Honestly conv (Deciding conv w₀ tables []) a) (.encoding fun a ha ↦ ?_) fun _ ↦ .exists' fun tables ↦ .fact fun htables ↦ ?_
  · obtain ⟨w, l, s, r, sh⟩ := a
    dsimp only at ha
    subst ha
    unfold findTables
    rw [exec_bind, exec_get]
    dsimp only
    rw [exec_bind, exec_lift]
    cases htables : tablesOfLabels w with
    | error e => exact hstart _ rfl
    | ok tables => exact ⟨tables, rfl, fun _ ↦ .begin (ho tables htables) hunder hconflicts⟩
  have ho := ho tables htables
  have hE (a : Asking) (pending : List String) (ha : Honestly conv (Deciding conv w₀ tables pending) a) :
      Sound conv w₀ a := Sought.sound fun hh ↦ (ha hh).1
  have hV : Indifferent (Deciding conv w₀ tables []) := Deciding.indifferent []
  have hconsider (l : String) : Leads (Sound conv w₀) (Honestly conv (Deciding conv w₀ tables [])) (consider l)
      fun _ ↦ Honestly conv (Deciding conv w₀ tables []) := consider_leads hV (fun a ↦ hE a []) l
  have hrounds (fuel : Nat) (p : Prover) (worklist : List String) (remaining : List (List String)) :
      Leads (Sound conv w₀) (Honestly conv (Deciding conv w₀ tables [])) (search.rounds fuel p worklist remaining 0)
        fun r a ↦ Sound conv w₀ a ∧ (a.solvers.Honest conv → r = none →
          ∃ tables core covers, tablesOfLabels w₀ = .ok tables ∧
            Covering w₀ tables core { left := .int 8 } covers ∧ Missed conv w₀ covers []) := by
    refine (rounds_leads ho hE fuel p worklist remaining 0).imp fun r a ha ↦ ⟨Sought.sound fun hh ↦ (ha hh).1, ?_⟩
    intro hh hr
    obtain ⟨core, covers, hcovers⟩ := (ha hh).2 hr
    exact ⟨tables, core, covers, htables, hcovers⟩
  have hformulas : Leads (Sound conv w₀) (Honestly conv (Deciding conv w₀ tables [])) formulas
      fun _ ↦ Honestly conv (Deciding conv w₀ tables []) := formulas_leads.imp fun _ _ h hh ↦ (h hh).1
  refine newProver_leads.bind fun p ↦ ?_
  refine bind (Q := fun _ ↦ Honestly conv (Deciding conv w₀ tables []))
    (hformulas.bind fun _ ↦ recorded fun _ _ h ↦ h) fun _ ↦ ?_
  refine hformulas.bind fun fs ↦ (forM fun l _ ↦ hconsider l).bind fun _ ↦ ?_
  refine (mapM fun place _ ↦ .encoding fun _ ha ↦ ha).bind fun outs ↦ ?_
  refine bind (Q := fun _ ↦ Honestly conv (Deciding conv w₀ tables []))
    (.lift (fun _ _ _ ha ↦ ha) fun a ha ↦ hE a [] ha) fun queries ↦ (noted hV).bind fun _ ↦ ?_
  cases queries with
  | nil => exact .throw fun a ha ↦ hE a [] ha
  | cons first rest =>
    refine (forM fun l _ ↦ hconsider l).bind fun _ ↦ ?_
    refine bind (Q := fun _ ↦ Honestly conv (Deciding conv w₀ tables [])) (.get fun _ ha ↦ ha) fun a ↦ ?_
    dsimp only
    split
    · exact (forM fun l _ ↦ hconsider l).bind fun _ ↦ hrounds _ _ _ _
    · exact hrounds _ _ _ _

end QueryEquiv.Search
