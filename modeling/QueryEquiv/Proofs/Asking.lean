import QueryEquiv.Proofs.Meaning
import QueryEquiv.Proofs.Running
import QueryEquiv.Search

/-!
# Asking solvers

What a computation that asks solvers leads to, whether it succeeds or fails, and what a truthful solver says:
if its verdict is that there is a model, then the choices that it tells are those of a model, and if its
verdict is that there is none, then the assertions that it names contradict each other.

`Leads` is a triple with a postcondition for failure, so that an invariant reaches every point at
which a search may stop.
-/

namespace QueryEquiv

open List

/-! ## Truthful solvers -/

namespace SolverReply

variable {ls : List String} {a : Asking} {l : String}

/-- The verdict among the lines, with what is printed behind it. -/
def verdict? : List String → Option (Bool × List String)
  | [] => none
  | l :: ls =>
    if Solvers.trimmed l == "sat" then some (true, ls)
    else if Solvers.trimmed l == "unsat" then some (false, ls)
    else verdict? ls

/-- The verdict that is read: a line that tells of an error ends the reading. -/
def heard? : List String → Option (Bool × List String)
  | [] => none
  | l :: ls =>
    if Solvers.trimmed l == "sat" then some (true, ls)
    else if Solvers.trimmed l == "unsat" then some (false, ls)
    else
      let low := Text.lower (Solvers.trimmed l)
      if Text.occursIn "error" low || Text.occursIn "unsupported" low then none else heard? ls

theorem verdict?_of_heard {v : Bool × List String} (h : heard? ls = some v) : verdict? ls = some v := by
  induction ls with
  | nil => cases h
  | cons l ls ih =>
    unfold verdict?
    unfold heard? at h
    grind

/-- The value of a choice in the model. -/
def choice? (r : SolverReply) (table bit : Int) : Option Int :=
  Text.readInt? (Inquiry.plainNumber (Inquiry.trimEnd (Solvers.valueLine r "choice" [table, bit])))

/-- The assertions that are read as contradicting each other, behind a verdict with more lines. -/
def named (r : SolverReply) (rest : List String) : List String :=
  Solvers.words (Solvers.inner (Solvers.trimmed (rest.headD (Solvers.coreLine r))))

/-- The assertions that are said to contradict each other. -/
def contradicting (r : SolverReply) : List String :=
  Solvers.words (Solvers.inner (Solvers.trimmed (Solvers.coreLine r)))

/-- What a reply says about assertions is true. -/
def Truthful (conv : Conventions) (r : SolverReply) (asserted : List (String × Term)) : Prop :=
  match verdict? r.lines with
  | none => True
  | some (true, rest) =>
    rest = [] ∧ ∃ I : Interpretation, I.toConventions = conv ∧ (∀ a ∈ asserted, I.Holds a.2) ∧
      ∀ t b, r.choice? t b = some (I.choice t b)
  | some (false, rest) =>
    rest = [] ∧ ∀ I : Interpretation, I.toConventions = conv →
      ¬ ∀ a ∈ asserted, a.1 ∈ r.contradicting → I.Holds a.2

end SolverReply

namespace Solvers

/-- A check as it was begun, whatever was read and asked since. -/
def sent (s : Solvers) (i : Nat) : Option SolverExchange :=
  s.exchanges[i]?.map fun e ↦ { e with unread := [], asked := [] }

/-- What was said in a check, and about which assertions. -/
def said (s : Solvers) (i : Nat) : Option (Option SolverReply × List (String × Term)) :=
  (s.sent i).map fun e ↦ (e.reply, e.asserted)

/-- Everything that was said in the checks so far is true. -/
def Honest (conv : Conventions) (s : Solvers) : Prop :=
  ∀ i r asserted, s.said i = some (some r, asserted) → r.Truthful conv asserted

variable {s s' : Solvers} {conv : Conventions}

theorem Honest.of_said_eq (h : s'.said = s.said) (hs : Honest conv s') : Honest conv s :=
  fun i r asserted hr ↦ hs i r asserted (h ▸ hr)

theorem said_congr (h : s'.sent = s.sent) : s'.said = s.said := by
  funext i
  rw [said, said, h]

variable {e : SolverExchange}

/-- Changing what is read and asked in a check changes nothing of how it was begun. -/
theorem sent_set {i : Nat} {e' : SolverExchange} (he : s.exchanges[i]? = some e)
    (h : { e' with unread := [], asked := [] } = ({ e with unread := [], asked := [] } : SolverExchange)) :
    sent { s with exchanges := s.exchanges.set! i e' } = s.sent := by
  funext j
  unfold sent
  simp only [Array.set!_eq_setIfInBounds, Array.getElem?_setIfInBounds]
  split
  · rename_i hij
    subst hij
    rw [he]
    have hlt : i < s.exchanges.size := (Array.getElem?_eq_some_iff.1 he).1
    simp only [hlt, if_true, Option.map_some, h]
  · rfl

theorem sent_modify (s : Solvers) (i : Nat) {f : SolverExchange → SolverExchange}
    (h : ∀ e, { f e with unread := [], asked := [] } = ({ e with unread := [], asked := [] } : SolverExchange)) :
    sent { s with exchanges := s.exchanges.modify i f } = s.sent := by
  funext j
  unfold sent
  rw [Array.getElem?_modify]
  split
  · rw [Option.map_map]
    exact congrArg (fun g ↦ Option.map g s.exchanges[j]?) (funext h)
  · rfl

/-- A new check is the last one. -/
theorem said_push (s : Solvers) (e : SolverExchange) (rs : List SolverReply) (j : Nat) :
    said { replies := rs, exchanges := s.exchanges.push e } j =
      if j = s.exchanges.size then some (e.reply, e.asserted) else s.said j := by
  unfold said sent
  rw [Array.getElem?_push]
  split <;> rfl

theorem said_size (s : Solvers) : s.said s.exchanges.size = none := by simp [said, sent]

theorem Honest.of_push {rs : List SolverReply}
    (h : Honest conv { replies := rs, exchanges := s.exchanges.push e }) : Honest conv s := by
  intro i r asserted hs
  refine h i r asserted ?_
  rw [said_push, if_neg]
  · exact hs
  · rintro rfl
    rw [said_size] at hs
    cases hs

end Solvers

/-! ## What an inquiry leads to -/

/-- What an inquiry comes to. -/
def inquire {α : Type} (x : Inquiry α) (a : Asking) : Outcome α × Asking := x.run.run a

variable {α : Type}

theorem inquire_bind {β : Type} (x : Inquiry α) (f : α → Inquiry β) (a : Asking) : inquire (x >>= f) a =
      match inquire x a with
      | (.ok v, b) => inquire (f v) b
      | (.error e, b) => (.error e, b) := by
  unfold inquire
  rw [ExceptT.run_bind, StateT.run_bind]
  rcases x.run.run a with ⟨e | v, b⟩ <;> rfl

theorem inquire_get (a : Asking) : inquire get a = (.ok a, a) := rfl

theorem inquire_encoding (x : Encoding α) (a : Asking) :
    inquire (Inquiry.encoding x) a = ((exec x a.workspace).1, { a with workspace := (exec x a.workspace).2 }) := by
  unfold Inquiry.encoding
  rw [inquire_bind, inquire_get]
  dsimp only [exec]
  rcases x.run.run a.workspace with ⟨e | v, w⟩ <;> rfl

theorem inquire_dialogue (x : Library.Dialogue α) (a : Asking) :
    inquire (Inquiry.dialogue x) a = ((x.run.run a.library).1, { a with library := (x.run.run a.library).2 }) := by
  unfold Inquiry.dialogue
  rw [inquire_bind, inquire_get]
  dsimp only
  rcases x.run.run a.library with ⟨e | v, w⟩ <;> rfl

theorem inquire_tryCatch (x : Inquiry α) (handle : Fault → Inquiry α) (a : Asking) : inquire (tryCatch x handle) a =
      match inquire x a with
      | (.ok v, b) => (.ok v, b)
      | (.error e, b) => inquire (handle e) b := by
  unfold inquire ExceptT.run StateT.run
  simp only [tryCatch, tryCatchThe, MonadExceptOf.tryCatch, ExceptT.tryCatch, ExceptT.mk, bind, StateT.bind]
  rcases x a with ⟨e | v, b⟩ <;> rfl

section Success

variable {α β : Type} {a b : Asking} {v : α}

/-- An inquiry that succeeds is made of steps that succeed. -/
theorem inquire_bind_ok {x : Inquiry β} {f : β → Inquiry α} :
    inquire (x >>= f) a = (.ok v, b) ↔ ∃ u c, inquire x a = (.ok u, c) ∧ inquire (f u) c = (.ok v, b) := by
  rw [inquire_bind]
  rcases inquire x a with ⟨e | u, c⟩
  · simp
  · constructor
    · exact fun h ↦ ⟨u, c, rfl, h⟩
    · rintro ⟨u', c', h, hv⟩
      cases h
      exact hv

theorem inquire_lift_ok {x : Outcome α} : inquire (liftM x) a = (.ok v, b) ↔ x = .ok v ∧ b = a := by
  change (x, a) = (Except.ok v, b) ↔ _
  simp [eq_comm]

theorem gives_of_encoding {x : Encoding α} (h : inquire (Inquiry.encoding x) a = (.ok v, b)) :
    Gives x a.workspace v b.workspace := by
  rw [inquire_encoding] at h
  obtain ⟨hv, rfl⟩ := Prod.mk.inj h
  exact Prod.ext hv rfl

theorem workspace_of_dialogue {x : Library.Dialogue α} (h : inquire (Inquiry.dialogue x) a = (.ok v, b)) :
    b.workspace = a.workspace := by
  rw [inquire_dialogue] at h
  obtain ⟨-, rfl⟩ := Prod.mk.inj h
  rfl

end Success

/-- From states with a property an inquiry leads to a result and a state with another, or it fails in a
state with a third. -/
def Leads {α : Type} (E P : Asking → Prop) (x : Inquiry α) (Q : α → Asking → Prop) : Prop :=
  ∀ ⦃a⦄, P a →
    match inquire x a with
    | (.ok v, b) => Q v b
    | (.error _, b) => E b

namespace Leads

variable {α β : Type} {E P : Asking → Prop} {Q R : α → Asking → Prop} {S : β → Asking → Prop}

theorem pure {v : α} (h : ∀ a, P a → Q v a) : Leads E P (pure v) Q := fun a ha ↦ h a ha

theorem throw {e : Fault} (h : ∀ a, P a → E a) : Leads E P (throw e) Q := fun a ha ↦ h a ha

variable {x : Inquiry α} {f : α → Inquiry β} {P' : Asking → Prop}

theorem bind (hx : Leads E P x Q) (hf : ∀ v, Leads E (Q v) (f v) S) : Leads E P (x >>= f) S := by
  intro a ha
  have h := hx ha
  rw [inquire_bind]
  rcases hr : inquire x a with ⟨e | v, b⟩
  · rw [hr] at h
    exact h
  · rw [hr] at h
    exact hf v h

theorem imp (hx : Leads E P x Q) (h : ∀ v a, Q v a → R v a) : Leads E P x R := by
  intro a ha
  have hx := hx ha
  rcases hr : inquire x a with ⟨e | v, b⟩
  · rw [hr] at hx
    exact hx
  · rw [hr] at hx
    exact h v b hx

/-- After a result that is known. -/
theorem bind_eq {v : α} (hx : Leads E P x fun r a ↦ r = v ∧ P' a) (hf : Leads E P' (f v) S) : Leads E P (x >>= f) S :=
  hx.bind fun r a ⟨hr, ha⟩ ↦ by
    subst hr
    exact hf ha

theorem weaken (hx : Leads E P x Q) (h : ∀ a, P' a → P a) : Leads E P' x Q := fun a ha ↦ hx (h a ha)

theorem get {T : Asking → Asking → Prop} (h : ∀ a, P a → T a a) : Leads E P get T := fun a ha ↦ h a ha

theorem modify {f : Asking → Asking} {T : PUnit → Asking → Prop} (h : ∀ a, P a → T ⟨⟩ (f a)) :
    Leads E P (modify f) T := fun a ha ↦ h a ha

theorem encoding {x : Encoding α} (h : ∀ a, P a → match exec x a.workspace with
      | (.ok v, w) => Q v { a with workspace := w }
      | (.error _, w) => E { a with workspace := w }) : Leads E P (Inquiry.encoding x) Q := by
  intro a ha
  have h := h a ha
  rw [inquire_encoding]
  rcases hr : exec x a.workspace with ⟨e | v, w⟩
  · rw [hr] at h
    exact h
  · rw [hr] at h
    exact h

theorem lift {x : Outcome α} (hok : ∀ v, x = .ok v → ∀ a, P a → Q v a) (herr : ∀ a, P a → E a) :
    Leads E P (liftM x) Q := by
  intro a ha
  change match (x, a) with
    | (.ok v, b) => Q v b
    | (.error _, b) => E b
  cases x with
  | error e => exact herr a ha
  | ok v => exact hok v rfl a ha

theorem dialogue {x : Library.Dialogue α} (hok : ∀ v l, ∀ a, P a → Q v { a with library := l })
    (herr : ∀ l, ∀ a, P a → E { a with library := l }) : Leads E P (Inquiry.dialogue x) Q := by
  intro a ha
  rw [inquire_dialogue]
  rcases x.run.run a.library with ⟨e | v, l⟩
  · exact herr l a ha
  · exact hok v l a ha

/-- What is attempted may fail, but then nothing more comes of it. -/
theorem attempt {φ : Prop} {x : Inquiry Unit} {Q : Unit → Asking → Prop} (h : ∀ a, φ → Q () a) :
    Leads E (fun _ ↦ φ) (tryCatch x fun _ ↦ return) Q := by
  intro a ha
  rw [inquire_tryCatch]
  rcases inquire x a with ⟨e | v, b⟩
  · exact h b ha
  · exact h b ha

/-- A property that holds whatever comes of an inquiry is one of the state behind it. -/
theorem state (hx : Leads P P x fun _ ↦ P) (ha : P a) : P (inquire x a).2 := by
  have h := hx ha
  rcases hr : inquire x a with ⟨e | v, b⟩ <;> rw [hr] at h
  · exact h
  · exact h

/-- A property that some value is chosen for beforehand. -/
theorem exists' {ι : Type} {P : ι → Asking → Prop} (h : ∀ i, Leads E (P i) x Q) :
    Leads E (fun a ↦ ∃ i, P i a) x Q := fun _ ⟨i, hi⟩ ↦ h i hi

theorem fact {φ : Prop} (h : φ → Leads E P x Q) : Leads E (fun a ↦ φ ∧ P a) x Q :=
  fun _ ⟨hφ, ha⟩ ↦ h hφ ha

/-- An interpretation that is there as long as everything that was said is true. -/
theorem choose (conv : Conventions) {K : Interpretation → Asking → Prop}
    (h : ∀ I, Leads E (fun a ↦ a.solvers.Honest conv → K I a) x Q) :
    Leads E (fun a ↦ a.solvers.Honest conv → ∃ I, K I a) x Q := by
  intro a ha
  by_cases hh : a.solvers.Honest conv
  · obtain ⟨I, hI⟩ := ha hh
    exact h I fun _ ↦ hI
  · exact h (.zero conv) fun h ↦ absurd h hh

theorem forM {f : β → Inquiry PUnit} {l : List β} (h : ∀ b ∈ l, Leads E P (f b) fun _ ↦ P) :
    Leads E P (l.forM f) fun _ ↦ P := by
  induction l with
  | nil => exact pure fun _ ha ↦ ha
  | cons b l ih =>
    change Leads E P (f b >>= fun _ ↦ l.forM f) _
    exact (h b mem_cons_self).bind fun _ ↦ ih fun b hb ↦ h b (mem_cons_of_mem _ hb)

theorem mapM {f : β → Inquiry α} {l : List β} (h : ∀ b ∈ l, Leads E P (f b) fun _ ↦ P) :
    Leads E P (l.mapM f) fun _ ↦ P := by
  induction l with
  | nil =>
    rw [mapM_nil]
    exact pure fun _ ha ↦ ha
  | cons b l ih =>
    rw [mapM_cons]
    exact (h b mem_cons_self).bind fun _ ↦
      (ih fun b hb ↦ h b (mem_cons_of_mem _ hb)).bind fun _ ↦ pure fun _ ha ↦ ha

theorem mapM_lift {f : β → Outcome α} (hE : ∀ a, P a → E a) (l : List β) :
    Leads E P (l.mapM fun b ↦ liftM (f b)) fun vs a ↦ l.mapM f = .ok vs ∧ P a := by
  induction l with
  | nil =>
    rw [mapM_nil]
    exact pure fun _ ha ↦ ⟨rfl, ha⟩
  | cons b l ih =>
    rw [mapM_cons]
    refine bind (Q := fun v a ↦ f b = .ok v ∧ P a) (lift (fun v hv a ha ↦ ⟨hv, ha⟩) hE) fun v ↦ fact fun hv ↦ ?_
    refine ih.bind fun vs ↦ fact fun hvs ↦ pure fun _ ha ↦ ⟨?_, ha⟩
    rw [mapM_cons, hv, hvs]
    rfl

end Leads

/-! ## Checks -/

namespace Inquiry

variable {conv : Conventions} {E : Asking → Prop} {V : Workspace → Prop} {p : Prover}

def Contradicts (conv : Conventions) (asserted : List (String × Term)) (core : List String) : Prop :=
  ∀ I : Interpretation, I.toConventions = conv → ¬ ∀ x ∈ asserted, x.1 ∈ core → I.Holds x.2

/-- The last check of a prover tells the choices of an interpretation. -/
def Tells (I : Interpretation) (p : Prover) (a : Asking) : Prop :=
  ∃ i e r, p.exchange = some i ∧ a.solvers.exchanges[i]? = some e ∧ e.reply = some r ∧ e.unread = [] ∧
    ∀ t b, r.choice? t b = some (I.choice t b)

variable {i : Nat} {e : SolverExchange} {P : Asking → Prop} {text : String} {asserted : List (String × Term)}
  {I : Interpretation}

theorem inquire_nextLine_cons (he : a.solvers.exchanges[i]? = some e) (hl : e.unread = l :: ls) :
    inquire (nextLine i) a = (.ok (some l), { a with solvers :=
      { a.solvers with exchanges := a.solvers.exchanges.set! i { e with unread := ls } } }) := by
  unfold nextLine
  rw [inquire_bind, inquire_get]
  dsimp only
  rw [he]
  dsimp only
  rw [hl]
  rfl

theorem inquire_nextLine_nil (he : a.solvers.exchanges[i]? = some e) (hl : e.unread = []) :
    inquire (nextLine i) a = (.ok none, a) := by
  unfold nextLine
  rw [inquire_bind, inquire_get]
  dsimp only
  rw [he]
  dsimp only
  rw [hl]
  rfl

theorem note_leads {level : Level} (h : ∀ a m, P a → P { a with workspace := { a.workspace with messages := m } }) :
    Leads E P (note level text) fun _ ↦ P := by
  intro a ha
  rw [note, inquire_encoding]
  exact h a _ ha

theorem failed_leads {α : Type} {Q : α → Asking → Prop}
    (h : ∀ a m, P a → P { a with workspace := { a.workspace with messages := m } }) (hE : ∀ a, P a → E a) :
    Leads E P failed Q :=
  (note_leads h).bind fun _ ↦ .throw hE

/-- The exchange that a check begins with. -/
def opening (p : Prover) (script : String) (asserted : List (String × Term)) (reply : Option SolverReply) :
    SolverExchange :=
  { options := p.options, script, asserted, reply, unread := (reply.map (·.lines)).getD [] }

def begun (s : Solvers) (p : Prover) (script : String) (asserted : List (String × Term)) : Solvers :=
  { replies := s.replies.tail, exchanges := s.exchanges.push (opening p script asserted s.replies.head?) }

theorem inquire_start (script : String) (asserted : List (String × Term)) (a : Asking) :
    inquire (start p script asserted) a = (.ok (a.solvers.exchanges.size, a.solvers.replies.head?.isSome),
      { a with solvers := begun a.solvers p script asserted }) := by
  obtain ⟨w, l, ⟨replies, exchanges⟩, report, shown⟩ := a
  cases replies <;> rfl

section Reading

variable {s : Solvers} {i : Nat} {e : SolverExchange} {ls : List String}

/-- A check has lines to be read, and nothing else was asked since. -/
structure Printed (V : Workspace → Prop) (s : Solvers) (i : Nat) (e : SolverExchange) (ls : List String)
    (a : Asking) : Prop where
  exchange : a.solvers.exchanges[i]? = some { e with unread := ls }
  sent : a.solvers.sent = s.sent
  replies : a.solvers.replies = s.replies
  workspace : V a.workspace

theorem Printed.messages (hV : ∀ w m, V w → V { w with messages := m }) (m : List Message)
    (h : Printed V s i e ls a) : Printed V s i e ls { a with workspace := { a.workspace with messages := m } } :=
  ⟨h.exchange, h.sent, h.replies, hV _ m h.workspace⟩

theorem nextLine_cons_leads :
    Leads E (Printed V s i e (l :: ls)) (nextLine i) fun r a ↦ r = some l ∧ Printed V s i e ls a := by
  intro a h
  rw [inquire_nextLine_cons h.exchange rfl]
  have hlt : i < a.solvers.exchanges.size := (Array.getElem?_eq_some_iff.1 h.exchange).1
  refine ⟨rfl, by simp [hlt], ?_, h.replies, h.workspace⟩
  rw [← h.sent]
  exact Solvers.sent_set h.exchange rfl

theorem nextLine_append_leads : Leads E (Printed V s i e (ls ++ [l])) (nextLine i) fun r a ↦
      r = some (ls.headD l) ∧ Printed V s i e (ls ++ [l]).tail a := by
  cases ls <;> exact nextLine_cons_leads

theorem nextLine_nil_leads : Leads E (Printed V s i e []) (nextLine i) fun r a ↦ r = none ∧ Printed V s i e [] a := by
  intro a h
  rw [inquire_nextLine_nil h.exchange rfl]
  exact ⟨rfl, h⟩

variable {σ : Nat → Option SolverExchange} {asked : List String} {line : SolverReply → String}

theorem print_sent : Leads E (fun a ↦ a.solvers.sent = σ) (print i asked line) fun _ a ↦ a.solvers.sent = σ := by
  rintro a rfl
  refine Solvers.sent_modify _ _ fun e ↦ ?_
  split <;> rfl

theorem nextLine_sent : Leads E (fun a ↦ a.solvers.sent = σ) (nextLine i) fun _ a ↦ a.solvers.sent = σ := by
  refine Leads.bind (Q := fun v a ↦ v = a ∧ a.solvers.sent = σ) (.get fun _ h ↦ ⟨rfl, h⟩) fun v ↦ ?_
  dsimp only
  split
  · rename_i e he
    split
    · refine (Leads.modify fun a ⟨hv, h⟩ ↦ ?_).bind fun _ ↦ .pure fun _ h ↦ h
      subst hv
      rw [← h]
      exact Solvers.sent_set he rfl
    · exact .pure fun _ h ↦ h.2
  · exact .pure fun _ h ↦ h.2

theorem print_leads {r : SolverReply} (hr : e.reply = some r) : Leads E (Printed V s i e ls) (print i asked line)
      fun _ ↦ Printed V s i { e with asked := e.asked ++ asked } (ls ++ [line r]) := by
  intro a h
  refine ⟨?_, (print_sent : Leads E _ (print i asked line) _) h.sent, h.replies, h.workspace⟩
  change (a.solvers.exchanges.modify i _)[i]? = _
  rw [Array.getElem?_modify, if_pos rfl, h.exchange, Option.map_some]
  simp [hr]

/-- The verdict is read off the lines, unless there is none. -/
theorem verdict_leads (hV : ∀ w m, V w → V { w with messages := m }) (fuel : Nat) (hfuel : ls.length < fuel)
    (hE : SolverReply.heard? ls = none → ∀ ls a, Printed V s i e ls a → E a) :
    Leads E (Printed V s i e ls) (verdict i fuel)
      fun b a ↦ ∃ rest, SolverReply.heard? ls = some (b, rest) ∧ Printed V s i e rest a := by
  have hfail {ls : List String} {Q : Bool → Asking → Prop} (hE : ∀ ls a, Printed V s i e ls a → E a) :
      Leads E (Printed V s i e ls) failed Q :=
    failed_leads (fun _ m h ↦ h.messages hV m) (hE ls)
  induction fuel generalizing ls with
  | zero => omega
  | succ fuel ih =>
    cases ls with
    | nil => exact nextLine_nil_leads.bind_eq (hfail (hE rfl))
    | cons l ls =>
      refine nextLine_cons_leads.bind_eq ?_
      rw [length_cons] at hfuel
      dsimp only
      rw [SolverReply.heard?] at hE ⊢
      dsimp only at hE ⊢
      by_cases hsat : (Solvers.trimmed l == "sat") = true
      · rw [if_pos hsat, if_pos hsat]
        exact .pure fun a h ↦ ⟨ls, rfl, h⟩
      rw [if_neg hsat] at hE ⊢
      rw [if_neg hsat]
      by_cases hunsat : (Solvers.trimmed l == "unsat") = true
      · rw [if_pos hunsat, if_pos hunsat]
        exact .pure fun a h ↦ ⟨ls, rfl, h⟩
      rw [if_neg hunsat] at hE ⊢
      rw [if_neg hunsat]
      split at hE
      · rename_i herror
        rw [if_pos herror]
        exact hfail (hE rfl)
      · rename_i herror
        rw [if_neg herror, if_neg herror]
        split
        · exact (note_leads fun _ m h ↦ h.messages hV m).bind fun _ ↦ ih (by omega) hE
        · exact ih (by omega) hE

end Reading

/-- A check reads the verdict of its reply. If there is no model, the prover is told which assertions contradict each
other. -/
theorem check_leads {s : Solvers} (hV : ∀ w m, V w → V { w with messages := m })
    (hE : ∀ a, a.solvers.sent = (begun s p (Solvers.scriptOf text) asserted).sent → V a.workspace →
      (∀ r, s.replies.head? = some r → SolverReply.heard? r.lines = none) → E a) :
    Leads E (fun a ↦ a.solvers = s ∧ V a.workspace) (check p text asserted) fun v a ↦
      ∃ r rest e ls, s.replies.head? = some r ∧ SolverReply.heard? r.lines = some (v.1, rest) ∧
        v.2.exchange = some s.exchanges.size ∧
        (v.1 = false → v.2.core = if (r.named rest).isEmpty then none else some (r.named rest)) ∧
        e.reply = some r ∧ (v.1 = true → ls = rest) ∧
        Printed V (begun s p (Solvers.scriptOf text) asserted) s.exchanges.size e ls a := by
  rintro a ⟨rfl, hw⟩
  unfold check
  rw [inquire_bind, inquire_start]
  generalize hs : begun a.solvers p (Solvers.scriptOf text) asserted = s at hE ⊢
  cases hreply : a.solvers.replies.head? with
  | none =>
    dsimp only [Option.isSome]
    rw [if_pos (by rfl), inquire_bind, failed, inquire_bind, note, inquire_encoding]
    refine hE _ rfl (hV _ _ hw) fun r hr ↦ ?_
    rw [hreply] at hr
    cases hr
  | some r =>
    have he : s.exchanges[a.solvers.exchanges.size]? = some (opening p (Solvers.scriptOf text) asserted (some r)) := by
      rw [← hs, ← hreply]
      exact Array.getElem?_push_size
    generalize hopening : opening p (Solvers.scriptOf text) asserted (some r) = e at he
    have hr : e.reply = some r := by rw [← hopening]; rfl
    have hlines : e.unread = r.lines := by rw [← hopening]; rfl
    generalize a.solvers.exchanges.size = i at he ⊢
    have hprinted : Printed V s i e r.lines { a with solvers := s } := ⟨by rw [he, ← hlines], rfl, rfl, hw⟩
    refine Leads.bind (P := Printed V s i e r.lines) (Q := fun b ↦ fun c ↦ b.solvers.exchanges[i]? = some e ∧
      Printed V s i e r.lines c) (.get fun _ h ↦ ⟨?_, h⟩) (fun b ↦ .fact fun hb ↦ ?_) hprinted
    · rw [h.exchange, ← hlines]
    rw [hb]
    dsimp only
    rw [hlines]
    refine (verdict_leads hV _ (Nat.lt_succ_self _) fun hnone ls b hb ↦ hE b hb.sent hb.workspace ?_).bind
      fun verdict ↦ .exists' fun rest ↦ .fact fun hheard ↦ ?_
    · intro r' hr'
      rw [hreply] at hr'
      cases hr'
      exact hnone
    cases verdict with
    | true => exact .pure fun b hb ↦ ⟨r, rest, e, rest, rfl, hheard, rfl, fun h ↦ (by cases h), hr, fun _ ↦ rfl, hb⟩
    | false =>
      refine (print_leads hr).bind fun _ ↦ nextLine_append_leads.bind_eq (.pure fun b hb ↦ ?_)
      refine ⟨r, rest, { e with asked := e.asked ++ [] }, _, rfl, hheard, rfl, fun _ ↦ ?_, hr, fun h ↦ (by cases h), hb⟩
      dsimp only
      rw [SolverReply.named]

/-- A check of assertions by a truthful solver tells the choices of a model, or names assertions that
contradict each other. -/
theorem check_truthful (hV : ∀ w m, V w → V { w with messages := m })
    (hE : ∀ a, (a.solvers.Honest conv → V a.workspace) → E a) :
    Leads E (fun a ↦ a.solvers.Honest conv → V a.workspace) (check p text asserted)
      fun r a ↦ a.solvers.Honest conv → V a.workspace ∧
        if r.1 then ∃ I, I.toConventions = conv ∧ (∀ x ∈ asserted, I.Holds x.2) ∧ Tells I r.2 a
        else ∃ core, r.2.core = some core ∧ Contradicts conv asserted core := by
  intro a ha
  -- What is said from here on does not change, so whether it is true is settled.
  let s := begun a.solvers p (Solvers.scriptOf text) asserted
  have honest {b : Asking} (hb : b.solvers.sent = s.sent) (h : b.solvers.Honest conv) : s.Honest conv :=
    h.of_said_eq (Solvers.said_congr hb)
  refine ((check_leads (V := fun w ↦ s.Honest conv → V w) (fun w m h hs ↦ hV w m (h hs)) fun b hb hw _ ↦
    hE b fun h ↦ hw (honest hb h)).imp fun v b hv hh ↦ ?_) ⟨rfl, fun hs ↦ ha hs.of_push⟩
  obtain ⟨r, rest, e, ls, hreply, hheard, hexchange, hcore, hr, hls, hb⟩ := hv
  have hs := honest hb.sent hh
  refine ⟨hb.workspace hs, ?_⟩
  have htrue : r.Truthful conv asserted := by
    refine hs a.solvers.exchanges.size r asserted ?_
    refine (Solvers.said_push _ _ _ _).trans ?_
    rw [if_pos rfl, ← hreply]
    rfl
  unfold SolverReply.Truthful at htrue
  rw [SolverReply.verdict?_of_heard hheard] at htrue
  cases hsat : v.1 with
  | true =>
    rw [hsat] at htrue
    obtain ⟨rfl, I, hconv, hI, hchoice⟩ := htrue
    exact ⟨I, hconv, hI, _, _, r, hexchange, hb.exchange, hr, hls hsat, hchoice⟩
  | false =>
    -- A truthful solver has printed nothing else, so the core is what is read.
    rw [hsat] at htrue
    obtain ⟨rfl, hcontra⟩ := htrue
    -- Nothing contradicts itself.
    have hne : r.contradicting ≠ [] := by
      intro hnil
      rw [hnil] at hcontra
      exact hcontra (.zero conv) rfl (by simp)
    rw [show r.named [] = r.contradicting from rfl, if_neg (by simpa using hne)] at hcore
    exact ⟨_, hcore hsat, hcontra⟩

theorem value_reads {s : Solvers} {r : SolverReply} {f : String} {args : List Int} (hp : p.exchange = some i)
    (hr : e.reply = some r) : Leads E (Printed V s i e ls) (value p f args) fun v a ↦
      v = plainNumber (trimEnd (ls.headD (Solvers.valueLine r f args))) ∧
      ∃ asked, Printed V s i { e with asked } (ls ++ [Solvers.valueLine r f args]).tail a := by
  unfold value
  rw [hp]
  exact (print_leads hr).bind fun _ ↦ nextLine_append_leads.bind_eq (.pure fun a ha ↦ ⟨rfl, _, ha⟩)

theorem value_leads {t b : Int} (hE : ∀ a, (a.solvers.Honest conv → V a.workspace) → E a) :
    Leads E (fun a ↦ a.solvers.Honest conv → V a.workspace ∧ Tells I p a) (value p "choice" [t, b])
      fun s a ↦ a.solvers.Honest conv → (V a.workspace ∧ Tells I p a) ∧ Text.readInt? s = some (I.choice t b) := by
  intro a ha
  by_cases hh : a.solvers.Honest conv
  · obtain ⟨hw, i, e, r, hi, he, hr, hunread, hchoice⟩ := ha hh
    have hprinted : Printed V a.solvers i e [] a := ⟨by rw [he, ← hunread], rfl, rfl, hw⟩
    refine ((value_reads hi hr).imp fun v c hc _ ↦ ?_) hprinted
    obtain ⟨rfl, asked, hc⟩ := hc
    exact ⟨⟨hc.workspace, i, _, r, hi, hc.exchange, hr, rfl, hchoice⟩, hchoice t b⟩
  · have hdishonest (c : Asking) (hc : c.solvers.sent = a.solvers.sent) : ¬ c.solvers.Honest conv :=
      fun h ↦ hh (h.of_said_eq (Solvers.said_congr hc))
    unfold value
    cases p.exchange with
    | none => exact hE a fun h ↦ absurd h hh
    | some i =>
      refine print_sent.bind (fun _ ↦ nextLine_sent.bind fun line ↦ ?_) (rfl : a.solvers.sent = a.solvers.sent)
      cases line with
      | none => exact .throw fun c hc ↦ hE c fun h ↦ absurd h (hdishonest c hc)
      | some l => exact .pure fun c hc h ↦ absurd h (hdishonest c hc)

/-- The choices for a table that are read off a model. -/
def told (I : Interpretation) (id : Int) (bits : List Nat) : Choices :=
  bits.map fun (b : Nat) ↦ .fixed (.int (I.choice id b))

theorem bits_leads {id : Int} (hE : ∀ a, (a.solvers.Honest conv → V a.workspace) → E a) (bits : List Nat) :
    Leads E (fun a ↦ a.solvers.Honest conv → V a.workspace ∧ Tells I p a)
      (bits.mapM fun (b : Nat) ↦ do return Search.bitOf (← value p "choice" [id, b]))
      fun vec a ↦ a.solvers.Honest conv → (V a.workspace ∧ vec = told I id bits) ∧ Tells I p a := by
  induction bits generalizing V with
  | nil =>
    rw [mapM_nil]
    exact .pure fun a h hh ↦ ⟨⟨(h hh).1, rfl⟩, (h hh).2⟩
  | cons b bits ih =>
    rw [mapM_cons, bind_assoc]
    refine (value_leads hE).bind fun s ↦ ?_
    rw [pure_bind]
    -- What was read is carried along as a property of the workspace.
    have hstep := ih (V := fun w ↦ V w ∧ Text.readInt? s = some (I.choice id b)) fun a h ↦ hE a fun hh ↦ (h hh).1
    refine ((hstep.weaken fun a h hh ↦ ?_).bind fun vec ↦ .pure fun a h hh ↦ ?_)
    · obtain ⟨⟨hw, ht⟩, hr⟩ := h hh
      exact ⟨⟨hw, hr⟩, ht⟩
    · obtain ⟨⟨⟨hw, hr⟩, rfl⟩, ht⟩ := h hh
      refine ⟨⟨hw, ?_⟩, ht⟩
      unfold Search.bitOf
      rw [hr]
      rfl

theorem choicesOf_leads {t : Table} (hE : ∀ a, (a.solvers.Honest conv → V a.workspace) → E a) :
    Leads E (fun a ↦ a.solvers.Honest conv → V a.workspace ∧ Tells I p a) (Search.choicesOf p t)
      fun vec a ↦ a.solvers.Honest conv →
        (V a.workspace ∧ ∃ n, Search.choiceCount t = .ok n ∧ vec = told I t.id (List.range n)) ∧ Tells I p a := by
  refine Leads.bind (Q := fun n a ↦ Search.choiceCount t = .ok n ∧ (a.solvers.Honest conv → V a.workspace ∧ Tells I p a))
    (.lift (fun n hn a ha ↦ ⟨hn, ha⟩) fun a ha ↦ hE a fun hh ↦ (ha hh).1) fun n ↦ .fact fun hn ↦ ?_
  refine (bits_leads hE (List.range n)).imp fun vec a h hh ↦ ?_
  obtain ⟨⟨hw, hvec⟩, ht⟩ := h hh
  exact ⟨⟨hw, n, hn, hvec⟩, ht⟩

end Inquiry

end QueryEquiv
