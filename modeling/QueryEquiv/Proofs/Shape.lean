import QueryEquiv.Ast.Tag
import QueryEquiv.Proofs.Reading

/-!
# The shape of queries

What is asked of a syntax tree is asked of every node in it: `Node.Everywhere`. A tree that is copied
gets new tags and the conditions that joins lacked, and is of the same shape as before.

A tree is regular if the parts of a query are of the kinds that the grammar gives them as far as names
are concerned: targets come last, a common table is a query, and names are texts.
-/

namespace QueryEquiv

open List

namespace Node

mutual

/-- A property of every node of a tree. -/
def Everywhere (p : Node → Prop) : Node → Prop
  | expression o args a => p (expression o args a) ∧ EverywhereAll p args
  | caseWhen cs d a => p (caseWhen cs d a) ∧ EverywhereCases p cs ∧ Everywhere p d
  | ifThen c y n a => p (ifThen c y n a) ∧ Everywhere p c ∧ Everywhere p y ∧ Everywhere p n
  | filter t c => p (filter t c) ∧ Everywhere p c
  | project t ts d => p (project t ts d) ∧ EverywhereAll p ts
  | join t l r k c s =>
    p (join t l r k c s) ∧ Everywhere p l ∧ Everywhere p r ∧ Everywhere p c ∧ Everywhere p s
  | groupBy t ks h => p (groupBy t ks h) ∧ EverywhereAll p ks ∧ Everywhere p h
  | orderBy t ks os l => p (orderBy t ks os l) ∧ EverywhereAll p ks
  | query t ws s f w g o a =>
    p (query t ws s f w g o a) ∧
      (match ws with
        | none => True
        | some es => EverywhereWiths p es) ∧
      Everywhere p s ∧ Everywhere p f ∧ Everywhere p w ∧ Everywhere p g ∧ Everywhere p o
  | union t qs k a => p (union t qs k a) ∧ EverywhereAll p qs
  | mutated b a r o => p (mutated b a r o) ∧ Everywhere p b ∧ Everywhere p a
  | list xs => p (list xs) ∧ EverywhereAll p xs
  | column n a => p (column n a)
  | literal v a => p (literal v a)
  | function n => p (function n)
  | operator n => p (operator n)
  | scan t a => p (scan t a)
  | raw v => p (raw v)

def EverywhereAll (p : Node → Prop) : List Node → Prop
  | [] => True
  | n :: ns => Everywhere p n ∧ EverywhereAll p ns

def EverywhereCases (p : Node → Prop) : List (Node × Node) → Prop
  | [] => True
  | (c, r) :: rest => Everywhere p c ∧ Everywhere p r ∧ EverywhereCases p rest

def EverywhereWiths (p : Node → Prop) : List (Value × Node) → Prop
  | [] => True
  | (_, q) :: rest => Everywhere p q ∧ EverywhereWiths p rest

end

variable {p : Node → Prop}

theorem everywhereAll_iff {ns : List Node} : EverywhereAll p ns ↔ ∀ n ∈ ns, Everywhere p n := by
  induction ns with
  | nil => exact iff_of_true trivial (by simp)
  | cons n ns ih =>
    rw [forall_mem_cons, ← ih]
    exact Iff.rfl

theorem everywhereCases_iff {cs : List (Node × Node)} :
    EverywhereCases p cs ↔ ∀ c ∈ cs, Everywhere p c.1 ∧ Everywhere p c.2 := by
  induction cs with
  | nil => exact iff_of_true trivial (by simp)
  | cons c cs ih =>
    rw [forall_mem_cons, ← ih, and_assoc]
    exact Iff.rfl

theorem everywhereWiths_iff {es : List (Value × Node)} : EverywhereWiths p es ↔ ∀ e ∈ es, Everywhere p e.2 := by
  induction es with
  | nil => exact iff_of_true trivial (by simp)
  | cons e es ih =>
    rw [forall_mem_cons, ← ih]
    exact Iff.rfl

theorem everywhere_query {t : Nat} {ws : Option (List (Value × Node))} {s f w g o : Node} {a : Value} :
    Everywhere p (query t ws s f w g o a) ↔
      p (query t ws s f w g o a) ∧ (∀ es, ws = some es → EverywhereWiths p es) ∧ Everywhere p s ∧
        Everywhere p f ∧ Everywhere p w ∧ Everywhere p g ∧ Everywhere p o := by
  rcases ws with _ | es
  · exact and_congr_right fun _ ↦ and_congr_left fun _ ↦ iff_of_true trivial (by simp)
  · exact and_congr_right fun _ ↦ and_congr_left fun _ ↦ ⟨fun h _ e ↦ by cases e; exact h, fun h ↦ h es rfl⟩

/-! ## The parts of a node -/

def parts : Node → List Node
  | expression _ xs _ | project _ xs _ | orderBy _ xs _ _ | union _ xs _ _ | list xs => xs
  | caseWhen cs d _ => cs.flatMap (fun c ↦ [c.1, c.2]) ++ [d]
  | ifThen c y n _ => [c, y, n]
  | filter _ c => [c]
  | join _ l r _ c s => [l, r, c, s]
  | groupBy _ ks h => ks ++ [h]
  | query _ ws s f w g o _ => (ws.getD []).map (·.2) ++ [s, f, w, g, o]
  | mutated b a _ _ => [b, a]
  | column .. | literal .. | function .. | operator .. | scan .. | raw .. => []

/-- What holds of a node whenever it holds of its parts holds of all nodes. -/
theorem parts_induction {P : Node → Prop} (h : ∀ n, (∀ c ∈ n.parts, P c) → P n) (n : Node) : P n := by
  apply @Node.rec P (fun ns ↦ ∀ c ∈ ns, P c) (fun cs ↦ ∀ c ∈ cs, P c.1 ∧ P c.2) (fun ws ↦ ∀ e ∈ ws.getD [], P e.2)
    (fun c ↦ P c.1 ∧ P c.2) (fun es ↦ ∀ e ∈ es, P e.2) (fun e ↦ P e.2)
  all_goals
    intros
    first
      | exact h _ (by clear h; grind [parts])
      | clear h; grind

theorem everywhere_iff {n : Node} : Everywhere p n ↔ p n ∧ ∀ c ∈ n.parts, Everywhere p c := by
  have hwiths {ws : Option (List (Value × Node))} :
      (∀ es, ws = some es → EverywhereWiths p es) ↔ ∀ e ∈ ws.getD [], Everywhere p e.2 := by
    cases ws <;> simp [everywhereWiths_iff]
  cases n with
  | query =>
    simp only [everywhere_query, hwiths, parts, forall_mem_append, forall_mem_map, forall_mem_cons,
      not_mem_nil, IsEmpty.forall_iff, implies_true, and_true]
  | _ =>
    simp only [Everywhere, parts, everywhereAll_iff, everywhereCases_iff, forall_mem_append, forall_mem_flatMap,
      forall_mem_cons, not_mem_nil, IsEmpty.forall_iff, implies_true, and_true]

theorem everywhere_of_forall (h : ∀ m, p m) (n : Node) : Everywhere p n := by
  induction n using parts_induction with
  | _ n ih => exact everywhere_iff.2 ⟨h n, ih⟩

theorem everywhere_true (n : Node) : n.Everywhere fun _ ↦ True := everywhere_of_forall (fun _ ↦ trivial) n

/-- What holds everywhere in a tree holds of the tree. -/
theorem Everywhere.here {n : Node} (h : Everywhere p n) : p n := (everywhere_iff.1 h).1

theorem Everywhere.imp {q : Node → Prop} (h : ∀ m, p m → q m) {n : Node} (hn : Everywhere p n) : Everywhere q n := by
  induction n using parts_induction with
  | _ n ih =>
    rw [everywhere_iff] at hn ⊢
    exact ⟨h n hn.1, fun c hc ↦ ih c hc (hn.2 c hc)⟩

/-- A property of every node is a property of the parts of an expression. -/
theorem everywhere_hereditary : Expression.Hereditary (Everywhere p) where
  arg h hn := everywhereAll_iff.1 h.2 _ hn
  case h hc := everywhereCases_iff.1 h.2.1 _ hc
  default h := h.2.2
  item h hn := everywhereAll_iff.1 h.2 _ hn

/-! ## Copies -/

/-- A property of nodes that does not depend on the conditions of joins. -/
structure Completable (p : Node → Prop) : Prop where
  complete : ∀ (js : List Nat) (n : Node), p n → p (n.complete js)
  truth : p (lit (.bool true))

/-- A property of nodes that does not depend on tags and conditions of joins. -/
structure Lasting (p : Node → Prop) : Prop extends Completable p where
  retag : ∀ (n : Node) (s : Tagging), p n → p ((n.retag).run s).1

theorem completes_eq_map (js : List Nat) (ns : List Node) : completes js ns = ns.map (complete js) := by
  induction ns with
  | nil => rfl
  | cons n ns ih => rw [completes, ih, map_cons]

theorem completeCases_eq_map (js : List Nat) (cs : List (Node × Node)) :
    completeCases js cs = cs.map fun c ↦ (c.1.complete js, c.2.complete js) := by
  induction cs with
  | nil => rfl
  | cons c cs ih => rw [completeCases, ih, map_cons]

theorem completeWiths_eq_map (js : List Nat) (es : List (Value × Node)) :
    completeWiths js es = es.map fun e ↦ (e.1, e.2.complete js) := by
  induction es with
  | nil => rfl
  | cons e es ih => rw [completeWiths, ih, map_cons]

/-- A part of a completed node is a completed part, or the condition that a join lacked. -/
theorem mem_parts_complete {js : List Nat} {n c : Node} (h : c ∈ (n.complete js).parts) :
    c = lit (.bool true) ∨ ∃ d ∈ n.parts, c = d.complete js := by
  have hmap (hn : (n.complete js).parts = n.parts.map (complete js)) : ∃ d ∈ n.parts, c = d.complete js := by
    rw [hn, mem_map] at h
    exact h.imp fun d hd ↦ hd.imp_right Eq.symm
  cases n with
  | join =>
    simp only [complete, parts] at h ⊢
    grind
  | query t ws => cases ws <;> exact .inr (hmap (by simp [complete, parts, completeWiths_eq_map]))
  | caseWhen => exact .inr (hmap (by simp [complete, parts, completeCases_eq_map, flatMap_map, map_flatMap]))
  | _ => exact .inr (hmap (by simp [complete, parts, completes_eq_map]))

theorem everywhere_complete (hp : Completable p) (js : List Nat) {n : Node} (h : Everywhere p n) :
    Everywhere p (n.complete js) := by
  induction n using parts_induction with
  | _ n ih =>
    rw [everywhere_iff] at h ⊢
    refine ⟨hp.complete js _ h.1, fun c hc ↦ ?_⟩
    obtain rfl | ⟨d, hd, rfl⟩ := mem_parts_complete hc
    · exact hp.truth
    · exact ih d hd (h.2 d hd)

/-! ## Regular trees -/

def isProject : Node → Bool
  | project .. => true
  | _ => false

def isScan : Node → Bool
  | scan .. => true
  | _ => false

/-- A query, or a union of queries. -/
def isSelection : Node → Bool
  | query .. | union .. => true
  | _ => false

/-- A name, if there is one, is a text. -/
def isName : Value → Bool
  | .null | .str _ => true
  | _ => false

/-- What names and kinds a node of a regular tree has. -/
def fitting : Node → Bool
  | query _ ws s _ _ _ _ a =>
    s.isProject && isName a && (ws.getD []).all fun e ↦ e.1.isString && e.2.isSelection
  | union _ _ _ a | scan _ a => isName a
  | _ => true

/-- A tree whose parts are of the kinds that the grammar asks for. -/
def Regular (n : Node) : Prop := n.Everywhere fun m ↦ m.fitting = true

theorem isProject_complete (js : List Nat) (n : Node) : (n.complete js).isProject = n.isProject := by
  cases n <;> rfl

theorem isSelection_complete (js : List Nat) (n : Node) : (n.complete js).isSelection = n.isSelection := by
  cases n <;> rfl

theorem isProject_retag (n : Node) (s : Tagging) : ((n.retag).run s).1.isProject = n.isProject := by
  cases n with
  | query t ws => cases ws <;> rfl
  | _ => rfl

theorem isSelection_retag (n : Node) (s : Tagging) : ((n.retag).run s).1.isSelection = n.isSelection := by
  cases n with
  | query t ws => cases ws <;> rfl
  | _ => rfl

theorem all_completeWiths (js : List Nat) (es : List (Value × Node)) :
    (completeWiths js es).all (fun e ↦ e.1.isString && e.2.isSelection) =
      es.all fun e ↦ e.1.isString && e.2.isSelection := by
  simp only [completeWiths_eq_map, all_map, Function.comp_def, isSelection_complete]

theorem all_retagWiths (es : List (Value × Node)) (s : Tagging) :
    ((retagWiths es).run s).1.all (fun e ↦ e.1.isString && e.2.isSelection) =
      es.all fun e ↦ e.1.isString && e.2.isSelection := by
  induction es generalizing s with
  | nil => rfl
  | cons e es ih =>
    change (e.1.isString && ((e.2.retag).run s).1.isSelection && ((retagWiths es).run _).1.all _) = _
    rw [ih, isSelection_retag]
    rfl

theorem fitting_lasting : Lasting fun m ↦ m.fitting = true where
  complete js n h := by
    cases n with
    | query t ws s f w g o a =>
      rcases ws with _ | es
      · change (((s.complete js).isProject && isName a) && true) = true
        rw [isProject_complete]
        exact h
      · change ((s.complete js).isProject && isName a &&
          (completeWiths js es).all fun e ↦ e.1.isString && e.2.isSelection) = true
        rw [isProject_complete, all_completeWiths]
        exact h
    | _ => exact h
  retag n s h := by
    cases n with
    | query t ws se f w g o a =>
      rcases ws with _ | es
      · change (((se.retag).run _).1.isProject && isName a && true) = true
        rw [isProject_retag]
        exact h
      · change (((se.retag).run _).1.isProject && isName a &&
          ((retagWiths es).run _).1.all fun e ↦ e.1.isString && e.2.isSelection) = true
        rw [isProject_retag, all_retagWiths]
        exact h
    | _ => exact h
  truth := rfl

end Node

end QueryEquiv
