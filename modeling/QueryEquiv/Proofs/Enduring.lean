import QueryEquiv.Proofs.Operators
import QueryEquiv.Proofs.Tags

/-!
# What encoding queries does to a workspace

Giving labels to the clauses of a query keeps what `Lettering` keeps. An invariant that is kept by this, by
the look-up and the renaming of tables and by every operator is kept by encoding a query (`Steadfast.enduring`):
this follows by induction on the query, where queries inside expressions are covered by an induction on how
deep they are nested. A grouping need keep the invariant only together with the targets of its query
(`Enduring.query`). All this may be so only for queries of which every node has a property, and it may tell where
the tables lie that are made for them.

The invariant may set clauses apart that do not occur in the query (those whose tags are not `Own`). It may
also speak of the labels that an encoding has read and is going to add formulas under.
-/

namespace QueryEquiv

open Query Node Keeps Gives List Workspace Expression Operator

variable {l : String} {tag : Nat} {n having : Node} {keys targets : List Node}

def ClauseState.labels (c : ClauseState) : List String := c.label.toList ++ c.distinct.toList

theorem ClauseState.label_mem (c : ClauseState) (h : c.label = some l) : l ∈ c.labels :=
  mem_append_left _ (by simp [h])

theorem ClauseState.distinct_mem (c : ClauseState) (h : c.distinct = some l) : l ∈ c.labels :=
  mem_append_right _ (by simp [h])

/-- Formulas are the same, with the same number of clauses and the same texts written. -/
structure Formulas.Alike (fs gs : Formulas) : Prop where
  entries : fs.entries = gs.entries
  clauseCount : fs.clauseCount = gs.clauseCount
  written : fs.written = gs.written

/-- Formulas, clauses and tags are the same in two workspaces. -/
structure SameNotes (w w' : Workspace) : Prop where
  formulas : w'.formulas.Alike w.formulas
  clauses : w'.clauses = w.clauses
  nextTag : w'.nextTag = w.nextTag
  settled : w'.settled = w.settled

theorem SameNotes.of_formulas {w w' : Workspace} (formulas : w'.formulas = w.formulas) (clauses : w'.clauses = w.clauses)
    (nextTag : w'.nextTag = w.nextTag) (settled : w'.settled = w.settled) : SameNotes w w' :=
  ⟨by rw [formulas]; exact ⟨rfl, rfl, rfl⟩, clauses, nextTag, settled⟩

/-- Labels that stand for no clause. -/
inductive Unclaimed : String → Prop
  | size (id : Int) : Unclaimed s!"size_{id}"
  | scan (name : String) : Unclaimed s!"scan_{name}"

def clauseNames : List String :=
  ["filter", "project", "distinct", "union", "group_by", "order_by", "inner_join", "left_join", "right_join",
    "full_join", "product"]

/-- Giving labels to clauses keeps an invariant, which may speak of labels that are held. -/
structure Lettering (P : (String → Prop) → Workspace → Prop) (Own : Nat → Prop) : Prop where
  /-- Labels may be let go. -/
  drop : ∀ {F G : String → Prop} {w : Workspace}, (∀ l, F l → G l) → P G w → P F w
  /-- What is noted beside the formulas does not count. -/
  formulas : ∀ {F} {w : Workspace} {fs : Formulas}, fs.Alike w.formulas → fs.fullTable = w.formulas.fullTable → P F w →
    P F { w with formulas := fs }
  /-- A new number makes new labels. -/
  number : ∀ {F} {w : Workspace}, P F w →
    P (fun l ↦ F l ∨ ∃ name ∈ clauseNames, l = s!"{name}${w.formulas.clauseCount + 1}")
      { w with formulas := w.formulas.nextClause.2 }
  clause : ∀ {F} {w : Workspace} {tag : Nat}, P F w → Own tag →
    P (fun l ↦ F l ∨ l ∈ ((w.clauses.lookup tag).getD {}).labels) w
  changeClause : ∀ {F} {w : Workspace} {tag : Nat} {f : ClauseState → ClauseState}, Own tag →
    (∀ c, ∀ l ∈ (f c).labels, l ∈ c.labels ∨ F l) → P F w →
    P F { w with clauses := Formulas.put tag (f ((w.clauses.lookup tag).getD {})) w.clauses }

/-- The ways in which an encoding changes formulas and clauses keep an invariant, which speaks of nothing else. -/
structure Clerking (P : (String → Prop) → Workspace → Prop) (Own : Nat → Prop) : Prop extends Lettering P Own where
  append : ∀ {F} {w : Workspace} (t : Term) {label : Option String},
    (∀ l, label = some l → F l ∨ Unclaimed l) → P F w → P F { w with formulas := w.formulas.append t label }
  /-- Clauses may be known under new tags. -/
  retag : ∀ {F} {w : Workspace} {next : Nat} {cs : List (Nat × ClauseState)}, w.nextTag ≤ next →
    (∀ e ∈ cs, w.nextTag ≤ e.1 ∧ ∃ t, Own t ∧ w.clauses.lookup t = some e.2) → P F w →
    P F { w with nextTag := next, clauses := w.clauses ++ cs }
  own : ∀ {F} {w : Workspace} {tag : Nat}, P F w → w.nextTag ≤ tag → Own tag
  same : ∀ {F} {w w' : Workspace}, P F w → SameNotes w w' → P F w'

section

variable {P : Workspace → Prop}

theorem sizeFor_keeps (kind : String) : Guards P (Labels.sizeFor kind) :=
  get.bind fun _ _ ↦ outcome _

/-- The condition of a join is the one given, or it compares two columns. -/
theorem joinCondition_keeps {φ : Node → Prop} (hφ : ∀ m : Node, m.tag? = none → m.isScan = false → φ m) (l rt : Table)
    {r : Join.Request} (hr : r.cond.Everywhere φ) : Keeps P (Join.condition l rt r) (Everywhere φ) := by
  unfold Join.condition
  split
  · exact .pure hr
  · refine (literalValue_keeps _).bind fun v _ ↦ .lift fun n hn ↦ ?_
    obtain rfl : n = .expression (.str "eq") _ .null := by
      simpa [apply, operatorName, Outcome.bind_ok_iff] using hn
    exact ⟨hφ _ rfl rfl, hφ _ rfl rfl, hφ _ rfl rfl, trivial⟩

end

/-! ## Steps that keep an invariant -/

/-- A step of a query keeps a property of the workspace and its result has one, whatever is at hand. -/
def Along {α : Type} (P : Workspace → Prop) (x : Step α) (Q : α → Prop := fun _ ↦ True) : Prop :=
  ∀ hand, Keeps P (x.run hand) fun r ↦ Q r.1

namespace Along

variable {α β : Type} {P : Workspace → Prop} {Q : α → Prop} {R : β → Prop}

theorem pure {a : α} (h : Q a) : Along P (pure a) Q := fun _ ↦ .pure h

theorem throw {e : Fault} : Along P (throw e : Step α) Q := fun _ ↦ .throw

theorem bind {x : Step α} {f : α → Step β} (hx : Along P x Q) (hf : ∀ a, Q a → Along P (f a) R) :
    Along P (x >>= f) R :=
  fun hand ↦ (hx hand).bind fun r hr ↦ hf r.1 hr r.2

theorem lift {x : Encoding α} (hx : Keeps P x Q) : Along P (liftM x) Q :=
  fun _ ↦ hx.bind fun _ h ↦ .pure h

theorem set {s : Option Nat} : Along P (set s : Step PUnit) := fun _ ↦ .pure trivial

theorem atHand : Along P atHand := by
  intro hand
  cases hand with
  | none => exact .throw
  | some t => exact .pure trivial

theorem imp {S : α → Prop} {x : Step α} (hx : Along P x Q) (h : ∀ a, Q a → S a) : Along P x S :=
  fun hand ↦ (hx hand).imp fun r ↦ h r.1

theorem optional {c : Prop} [Decidable c] {S : Nat → Prop} {x : Step Nat} {f : PUnit → Step β} (hx : Along P x S)
    (hf : ∀ u, Along P (f u) R) : Along P (if c then do
        let r ← x
        let u ← MonadStateOf.set (some r)
        f u
      else f ⟨⟩) R := by
  split
  · exact hx.bind fun _ _ ↦ set.bind fun u _ ↦ hf u
  · exact hf ⟨⟩

theorem run {x : Step α} {hand : Option Nat} (hx : Along P x Q) : Guards P (x.run hand) :=
  (hx hand).imp fun _ _ ↦ trivial

end Along

theorem Query.unionOrigin_distinct {c : ClauseState}
    (h : (unionOrigin c).distinct = some (some l)) : c.distinct = some l := by
  obtain ⟨_, hc, hl⟩ := Option.map_eq_some_iff.1 h
  cases hl
  exact hc

theorem joinNames_mem (kind : Join.Kind) : (Labels.joinNames kind).1 ∈ clauseNames := by
  cases kind <;> simp [Labels.joinNames, clauseNames]

/-! ## Labels -/

namespace Lettering

variable {P : (String → Prop) → Workspace → Prop} {Own : Nat → Prop} {F : String → Prop} (L : Lettering P Own)
include L

theorem changeFormulas_keeps {f : Formulas → Formulas} (h : ∀ fs, (f fs).Alike fs ∧ (f fs).fullTable = fs.fullTable) :
    Guards (P F) (changeFormulas f) :=
  .modify fun _ hw ↦ L.formulas (h _).1 (h _).2 hw

/-- The labels of a clause are held once they are read. -/
theorem clause_holds (h : Own tag) : Takes (P F) (Workspace.clause tag) fun c ↦ P fun l ↦ F l ∨ l ∈ c.labels := by
  intro w c w' hw hg
  obtain ⟨rfl, rfl⟩ := clause_gives.1 hg
  exact L.clause hw h

theorem changeClause_keeps (h : Own tag) {f : ClauseState → ClauseState}
    (hf : ∀ c, ∀ l ∈ (f c).labels, l ∈ c.labels ∨ F l) : Guards (P F) (Workspace.changeClause tag f) :=
  .modify fun _ hw ↦ L.changeClause h hf hw

/-- What comes after labels are held. -/
theorem hold {α β : Type} {x : Encoding α} {f : α → Encoding β} {G : α → String → Prop} {R : β → Prop}
    (hx : Takes (P F) x fun a ↦ P fun l ↦ F l ∨ G a l)
    (hf : ∀ a F, (∀ l, G a l → F l) → Keeps (P F) (f a) R) : Keeps (P F) (x >>= f) R := by
  intro w b w' hw hg
  obtain ⟨a, v, hgx, hgf⟩ := bind_iff.1 hg
  obtain ⟨h, hR⟩ := hf a _ (fun _ ↦ .inr) (hx hw hgx) hgf
  exact ⟨L.drop (fun _ ↦ .inl) h, hR⟩

theorem numbered_holds {name : String} (hname : name ∈ clauseNames) :
    Takes (P F) (Labels.numbered name) fun r ↦ P fun l ↦ F l ∨ l = r.1 ∨ l = s!"distinct${r.2}" := by
  intro w r w' hw hg
  simp only [Labels.numbered, bind_iff, get_iff, modify_iff, pure_iff] at hg
  obtain ⟨_, v, ⟨rfl, rfl⟩, _, _, rfl, rfl, rfl⟩ := hg
  refine L.drop (fun l hl ↦ hl.imp_right fun h ↦ ?_) (L.number hw)
  obtain rfl | rfl := h
  · exact ⟨name, hname, rfl⟩
  · exact ⟨"distinct", by simp [clauseNames], rfl⟩

theorem register_keeps (label : String) : Guards (P F) (Labels.register label) := by
  refine L.changeFormulas_keeps fun fs ↦ ?_
  unfold Formulas.register
  split <;> exact ⟨⟨rfl, rfl, rfl⟩, rfl⟩

theorem setSize_keeps (label : String) (k : Value) : Guards (P F) (Labels.setSize label k) :=
  L.changeFormulas_keeps fun _ ↦ ⟨⟨rfl, rfl, rfl⟩, rfl⟩

theorem setLabel_keeps (ht : Own tag) {label : String} (hl : F label) :
    Guards (P F) (Workspace.changeClause tag ({ · with label := some label })) := by
  refine L.changeClause_keeps ht fun c l h ↦ ?_
  obtain h | h := mem_append.1 h
  · obtain rfl : l = label := by simpa using h
    exact .inr hl
  · exact .inl (mem_append_right _ h)

theorem assign_holds (ht : Own tag) {name : String} (hname : name ∈ clauseNames) (kind : String) :
    Takes (P F) (Labels.assign tag name kind) fun n ↦ P fun l ↦ F l ∨ l = s!"distinct${n}" := by
  refine (L.numbered_holds hname).bind fun r ↦ (L.setLabel_keeps ht (.inr (.inl rfl))).andThen fun _ _ ↦
    (L.register_keeps _).andThen fun _ _ ↦ (sizeFor_keeps _).andThen fun _ _ ↦
    (L.setSize_keeps _ _).andThen fun _ _ ↦ .pure fun w hw ↦ ?_
  exact L.drop (fun l hl ↦ hl.imp_right .inr) hw

theorem assignDistinct_keeps {n : Nat} (ht : Own tag) (hn : F s!"distinct${n}") :
    Guards (P F) (Labels.assignDistinct tag n) := by
  have set : Guards (P F) (Workspace.changeClause tag ({ · with distinct := some s!"distinct${n}" })) := by
    refine L.changeClause_keeps ht fun c l h ↦ ?_
    obtain h | h := mem_append.1 h
    · exact .inl (mem_append_left _ h)
    · obtain rfl : l = s!"distinct${n}" := by simpa using h
      exact .inr hn
  exact set.bind fun _ _ ↦ L.register_keeps _

-- In a mutual block a variable that only the calls need counts as unused.
set_option linter.unusedSectionVars false in
mutual

theorem prepare_keeps (F : String → Prop) : (n : Node) → n.TagsIn Own →
    Guards (P F) (Labels.prepare n)
  | .query _ withs select source wh group order _, h => by
    obtain ⟨-, hws, hs, hf, hw, hg, ho⟩ := everywhere_query.1 h
    cases withs
    case' some ws => refine (prepareWiths_keeps F ws (hws ws rfl)).bind fun _ _ ↦ ?_
    all_goals
      exact (prepare_keeps F source hf).bind fun _ _ ↦ .optional (prepare_keeps F wh hw) fun _ ↦
        .optional (prepare_keeps F group hg) fun _ ↦ (prepare_keeps F select hs).bind fun _ _ ↦
        .whenever (prepare_keeps F order ho)
  | .union tag queries keeps _, h =>
    (prepareAll_keeps F queries h.2).bind fun _ _ ↦
      L.hold (L.assign_holds (h.1 tag rfl) (by simp [clauseNames]) _) fun _ _ hn ↦
        .whenever (L.assignDistinct_keeps (h.1 tag rfl) (hn _ rfl))
  | .scan t _, _ => (outcome _).bind fun _ _ ↦ .pure trivial
  | .join tag left right kind _ _, h =>
    (prepare_keeps F left h.2.1).bind fun _ _ ↦ (prepare_keeps F right h.2.2.1).bind fun _ _ ↦
      (outcome _).bind fun _ _ ↦ L.hold (L.numbered_holds (joinNames_mem _)) fun _ _ hr ↦
      (sizeFor_keeps _).bind fun _ _ ↦
      (L.setLabel_keeps (h.1 tag rfl) (hr _ (.inl rfl))).bind fun _ _ ↦ (L.register_keeps _).bind fun _ _ ↦
      L.setSize_keeps _ _
  | .groupBy tag _ _, h =>
    L.hold (L.numbered_holds (by simp [clauseNames])) fun _ _ hr ↦
      (L.setLabel_keeps (h.1 tag rfl) (hr _ (.inl rfl))).bind fun _ _ ↦
      (L.register_keeps _).bind fun _ _ ↦ L.setSize_keeps _ _
  | .filter tag _, h =>
    L.hold (L.assign_holds (h.1 tag rfl) (by simp [clauseNames]) _) fun _ _ _ ↦ .pure trivial
  | .project tag _ distinct, h =>
    L.hold (L.assign_holds (h.1 tag rfl) (by simp [clauseNames]) _) fun _ _ hn ↦
      .whenever (L.assignDistinct_keeps (h.1 tag rfl) (hn _ rfl))
  | .orderBy tag _ _ _, h =>
    L.hold (L.assign_holds (h.1 tag rfl) (by simp [clauseNames]) _) fun _ _ _ ↦ .pure trivial
  | .column .., _ | .literal .., _ | .expression .., _ | .caseWhen .., _ | .ifThen .., _ | .function _, _
  | .operator _, _ | .mutated .., _ | .list _, _ | .raw _, _ => .throw

theorem prepareAll_keeps (F : String → Prop) : (ns : List Node) → AllTagsIn Own ns →
    Guards (P F) (Labels.prepareAll ns)
  | [], _ => .pure trivial
  | n :: ns, h => (prepare_keeps F n h.1).bind fun _ _ ↦ prepareAll_keeps F ns h.2

theorem prepareWiths_keeps (F : String → Prop) : (es : List (Value × Node)) →
    EverywhereWiths (fun m ↦ ∀ t, m.tag? = some t → Own t) es →
    Guards (P F) (Labels.prepareWiths es)
  | [], _ => .pure trivial
  | (_, q) :: es, h => (prepare_keeps F q h.1).bind fun _ _ ↦ prepareWiths_keeps F es h.2

end

theorem prepareOnce_keeps (ht : Own tag) (hn : n.TagsIn Own) : Guards (P F) (prepareOnce tag n) := by
  refine L.hold (L.clause_holds ht) fun c F _ ↦ ?_
  split
  · exact (L.prepare_keeps F n hn).bind fun _ _ ↦ L.changeClause_keeps ht fun _ _ h ↦ .inl h
  · exact .pure trivial

theorem sized_holds (ht : Own tag) : Takes (P F) (Query.sized tag) fun r ↦ P fun l ↦ F l ∨ r.1 = some l := by
  refine (L.clause_holds ht).bind fun c ↦ get.andThen fun _ _ ↦ (outcome _).andThen fun _ _ ↦
    .pure fun w hw ↦ L.drop (fun l hl ↦ hl.imp_right fun h ↦ ?_) hw
  exact c.label_mem h

/-- What comes after labels are held, in a step. -/
theorem holdAlong {α β : Type} {x : Encoding α} {f : α → Step β} {G : α → String → Prop} {R : β → Prop}
    (hx : Takes (P F) x fun a ↦ P fun l ↦ F l ∨ G a l) (hf : ∀ a F, (∀ l, G a l → F l) → Along (P F) (f a) R) :
    Along (P F) ((liftM x : Step α) >>= f) R := by
  intro hand
  have step : ((liftM x : Step α) >>= f).run hand = x >>= fun a ↦ (f a).run hand := by
    simp [StateT.run_bind]
  rw [step]
  exact L.hold hx fun a F hF ↦ hf a F hF hand

end Lettering

/-! ## Queries -/

namespace Node

/-- The name that a query or a source gets. -/
def byname : Node → Value
  | query _ _ _ _ _ _ _ a | union _ _ _ a | scan _ a => a
  | _ => .null

/-- The common tables of a query. -/
def commons : Node → List (Value × Node)
  | query _ ws _ _ _ _ _ _ => ws.getD []
  | _ => []

/-- A regular node for which a table is made, and not only looked up. -/
def Makes (n : Node) : Prop := n.fitting = true ∧ n.isScan = false

theorem Makes.select {withs : Option (List (Value × Node))} {select source wh group order : Node} {byname : Value}
    (h : (query tag withs select source wh group order byname).Makes) : select.Makes := by
  have hproject := h.1
  simp only [fitting, Bool.and_eq_true] at hproject
  cases select with
  | project => exact ⟨rfl, rfl⟩
  | _ => cases hproject.1.1

end Node

/-- Queries inside expressions keep an invariant if every node of them has a property. -/
def Nests (P : (String → Prop) → Workspace → Prop) (φ : Node → Prop) (sub : Subquery) : Prop :=
  ∀ F o n, Node.Everywhere φ n → Keeps (P F) (sub o n) fun _ ↦ True

/-- Labels, names and operators keep an invariant, which may speak of labels that are held. Every node has a property,
and so have the places of results. Of queries inside expressions more may be known than that they keep the invariant.
Nothing is said of groupings. -/
structure Ungrouped (P : (String → Prop) → Workspace → Prop) (φ : Node → Prop) (Own Out : Nat → Prop)
    (Known : Subquery → Prop) : Prop extends Lettering P Own where
  own : ∀ {n : Node} {tag : Nat}, φ n → n.tag? = some tag → Own tag
  truth : φ (.lit (.bool true))
  retitle : ∀ {F} {n : Node} {e : Value × Node} {place : Nat}, φ n → e ∈ n.commons → e.2.Everywhere φ →
    (e.2.Makes → Out place) → Keeps (P F) (Workspace.retitle place e.1) fun _ ↦ True
  aliasTable : ∀ {F} {n : Node} (place : Nat), φ n → n.byname ≠ .null →
    Keeps (P F) (aliasTable place n.byname) fun r ↦ Out place → Out r
  scanTable : ∀ {F} (name : Value), Keeps (P F) (scanTable name) fun _ ↦ True
  complete : ∀ {F} {w : Workspace} (ts : List Nat), P F w → P F { w with completed := ts }
  filter : ∀ {F} {sub : Subquery}, Known sub → Nests P φ sub →
    ∀ (input : Nat) {label : Option String}, (∀ l, label = some l → F l) → ∀ {predicate : Node},
    predicate.Everywhere φ → ∀ (k : Value) (outer : Option Int),
    Keeps (P F) (Filter.apply sub input label predicate k outer) Out
  joinBy : ∀ {F} {sub : Subquery}, Known sub → Nests P φ sub →
    ∀ {kind : Join.Kind} (left right : Nat) {r : Join.Request}, Join.Kind.ofName r.kind = .ok kind →
    (∀ l, r.label = some l → F l) → r.cond.Everywhere φ → ∀ k : Value,
    Keeps (P F) (Query.joinBy sub kind left right r k) Out
  union : ∀ {F} (inputs : List Nat) {origin : Origin}, (∀ l, origin.label = some l → F l) →
    (∀ l, origin.distinct = some (some l) → F l) → ∀ keeps : Bool, Keeps (P F) (Union.apply inputs origin keeps) Out
  project : ∀ {F} {sub : Subquery}, Known sub → Nests P φ sub →
    ∀ (place : Nat) {tag : Nat}, Own tag → ∀ {targets : List Node}, (∀ t ∈ targets, t.Everywhere φ) →
    ∀ k : Value, Keeps (P F) (Project.apply sub place tag targets k) Out
  distinct : ∀ {F} (input : Nat) {origin : Origin}, (∀ l, origin.distinct = some (some l) → F l) →
    Keeps (P F) (Distinct.apply input origin) Out
  orderBy : ∀ {F} {sub : Subquery}, Known sub → Nests P φ sub →
    ∀ (input : Nat) {label : Option String}, (∀ l, label = some l → F l) →
    ∀ {keys : List Node}, (∀ k ∈ keys, k.Everywhere φ) → ∀ (orders : List Value) (limit k : Value),
    Keeps (P F) (OrderBy.apply sub input label keys orders limit k) Out

/-- Groupings, too, keep the invariant. -/
structure Steadfast (P : (String → Prop) → Workspace → Prop) (φ : Node → Prop) (Own Out : Nat → Prop)
    (Known : Subquery → Prop) : Prop extends Ungrouped P φ Own Out Known where
  groupBy : ∀ {F} {sub : Subquery}, Known sub → Nests P φ sub →
    ∀ (input : Nat) {label : Option String}, (∀ l, label = some l → F l) →
    ∀ {keys : List Node}, (∀ k ∈ keys, k.Everywhere φ) → ∀ {having : Node}, having.Everywhere φ →
    ∀ {targets : Option (List Node)}, (∀ ts, targets = some ts → ∀ t ∈ ts, t.Everywhere φ) →
    Keeps (P F) (GroupBy.apply sub input label keys having targets) fun _ ↦ True

/-- A grouping keeps the invariant at least together with the targets of its query. -/
structure Enduring (P : (String → Prop) → Workspace → Prop) (φ : Node → Prop) (Own Out : Nat → Prop)
    (Known : Subquery → Prop) : Prop extends Ungrouped P φ Own Out Known where
  grouped : ∀ {F} {sub : Subquery}, Known sub → Nests P φ sub →
    ∀ (input : Nat) {label : Option String}, (∀ l, label = some l → F l) →
    ∀ {keys : List Node}, (∀ k ∈ keys, k.Everywhere φ) → ∀ {having : Node}, having.Everywhere φ →
    ∀ {tag : Nat}, Own tag → ∀ {targets : List Node}, (∀ t ∈ targets, t.Everywhere φ) → ∀ distinct : Value,
    Along (P F) (do
      set (some (← (GroupBy.apply sub input label keys having (some targets) : Encoding Nat)))
      Query.projectStep sub tag targets distinct) Out

variable {P : (String → Prop) → Workspace → Prop} {F : String → Prop}

theorem targetsOf_keeps (n : Node) :
    Keeps (P F) (targetsOf n) fun ts ↦ ∃ tag distinct, n = .project tag ts distinct := by
  unfold targetsOf
  split
  · exact .pure ⟨_, _, rfl⟩
  · exact .throw

theorem groupStep_none {Q : Nat → Prop} {sub : Subquery} : Along (P F) (groupStep sub tag keys having none) Q := by
  refine Along.atHand.bind fun input _ ↦ (Along.lift (Q := fun _ ↦ True) (get.bind fun _ _ ↦ .pure trivial)).bind
    fun c _ ↦ Along.lift fun w out w' _ hg ↦ ?_
  simp [GroupBy.apply, bind_iff] at hg

variable {φ : Node → Prop} {Own Out : Nat → Prop} {Known : Subquery → Prop}

namespace Ungrouped

variable (S : Ungrouped P φ Own Out Known)

section

include S

theorem aliasIfAny_keeps (hn : φ n) (place : Nat) :
    Keeps (P F) (aliasIfAny place n.byname) fun r ↦ Out place → Out r := by
  unfold aliasIfAny
  split
  · exact .pure id
  · exact S.aliasTable place hn (by assumption)

/-- The end of a query: its table gets a name and is put into the hand. -/
theorem naming_along (hn : φ n) {output : Nat} (ho : n.Makes → Out output) : Along (P F) (do
        let output ← aliasIfAny output n.byname
        set (some output)
        return output) fun r ↦ n.Makes → Out r :=
  (Along.lift (S.aliasIfAny_keeps hn output)).bind fun _ hr ↦ Along.set.bind fun _ _ ↦
    .pure fun hmakes ↦ hr (ho hmakes)

variable {sub : Subquery} (hknown : Known sub) (hsub : Nests P φ sub)
include hknown hsub

theorem filterStep_along (outer : Option Int) (ht : Own tag) {predicate : Node}
    (hp : predicate.Everywhere φ) : Along (P F) (filterStep sub outer tag predicate) Out :=
  S.holdAlong (S.sized_holds ht) fun lk _ hl ↦ Along.atHand.bind fun _ _ ↦
    Along.lift (S.filter hknown hsub _ hl hp lk.2 outer)

theorem select_keeps (place : Nat) (htag : Own tag) (ht : ∀ t ∈ targets, t.Everywhere φ) (distinct k : Value) :
    Keeps (P F) (select sub place tag targets distinct k) Out := by
  unfold select
  refine (S.project hknown hsub place htag ht k).bind fun output ho ↦ ?_
  split
  · exact S.hold (S.clause_holds htag) fun c _ hc ↦
      S.distinct _ fun l hl ↦ hc l (c.distinct_mem (Option.some.inj hl))
  · exact .pure ho

theorem projectStep_along (htag : Own tag) (ht : ∀ t ∈ targets, t.Everywhere φ) (distinct : Value) :
    Along (P F) (projectStep sub tag targets distinct) Out :=
  S.holdAlong (S.sized_holds htag) fun lk _ _ ↦ Along.atHand.bind fun _ _ ↦
    Along.lift (S.select_keeps hknown hsub _ htag ht distinct lk.2)

theorem orderStep_along (htag : Own tag) (hk : ∀ k ∈ keys, k.Everywhere φ) (orders : List Value)
    (limit : Value) : Along (P F) (orderStep sub tag keys orders limit) Out :=
  S.holdAlong (S.sized_holds htag) fun lk _ hl ↦ Along.atHand.bind fun _ _ ↦
    Along.lift (S.orderBy hknown hsub _ hl hk orders limit lk.2)

theorem joinTables_keeps (htag : Own tag) (left right : Nat) (kind : Value) {cond : Node} (hc : cond.Everywhere φ)
    (shared : Node) : Keeps (P F) (joinTables sub tag left right kind cond shared) Out := by
  unfold joinTables
  have hcond : (if cond.isMissing then .lit (.bool true) else cond : Node).Everywhere φ := by
    split
    · exact S.truth
    · exact hc
  refine (lift fun _ h ↦ h).bind fun joinKind hkind ↦ S.hold (S.sized_holds htag) fun lk _ hl ↦ ?_
  obtain ⟨label, k⟩ := lk
  exact optional (.modify fun w hw ↦ S.complete _ hw) fun _ ↦
    S.joinBy hknown hsub left right hkind hl hcond k

end

end Ungrouped

namespace Steadfast

variable (S : Steadfast P φ Own Out Known) {sub : Subquery}

include S

theorem groupStep_along (hknown : Known sub) (hsub : Nests P φ sub) (ht : Own tag) (hk : ∀ k ∈ keys, k.Everywhere φ)
    (hh : having.Everywhere φ) {targets : Option (List Node)}
    (hts : ∀ ts, targets = some ts → ∀ t ∈ ts, t.Everywhere φ) :
    Along (P F) (groupStep sub tag keys having targets) :=
  Along.atHand.bind fun _ _ ↦ S.holdAlong (S.clause_holds ht) fun c _ hc ↦
    Along.lift (S.groupBy hknown hsub _ (fun l hl ↦ hc l (c.label_mem hl)) hk hh hts)

theorem enduring : Enduring P φ Own Out Known where
  toUngrouped := S.toUngrouped
  grouped hknown hsub input _ hl _ hk _ hh _ htag _ ht distinct :=
    (Along.lift (S.groupBy hknown hsub input hl hk hh (by rintro _ ⟨⟩; exact ht))).bind fun _ _ ↦
      Along.set.bind fun _ _ ↦ S.projectStep_along hknown hsub htag ht distinct

end Steadfast

namespace Enduring

variable (S : Enduring P φ Own Out Known)

section

variable {sub : Subquery} (hknown : Known sub) (hsub : Nests P φ sub)
include S hknown hsub

omit hknown hsub in
theorem prepareOnce_along (hn : n.Everywhere φ) (ht : Own tag) : Along (P F) (prepareOnce tag n : Encoding Unit) :=
  Along.lift (S.prepareOnce_keeps ht (hn.imp fun _ hm _ ↦ S.own hm))

/-- A grouping leaves its result at hand for the targets. -/
theorem groupedStep_along {tag' : Nat} (ht : Own tag) (ht' : Own tag') (hk : ∀ k ∈ keys, k.Everywhere φ)
    (hh : having.Everywhere φ) (hts : ∀ t ∈ targets, t.Everywhere φ) (distinct : Value) : Along (P F) (do
      set (some (← groupStep sub tag keys having (some targets)))
      projectStep sub tag' targets distinct) Out := by
  have h : Along (P F) (atHand >>= fun input ↦ (liftM (clause tag) : Step ClauseState) >>= fun c ↦ do
      set (some (← (GroupBy.apply sub input c.label keys having (some targets) : Encoding Nat)))
      projectStep sub tag' targets distinct) Out :=
    Along.atHand.bind fun _ _ ↦ S.holdAlong (S.clause_holds ht) fun c _ hc ↦
      S.grouped hknown hsub _ (fun l hl ↦ hc l (c.label_mem hl)) hk hh ht' hts distinct
  simpa only [groupStep, bind_assoc] using h

set_option linter.unusedSectionVars false in
mutual

theorem encode_along (F : String → Prop) (outer : Option Int) : (n : Node) → n.Everywhere φ →
    Along (P F) (encode sub outer n) fun r ↦ n.Makes → Out r
  | .query tag withs select source wh group order byname, h => by
    obtain ⟨hself, hws, hs, hf, hw, hg, -⟩ := everywhere_query.1 h
    unfold Query.encode
    refine (S.prepareOnce_along h (S.own hself rfl)).bind fun _ _ ↦ ?_
    cases withs
    case' some ws => refine (encodeWiths_along F outer ws (hws ws rfl) fun e he ↦ ⟨_, hself, he⟩).bind fun _ _ ↦ ?_
    all_goals
      refine (encode_along F outer source hf).bind fun _ _ ↦ Along.set.bind fun _ _ ↦
        .optional (encode_along F outer wh hw) fun _ ↦ ?_
      split
      · refine (Along.lift (targetsOf_keeps select)).bind fun ts hts ↦ ?_
        split
        · obtain ⟨tag', distinct, hselect⟩ := hts
          rw [hselect] at hs
          have grouped := (S.groupedStep_along (F := F) hknown hsub (S.own hg.1 rfl) (S.own hs.1 rfl)
            (everywhereAll_iff.1 hg.2.1) hg.2.2 (everywhereAll_iff.1 hs.2) distinct).bind
            fun output ho ↦ S.naming_along hself fun _ ↦ ho
          simpa only [hselect, Query.encode, Node.byname, bind_assoc] using grouped
        · exact (encode_along F outer group hg).bind fun _ _ ↦ Along.set.bind fun _ _ ↦
            (encode_along F outer select hs).bind fun _ ho ↦ S.naming_along hself fun hmakes ↦ ho hmakes.select
      · exact (encode_along F outer select hs).bind fun _ ho ↦ S.naming_along hself fun hmakes ↦ ho hmakes.select
  | .union tag queries keeps byname, h => by
    unfold Query.encode
    have htag := S.own h.1 rfl
    refine (Along.lift get).bind fun v _ ↦ ?_
    split
    case' isTrue => refine (S.prepareOnce_along h htag).bind fun _ _ ↦ ?_
    all_goals
      exact (Along.lift (encodeEach_keeps F queries h.2)).bind fun _ _ ↦ S.holdAlong (S.sized_holds htag)
        fun _ _ _ ↦ S.holdAlong (S.clause_holds htag) fun c _ hc ↦
        (Along.lift (S.union _ (fun l hl ↦ hc l (c.label_mem hl))
          (fun l hl ↦ hc l (c.distinct_mem (unionOrigin_distinct hl))) _)).bind fun _ ho ↦
        S.naming_along h.1 fun _ ↦ ho
  | .scan name byname, h =>
    (Along.lift (S.scanTable _)).bind fun place _ ↦ (Along.lift (S.aliasIfAny_keeps (n := .scan name byname) h place)).imp
      fun _ _ hmakes ↦ by cases hmakes.2
  | .join tag left right kind cond shared, h =>
    (encode_along F outer left h.2.1).bind fun _ _ ↦ (encode_along F outer right h.2.2.1).bind fun _ _ ↦
      (Along.lift (S.joinTables_keeps hknown hsub (S.own h.1 rfl) _ _ kind h.2.2.2.1 shared)).imp fun _ hr _ ↦ hr
  | .groupBy .., _ => groupStep_none
  | .filter tag predicate, h =>
    (S.filterStep_along hknown hsub outer (S.own h.1 rfl) h.2).imp fun _ hr _ ↦ hr
  | .project tag targets distinct, h =>
    (S.projectStep_along hknown hsub (S.own h.1 rfl) (everywhereAll_iff.1 h.2) distinct).imp fun _ hr _ ↦ hr
  | .orderBy tag keys orders limit, h =>
    (S.orderStep_along hknown hsub (S.own h.1 rfl) (everywhereAll_iff.1 h.2) orders limit).imp fun _ hr _ ↦ hr
  | .column .., _ | .literal .., _ | .expression .., _ | .caseWhen .., _ | .ifThen .., _ | .function _, _
  | .operator _, _ | .mutated .., _ | .list _, _ | .raw _, _ => .throw

theorem encodeEach_keeps (F : String → Prop) : (ns : List Node) → EverywhereAll φ ns →
    Guards (P F) (encodeEach sub ns)
  | [], _ => .pure trivial
  | n :: ns, h => (encode_along F none n h.1).run.bind fun _ _ ↦ (encodeEach_keeps F ns h.2).bind fun _ _ ↦
      .pure trivial

theorem encodeWiths_along (F : String → Prop) (outer : Option Int) : (es : List (Value × Node)) →
    EverywhereWiths φ es → (∀ e ∈ es, ∃ n, φ n ∧ e ∈ n.commons) → Along (P F) (encodeWiths sub outer es)
  | [], _, _ => .pure trivial
  | (name, q) :: es, h, hes => by
    obtain ⟨⟨n, hn, hmem⟩, hes⟩ := forall_mem_cons.1 hes
    exact (encode_along F outer q h.1).bind fun _ ho ↦ (Along.lift (S.retitle hn hmem h.1 ho)).bind fun _ _ ↦
      encodeWiths_along F outer es h.2 hes

end

end

include S

/-- Encoding a query inside an expression keeps the invariant, however deep it is nested. -/
theorem nested (hknown : ∀ depth, Known (nested depth)) (depth : Nat) : Nests P φ (nested depth) := by
  induction depth with
  | zero => exact fun _ _ _ _ ↦ .throw
  | succ depth ih =>
    exact fun F o n hn ↦ (S.encode_along (hknown depth) ih F o n hn).run.bind fun _ _ ↦ .pure trivial

/-- Encoding a query keeps the invariant. -/
theorem query (hknown : ∀ depth, Known (Query.nested depth)) (hn : n.Everywhere φ) : Guards (P F) (Query.table n) :=
  (S.encode_along (hknown _) (S.nested hknown _) F none n hn).run.bind fun _ _ ↦ .pure trivial

end Enduring

end QueryEquiv
