import QueryEquiv.Proofs.ChangesQueries

/-!
# Invariants of labels and clauses

An invariant that speaks only of formulas, of clauses and of tags is kept by encoding a query if giving labels,
adding formulas and taking new tags keeps it (`Clerking.query`). Tables do not matter for it. So it is enough to know
where an operator adds a formula, and where a projection takes new tags and reads the labels of its clause.
-/

namespace QueryEquiv

open Node Workspace Expression Operator

/-- A way by changes along which an invariant is kept, whatever labels are held. -/
structure Trail (P : (String → Prop) → Workspace → Prop) (w w' : Workspace) : Prop where
  chain : Chain w w'
  keeps : ∀ {F}, P F w → P F w'

/-- The clause of a projection may have been noted to be one of groups. -/
inductive Regrouped (tag : Nat) (w : Workspace) : Workspace → Prop
  | none : Regrouped tag w w
  | some {c : ClauseState} (grouping : Option String) (h : c = { (w.clauses.lookup tag).getD {} with grouping }) :
      Regrouped tag w { w with clauses := Formulas.put tag c w.clauses }

def Table.Projection (t : Table) : Prop :=
  ∃ step ∈ ["Projected", "Grouped and projected"], ∃ id : Int, t.lineage = some s!"{step} from T{id}"

namespace Clerking

variable {P : (String → Prop) → Workspace → Prop} {Own : Nat → Prop} {F : String → Prop} (C : Clerking P Own)
  {sub : Subquery} {w w' : Workspace} {out : Nat}

include C

theorem quiet : Quiet (P F) where
  catalog h _ := C.same h (.of_formulas rfl rfl rfl rfl)
  touch _ h := C.same h (.of_formulas rfl rfl rfl rfl)
  codes _ h := C.same h (.of_formulas rfl rfl rfl rfl)
  approximations _ h := C.same h (.of_formulas rfl rfl rfl rfl)
  subqueries _ h := C.same h (.of_formulas rfl rfl rfl rfl)
  nextReader _ h := C.same h (.of_formulas rfl rfl rfl rfl)

theorem walk : Walk (Trail P) where
  chain h := h.chain
  refl w := ⟨.refl w, id⟩
  trans h g := ⟨h.chain.trans g.chain, fun hw ↦ g.keeps (h.keeps hw)⟩
  quiet :=
    have Q {w₀ : Workspace} : Quiet (Chain w₀) := Chain.passage.quiet
    { catalog := fun h hc ↦ ⟨Q.catalog h.chain hc, fun hw ↦ C.quiet.catalog (h.keeps hw) hc⟩
      touch := fun t h ↦ ⟨Q.touch t h.chain, fun hw ↦ C.quiet.touch t (h.keeps hw)⟩
      codes := fun c h ↦ ⟨Q.codes c h.chain, fun hw ↦ C.quiet.codes c (h.keeps hw)⟩
      approximations := fun a h ↦ ⟨Q.approximations a h.chain, fun hw ↦ C.quiet.approximations a (h.keeps hw)⟩
      subqueries := fun s h ↦ ⟨Q.subqueries s h.chain, fun hw ↦ C.quiet.subqueries s (h.keeps hw)⟩
      nextReader := fun n h ↦ ⟨Q.nextReader n h.chain, fun hw ↦ C.quiet.nextReader n (h.keeps hw)⟩ }
  size t id := .modify fun _ h ↦
    ⟨h.chain.append t _, fun hw ↦ C.append t (by rintro _ ⟨⟩; exact .inr (.size id)) (h.keeps hw)⟩
  mark place _ h kin origin _ := ⟨h.chain.step (.rename place kin (.inr origin)),
    fun hw ↦ C.same (h.keeps hw) (.of_formulas rfl rfl rfl rfl)⟩

omit C in
/-- Queries inside expressions go by changes and keep the invariant. -/
theorem passes {φ : Node → Prop} (hknown : Passes Chain (fun _ ↦ True) sub) (hsub : Nests P φ sub) :
    Passes (Trail P) φ sub := fun w₀ o n hn _ _ _ h hg ↦
  ⟨⟨(hknown w₀ o n n.everywhere_true h.chain hg).1, fun hw ↦ (hsub _ o n hn (h.keeps hw) hg).1⟩, trivial⟩

theorem applied {t : Table} {term : Term} {label : Option String} (h : Applied (Trail P) w t term label out w')
    (hl : ∀ l, label = some l → F l) (hw : P F w) : P F w' := by
  cases h with
  | intro made cutDown reads =>
    exact C.append term (fun l h ↦ .inl (hl l h)) (reads.keeps (C.same (C.same hw made.notes) cutDown.notes))

/-! ## Projections -/

/-- Copies of trees have tags that were not in use. -/
theorem copied_keeps {ns : List Node} (h : ∀ n ∈ ns, n.TagsIn Own) :
    Keeps (P F) (copied ns) fun ns' ↦ ∀ n ∈ ns', n.TagsIn Own := by
  intro w ns' w' hw hg
  simp only [copied, Gives.bind_iff, Gives.get_iff] at hg
  obtain ⟨_, v, ⟨rfl, rfl⟩, _, _, rfl, rfl, rfl⟩ := hg
  have hs := retagged_retags (completes v.completed ns) { next := v.nextTag }
  have hc : ∀ n ∈ completes v.completed ns, n.TagsIn Own := by
    rw [completes_eq_map, List.forall_mem_map]
    exact fun n hn ↦ everywhere_complete (tagsIn_completable Own) _ (h n hn)
  refine ⟨C.retag hs.next (fun e he ↦ ?_) hw, fun n hn ↦ (hs.tags n hn).imp fun m hm t ht ↦ C.own hw (hm t ht).1⟩
  obtain ⟨⟨old, new⟩, hr, he⟩ := List.mem_filterMap.1 he
  obtain hr | ⟨ho, hn⟩ := hs.renamed hc _ hr
  · cases hr
  · obtain ⟨c, hc, rfl⟩ := Option.map_eq_some_iff.1 he
    exact ⟨hn, old, ho, hc⟩

theorem readTargets_keeps (source : Table) {targets : List Node} (ht : ∀ t ∈ targets, t.TagsIn Own) :
    Keeps (P F) (Project.readTargets source targets)
      fun cs ↦ ∀ e i, (Target.computed e, i) ∈ (cs.map (·.2.1)).zipIdx → e.TagsIn Own :=
  Operator.readTargets_keeps (fun _ _ _ h ↦ by cases h) source (C.copied_keeps ht)

/-- A projection reads its targets, maybe notes that it is one of groups, and adds a formula under the label of its
clause. -/
theorem project_applied (hsub : Passes (Trail P) (fun m ↦ ∀ t, m.tag? = some t → Own t) sub) {place tag : Nat}
    {targets : List Node} (ht : ∀ t ∈ targets, t.TagsIn Own) {k : Value} (hw : P F w)
    (hg : Gives (Project.apply sub place tag targets k) w out w') :
    ∃ v v' c u term, P F v ∧ Regrouped tag v v' ∧ c = (v'.clauses.lookup tag).getD {} ∧ u.Projection ∧
      Applied (Trail P) v' (labelled c u) term c.label out w' := by
  rcases project_cases hg with ⟨hgrouped, hg⟩ | ⟨-, hg⟩
  · have hcopy : P F { w with catalog := (w.catalog.copy place).2 } := C.same hw (.of_formulas rfl rfl rfl rfl)
    obtain ⟨_, _, _, _, as, origin, next, clauses, c, _, term, ⟨source, hread⟩, -, hc, -, -, h⟩ :=
      applyToGroups_applied C.walk hsub (fun source ↦ fun hg ↦ (C.readTargets_keeps source ht hcopy hg).2) hgrouped hg
    refine ⟨w.noting next clauses, w.noting next (Formulas.put tag c clauses), c, _, term,
      C.same (C.readTargets_keeps source ht hcopy hread).1 (.of_formulas rfl rfl rfl rfl), .some origin.label hc, ?_,
      ⟨_, by simp, _, rfl⟩, h⟩
    rw [Formulas.lookup_put, if_pos (beq_self_eq_true _), Option.getD_some]
  · have hcopy : P F { w with catalog := (w.catalog.copy place).2, lastTable := w.lastTable + 1 } :=
      C.same hw (.of_formulas rfl rfl rfl rfl)
    obtain ⟨_, _, _, _, next, clauses, c, _, term, hread, rfl, -, -, -, h⟩ :=
      applyToRows_applied C.walk hsub (fun hg ↦ (C.readTargets_keeps _ ht hcopy hg).2) hg
    refine ⟨_, _, _, _, term, ?_, .none, rfl, ⟨_, by simp, _, rfl⟩, h⟩
    exact C.same (C.readTargets_keeps _ ht hcopy hread).1 (.of_formulas rfl rfl rfl rfl)

theorem project_keeps (hsub : Passes (Trail P) (fun m ↦ ∀ t, m.tag? = some t → Own t) sub) (place : Nat) {tag : Nat}
    (htag : Own tag) {targets : List Node} (ht : ∀ t ∈ targets, t.TagsIn Own) (k : Value) :
    Guards (P F) (Project.apply sub place tag targets k) := by
  intro w out w' hw hg
  obtain ⟨v, v', c, u, term, hv, hv', rfl, -, h⟩ := C.project_applied hsub ht hw hg
  have hv' : P F v' := by
    cases hv' with
    | none => exact hv
    | some g hc =>
      subst hc
      exact C.changeClause (f := ({ · with grouping := g })) htag (fun _ _ h ↦ .inl h) hv
  exact ⟨C.drop (fun _ ↦ .inl) (C.applied h (fun l hl ↦ .inr (ClauseState.label_mem _ hl)) (C.clause hv' htag)), trivial⟩

/-! ## Queries -/

theorem changeTable_keeps (place : Nat) (f : Table → Table) : Guards (P F) (changeTable place f) :=
  .modify fun _ hw ↦ C.same hw (.of_formulas rfl rfl rfl rfl)

theorem scanTable_keeps (name : Value) : Guards (P F) (scanTable name) := by
  have find : Guards (P F) (findTable name) :=
    Keeps.get.bind fun _ _ ↦ (Keeps.outcome _).bind fun _ _ ↦ Keeps.outcome _
  exact find.bind fun _ _ ↦ (C.changeTable_keeps _ _).bind fun _ _ ↦
    (table_keeps _).bind fun _ _ ↦ (Keeps.outcome _).bind fun _ _ ↦ .pure trivial

theorem aliasTable_keeps (place : Nat) (byname : Value) : Guards (P F) (aliasTable place byname) := by
  intro w r w' hw hg
  obtain ⟨-, rfl, rfl⟩ | ⟨rfl, _, t, db, fs, hshares, -, rfl⟩ := aliasTable_cases hg
  · exact ⟨C.same hw (.of_formulas rfl rfl rfl rfl), trivial⟩
  · have hfs : P F { w with formulas := fs } :=
      hshares.appended (fun fs ↦ P F { w with formulas := fs }) hw fun gs t name hgs ↦
        C.append (w := { w with formulas := gs }) t (by rintro _ ⟨⟩; exact .inr (.scan name)) hgs
    exact ⟨C.same hfs (.of_formulas rfl rfl rfl rfl), trivial⟩

theorem distinct_keeps (input : Nat) {origin : Origin} (hd : ∀ l, origin.distinct = some (some l) → F l) :
    Guards (P F) (Distinct.apply input origin) := by
  intro w out w' hw hg
  obtain ⟨label, _, _, hlabel, -, -, h⟩ := distinct_applied C.walk hg
  exact ⟨C.applied h (fun l hl ↦ hd l (hl ▸ hlabel)) hw, trivial⟩

theorem union_keeps (inputs : List Nat) {origin : Origin} (hl : ∀ l, origin.label = some l → F l)
    (hd : ∀ l, origin.distinct = some (some l) → F l) (keeps : Bool) :
    Guards (P F) (Union.apply inputs origin keeps) := by
  intro w out w' hw hg
  obtain ⟨_, _, _, _, _, _, w₁, -, -, -, h, hrest⟩ := union_applied C.walk hg
  have hw₁ := C.applied h hl hw
  split at hrest
  · obtain ⟨rfl, rfl⟩ := hrest
    exact ⟨hw₁, trivial⟩
  · exact C.distinct_keeps _ hd hw₁ hrest

theorem steadfast : Steadfast P (fun m ↦ ∀ t, m.tag? = some t → Own t) Own (fun _ ↦ True)
    (Passes Chain fun _ ↦ True) where
  toLettering := C.toLettering
  own h := h _
  truth _ h := by cases h
  retitle _ _ _ _ := .modify fun _ hw ↦ C.same hw (.of_formulas rfl rfl rfl rfl)
  aliasTable place _ _ := (C.aliasTable_keeps place _).imp fun _ _ ↦ id
  scanTable := C.scanTable_keeps
  complete _ hw := C.same hw (.of_formulas rfl rfl rfl rfl)
  filter hknown hsub input _ hl _ hp k outer := fun w out w' hw hg ↦ by
    obtain ⟨_, _, _, -, -, h⟩ := filter_applied C.walk (passes hknown hsub) hp hg
    exact ⟨C.applied h hl hw, trivial⟩
  joinBy hknown hsub _ _ _ _ _ hl hr _ := fun w out w' hw hg ↦ by
    obtain ⟨_, _, _, _, _, _, _, -, -, h⟩ :=
      joinBy_applied C.walk (passes hknown hsub) (fun m hm _ t ht ↦ by simp [hm] at ht) hr hg
    exact ⟨C.applied h hl hw, trivial⟩
  union inputs _ hl hd keeps := C.union_keeps inputs hl hd keeps
  groupBy hknown hsub input _ hl _ hk _ hh _ ht := fun w out w' hw hg ↦ by
    obtain ⟨_, _, _, _, _, _, -, -, -, hmade, hreads, rfl⟩ :=
      groupBy_placed C.walk (passes hknown hsub) hk hh ht hg
    exact ⟨C.append _ (fun l h ↦ .inl (hl l h)) (hreads.keeps (C.same hw hmade.notes)), trivial⟩
  project hknown hsub place _ htag _ ht k := C.project_keeps (passes hknown hsub) place htag ht k
  distinct input _ h := C.distinct_keeps input h
  orderBy hknown hsub _ _ hl _ hk _ _ _ := fun w out w' hw hg ↦ by
    obtain ⟨_, _, _, u, -, h, hlimited⟩ := orderBy_applied C.walk (passes hknown hsub) hk hg
    have hu := C.applied h hl hw
    cases hlimited with
    | none => exact ⟨hu, trivial⟩
    | some => exact ⟨C.same hu (.of_formulas rfl rfl rfl rfl), trivial⟩

theorem nested (depth : Nat) : Nests P (fun m ↦ ∀ t, m.tag? = some t → Own t) (Query.nested depth) :=
  C.steadfast.enduring.nested Chain.route.nested depth

theorem query {n : Node} (hn : n.TagsIn Own) : Guards (P F) (Query.table n) :=
  C.steadfast.enduring.query Chain.route.nested hn

end Clerking

end QueryEquiv
