import QueryEquiv.Proofs.Conclusion
import QueryEquiv.Verdict

/-!
# Outputs of queries

A query that was read from a tree ends with its targets or is a union. That clause has a tag of its own, so
it gets a number that no other clause has, and it is carried out last. When queries are encoded one
after the other, the label of the last clause of the last query is therefore the last of all labels of
clauses (`encodeQueries_concludes`).
-/

namespace QueryEquiv

open Query Keeps Gives List Workspace Expression Operator Along

variable {tag root since : Nat} {n : Node} {reserved : Nat → Prop} {kind : String} {F : String → Prop} {w : Workspace}

/-! ## Queries read from trees -/

/-- What comes out of a computation, if anything, has a property. -/
def Outcome.Yields {α : Type} (Q : α → Prop) (x : Outcome α) : Prop := ∀ a, x = .ok a → Q a

namespace Outcome.Yields

variable {α β : Type} {Q : α → Prop}

theorem pure {a : α} (h : Q a) : Yields Q (pure a) := by
  rintro _ ⟨⟩
  exact h

theorem error {e : Fault} : Yields Q (.error e) := by
  rintro _ ⟨⟩

theorem bind {R : β → Prop} {x : Outcome β} {f : β → Outcome α} (hx : Yields R x)
    (hf : ∀ b, R b → Yields Q (f b)) : Yields Q (x >>= f) := by
  intro a ha
  obtain ⟨b, hb, ha⟩ := Outcome.bind_ok_iff.1 ha
  exact hf b (hx b hb) a ha

theorem next {x : Outcome β} {f : β → Outcome α} (hf : ∀ b, Yields Q (f b)) : Yields Q (x >>= f) :=
  bind (R := fun _ ↦ True) (fun _ _ ↦ trivial) fun b _ ↦ hf b

/-- What is computed differently in two cases, and goes on alike. -/
theorem either {c : Prop} [Decidable c] {x y : Outcome α} (hx : Yields Q x) (hy : Yields Q y) :
    Yields Q (if c then x else y) := by
  split
  · exact hx
  · exact hy

end Outcome.Yields

/-- A query with targets, or a union. -/
def Node.hasResult : Node → Bool
  | query _ _ select .. => select.isProject
  | union .. => true
  | _ => false

namespace Node

open Outcome (Yields)

theorem readSelect_yields (fuel : Nat) (tree : Value) (distinct : Bool) :
    Yields (·.isProject = true) (readSelect fuel tree distinct) := by
  cases fuel with
  | zero => exact .error
  | succ fuel =>
    unfold readSelect
    extract_lets target project
    have hproject (ts : List Node) : Yields (·.isProject = true) (project ts) := .pure rfl
    split
    · exact .next hproject
    · exact .next hproject
    · exact .next fun _ ↦ .either (.next fun _ ↦ .next hproject) (.next hproject)
    · exact .next hproject

theorem readClauses_yields (fuel : Nat) (tree byname : Value) (withs : Option (List (Value × Node)))
    {select : Node} (hs : select.isProject = true) :
    Yields (·.hasResult = true) (readClauses fuel tree withs select byname) := by
  cases fuel with
  | zero => exact .error
  | succ fuel =>
    unfold readClauses
    refine .next fun _ ↦ .next fun source ↦ .next fun _ ↦ ?_
    extract_lets conditioned
    -- The clauses are read one after the other, and the query is made when all are there.
    have hconditioned (condition : Node) : Yields (·.hasResult = true) (conditioned condition) := by
      refine .next fun _ ↦ .next fun _ ↦ .next fun _ ↦ ?_
      extract_lets filtered
      have hfiltered (wh : Node) : Yields (·.hasResult = true) (filtered wh) := by
        unfold filtered
        extract_lets grouped
        have hgrouped (group : Node) : Yields (·.hasResult = true) (grouped group) := by
          refine .next fun _ ↦ ?_
          extract_lets made sorted
          have hmade (order : Node) : Yields (·.hasResult = true) (made order) := .pure hs
          have hsorted (keys : Option (List (Node × Value))) : Yields (·.hasResult = true) (sorted keys) := by
            refine .next fun _ ↦ .either ?_ ?_
            · split
              · exact .next fun _ ↦ .next hmade
              · exact .next fun _ ↦ .next hmade
            · split
              · exact .next hmade
              · exact .next hmade
          exact .either (.next fun _ ↦ .next fun _ ↦ .next hsorted) (.next hsorted)
        refine .either (.next fun _ ↦ .next fun _ ↦ ?_) (.next hgrouped)
        exact .either (.next fun _ ↦ .next fun _ ↦ .next hgrouped) (.next fun _ ↦ .next hgrouped)
      refine .either (.next fun _ ↦ .next fun _ ↦ ?_) (.next hfiltered)
      exact .either (.next fun _ ↦ .next hfiltered) (.next hfiltered)
    exact .either (.next fun _ ↦ .next hconditioned) (.next hconditioned)

theorem readQuery_yields (fuel : Nat) (tree : Value) : Yields (·.hasResult = true) (readQuery fuel tree) := by
  cases fuel with
  | zero => exact .error
  | succ fuel =>
    unfold readQuery
    refine .next fun _ ↦ ?_
    extract_lets named
    have hnamed (byname : Value) : Yields (·.hasResult = true) (named byname) := by
      unfold named
      extract_lets opened
      have hopened (tree : Value) : Yields (·.hasResult = true) (opened tree) := by
        refine .next fun _ ↦ ?_
        extract_lets readAll read
        have hread (withs : Option (List (Value × Node))) : Yields (·.hasResult = true) (read withs) := by
          refine .next fun _ ↦ .either (.next fun _ ↦ ?_) (.next fun _ ↦ .either (.next fun _ ↦ ?_) ?_)
          · exact (readSelect_yields _ _ _).bind fun _ hs ↦ readClauses_yields _ _ _ _ hs
          · exact (readSelect_yields _ _ _).bind fun _ hs ↦ readClauses_yields _ _ _ _ hs
          · exact .next fun _ ↦ .either (.next fun _ ↦ .pure rfl) <|
              .next fun _ ↦ .either (.next fun _ ↦ .pure rfl) .error
        exact .either (.next fun _ ↦ .next fun _ ↦ .next hread) (.next hread)
      exact .either (.next hopened) (.next hopened)
    exact .either (.next hnamed) (.next hnamed)
end Node

/-! ## The clause that gives the result -/

/-- The tags of a tree are fine, except that of the clause that gives its result. -/
inductive Node.Rooted (Own : Nat → Prop) (root : Nat) : Node → Prop
  | query {tag : Nat} {withs : Option (List (Value × Node))} {targets : List Node}
      {distinct : Value} {source wh group order : Node} {byname : Value} (htag : Own tag)
      (hwiths : ∀ ws, withs = some ws → EverywhereWiths (fun m ↦ ∀ t, m.tag? = some t → Own t) ws)
      (htargets : ∀ t ∈ targets, TagsIn Own t) (hsource : TagsIn Own source) (hwh : TagsIn Own wh)
      (hgroup : TagsIn Own group) (horder : TagsIn Own order) :
      Rooted Own root (.query tag withs (.project root targets distinct) source wh group order byname)
  | union {queries : List Node} {keeps byname : Value} (hqueries : AllTagsIn Own queries) :
      Rooted Own root (.union root queries keeps byname)

namespace Node

/-- Tags that are all smaller, or all greater, than a tag are other ones. -/
theorem between_apart {b c : Nat} {m : Node} (hm : Between b c m) (hb : since ≤ b)
    (h : c ≤ root ∨ root < b) : ∀ t, m.tag? = some t → since ≤ t ∧ t ≠ root := by
  intro t ht
  have := hm t ht
  omega

/-- What follows the clause of the result has greater tags. -/
theorem rooted_query {withs : Option (List (Value × Node))} {targets : List Node} {distinct : Value}
    {source wh group order : Node} {byname : Value} {s : Tagging} (htag : since ≤ tag ∧ tag ≠ root)
    (hwiths : ∀ ws, withs = some ws → EverywhereWiths (fun m ↦ ∀ t, m.tag? = some t → since ≤ t ∧ t ≠ root) ws)
    (hroot : root = s.next) (hsince : since ≤ root) (old : Nat) : let s₁ := ((retags targets).run (s.taken old)).2
    let s₂ := (source.retag.run s₁).2
    let s₃ := (wh.retag.run s₂).2
    let s₄ := (group.retag.run s₃).2
    Rooted (fun t ↦ since ≤ t ∧ t ≠ root) root
      (.query tag withs (.project root ((retags targets).run (s.taken old)).1 distinct) (source.retag.run s₁).1
        (wh.retag.run s₂).1 (group.retag.run s₃).1 (order.retag.run s₄).1 byname) := by
  intro s₁ s₂ s₃ s₄
  have h₁ : root + 1 ≤ s₁.next := hroot ▸ (retagged_retags targets (s.taken old)).next
  have h₂ : root + 1 ≤ s₂.next := h₁.trans (next_retag s₁ source)
  have h₃ : root + 1 ≤ s₃.next := h₂.trans (next_retag s₂ wh)
  have h₄ : root + 1 ≤ s₄.next := h₃.trans (next_retag s₃ group)
  have apart {b c : Nat} {n : Node} (hb : root + 1 ≤ b) (h : Everywhere (Between b c) n) :
      n.TagsIn fun t ↦ since ≤ t ∧ t ≠ root :=
    h.imp fun _ hm ↦ between_apart hm (by omega) (.inr hb)
  exact .query htag hwiths (fun n hn ↦ apart (hroot ▸ le_rfl) ((retagged_retags targets (s.taken old)).tags n hn))
    (apart h₁ (tagsIn_retag source s₁)) (apart h₂ (tagsIn_retag wh s₂)) (apart h₃ (tagsIn_retag group s₃))
    (apart h₄ (tagsIn_retag order s₄))

/-- A tree that gets its tags has one for the clause of its result alone. -/
theorem rooted_retag (hn : n.hasResult = true) (s : Tagging) : ∃ root, s.next ≤ root ∧ root < (n.retag.run s).2.next ∧
      Rooted (fun t ↦ s.next ≤ t ∧ t ≠ root) root (n.retag.run s).1 := by
  cases n with
  | union tag queries keeps byname =>
    have h := retagged_retags queries (s.taken tag)
    refine ⟨s.next, le_rfl, h.next, .union (everywhereAll_iff.2 fun n hn ↦ (h.tags n hn).imp fun m hm ↦ ?_)⟩
    exact between_apart hm (Nat.le_succ _) (.inr (Nat.lt_succ_self _))
  | query tag withs select source wh group order byname =>
    cases select with
    | project old targets distinct =>
      have rest (s' : Tagging) : s'.next <
          (((((((retags targets).run (s'.taken old)).2) |> source.retag.run).2 |> wh.retag.run).2 |>
            group.retag.run).2 |> order.retag.run).2.next :=
        (retagged_retags targets (s'.taken old)).next.trans <| (next_retag _ source).trans <| (next_retag _ wh).trans <|
          (next_retag _ group).trans (next_retag _ order)
      cases withs with
      | none =>
        have hlt : s.next < (s.taken tag).next := Nat.lt_succ_self _
        exact ⟨(s.taken tag).next, hlt.le, rest _, rooted_query ⟨le_rfl, hlt.ne⟩ (by simp) rfl hlt.le old⟩
      | some es =>
        have h := retagged_retags (es.map (·.2)) (s.taken tag)
        rw [retags_withs] at h
        have hlt : s.next < ((retagWiths es).run (s.taken tag)).2.next := h.next
        refine ⟨((retagWiths es).run (s.taken tag)).2.next, hlt.le, rest _,
          rooted_query ⟨le_rfl, hlt.ne⟩ ?_ rfl hlt.le old⟩
        rintro _ ⟨⟩
        refine everywhereWiths_iff.2 fun e he ↦ (h.tags e.2 (mem_map_of_mem he)).imp fun m hm ↦ ?_
        exact between_apart hm (Nat.le_succ _) (.inl le_rfl)
    | _ => cases hn
  | _ => cases hn

end Node

/-! ## The number of the clause -/

/-- A clause with labels of a number. -/
def Awaited.of (since tag : Nat) (kind : String) (distinct : Bool) (n : Nat) : Awaited :=
  { since, tag, number := n, label := s!"{kind}${n}"
    distinct := if distinct then some s!"distinct${n}" else none }

/-- The clause of a result has its labels, which are none of those that are held, and waits. -/
def Ready (F : String → Prop) (since root : Nat) (kind : String) (distinct : Bool) (w : Workspace) : Prop :=
  ∃ n, Spare (.of since root kind distinct n) F w

section Numbers

variable {F : String → Prop} {since root : Nat} {w w' : Workspace}

theorem lookup_eq_none {cs : List (Nat × ClauseState)} (h : ∀ e ∈ cs, e.1 ≠ tag) : cs.lookup tag = none := by
  rcases hc : cs.lookup tag with _ | c
  · rfl
  · exact absurd rfl (h _ (Formulas.mem_of_lookup hc))

theorem Orderly.imp {reserved' : Nat → Prop} (h : Orderly since reserved F w)
    (hr : ∀ t, reserved' t → reserved t) : Orderly since reserved' F w :=
  ⟨h.formulas, h.clauses, h.held, ⟨h.tags.1, fun t ht ↦ h.tags.2 t (hr t ht)⟩,
    fun e he ht ↦ h.unknown e he (hr _ ht), h.unsettled⟩

/-- A clause of which nothing is known gets the next number. -/
theorem Orderly.spare (h : Orderly since (· = root) F w) (kind : String) :
    Spare (.of since root kind false (w.formulas.clauseCount + 1)) F { w with
        formulas := w.formulas.nextClause.2
        clauses := Formulas.put root
          ((fun c : ClauseState ↦ { c with label := some s!"{kind}${w.formulas.clauseCount + 1}" })
            ((w.clauses.lookup root).getD {})) w.clauses } := by
  have hnew {l : String} (hl : ∀ n, Numbered n l → n ≤ w.formulas.clauseCount) :
      ¬ Numbered (w.formulas.clauseCount + 1) l := fun hn ↦ absurd (hl _ hn) (by omega)
  refine ⟨fun l hl ↦ hnew (h.formulas l hl), fun e he ht l hl ↦ ?_, fun l hl ↦ hnew (h.held l hl), le_rfl,
    ⟨h.tags.1, h.tags.2 root rfl⟩, ?_⟩
  · obtain rfl | he := mem_put_clause he
    · exact absurd rfl ht.2
    · exact hnew (h.clauses e he ht.1 l hl)
  · refine ⟨_, by rw [Awaited.of, Formulas.lookup_put, if_pos (by simp)], rfl, ?_⟩
    rw [lookup_eq_none h.unknown]
    rfl

theorem Spare.setDistinct {n : Nat} (h : Spare (.of since root kind false n) F w) :
    Spare (.of since root kind true n) F { w with
        clauses := Formulas.put root ((fun c : ClauseState ↦ { c with distinct := some s!"distinct${n}" })
            ((w.clauses.lookup root).getD {})) w.clauses } := by
  obtain ⟨c, hc, hl, -⟩ := h.state
  refine ⟨h.formulas, fun e he ht l hm ↦ ?_, h.held, h.count, h.tags, ?_⟩
  · obtain rfl | he := mem_put_clause he
    · exact absurd rfl ht.2
    · exact h.clauses e he ht l hm
  · refine ⟨_, by rw [Awaited.of, Formulas.lookup_put, if_pos (by simp)], ?_, rfl⟩
    change ((w.clauses.lookup root).getD {}).label = _
    rw [show w.clauses.lookup root = some c from hc]
    exact hl

/-- The labels of the clause of a result. -/
theorem assign_ready (kind size : String) (distinct : Bool) : Takes (Orderly since (· = root) F) (do
        let n ← Labels.assign root kind size
        if distinct then Labels.assignDistinct root n)
      fun _ ↦ Ready F since root kind distinct := by
  intro w u w' hw hg
  obtain ⟨n, v, hassign, hg⟩ := bind_iff.1 hg
  have hv : Spare (.of since root kind false n) F v := by
    obtain ⟨r, _, hnum, hassign⟩ := bind_iff.1 hassign
    simp only [Labels.numbered, bind_iff, get_iff, modify_iff, pure_iff] at hnum
    obtain ⟨_, w, ⟨rfl, rfl⟩, _, _, rfl, rfl, rfl⟩ := hnum
    obtain ⟨_, _, hchange, hassign⟩ := bind_iff.1 hassign
    obtain rfl := modify_iff.1 hchange
    have U := Spare.clerking (.of since root kind false (w.formulas.clauseCount + 1))
    have rest := (U.register_keeps (F := F) s!"{kind}${w.formulas.clauseCount + 1}").bind fun _ _ ↦
      (sizeFor_keeps size).bind fun k _ ↦
      (U.setSize_keeps s!"{kind}${w.formulas.clauseCount + 1}" k).bind fun _ _ ↦
      pure (a := w.formulas.clauseCount + 1) (Q := (· = w.formulas.clauseCount + 1)) rfl
    obtain ⟨h, hn⟩ := rest (hw.spare kind) hassign
    exact hn ▸ h
  cases distinct with
  | false =>
    obtain ⟨-, rfl⟩ := pure_iff.1 hg
    exact ⟨n, hv⟩
  | true =>
    obtain ⟨_, _, hchange, hg⟩ := bind_iff.1 hg
    obtain rfl := modify_iff.1 hchange
    exact ⟨n, ((Spare.clerking _).register_keeps _ hv.setDistinct hg).1⟩

/-- What is noted of a clause beside its labels does not count, whichever it is. -/
theorem Spare.mark {a : Awaited} (ht : a.since ≤ tag) (h : Spare a F w) : Spare a F { w with
        clauses := Formulas.put tag
          ((fun c : ClauseState ↦ { c with prepared := true }) ((w.clauses.lookup tag).getD {})) w.clauses } := by
  by_cases hr : tag = a.tag
  · subst hr
    exact h.changeOwn (f := ({ · with prepared := true })) (fun _ ↦ rfl) (fun _ ↦ rfl)
  · exact (Spare.clerking a).changeClause (f := ({ · with prepared := true })) ⟨ht, hr⟩ (fun _ _ hl ↦ .inl hl) h

/-- A query of which nothing is known gets its labels. -/
theorem prepareOnce_ready {distinct : Bool} (hsince : since ≤ tag) (ht : reserved tag) (hr : reserved root)
    (hn : Takes (Orderly since (· = root) F) (Labels.prepare n) fun _ ↦ Ready F since root kind distinct) :
    Takes (Orderly since reserved F) (prepareOnce tag n)
      fun _ ↦ Ready F since root kind distinct := by
  intro w u w' hw hg
  obtain ⟨c, v, hc, hg⟩ := bind_iff.1 hg
  obtain ⟨rfl, rfl⟩ := clause_gives.1 hc
  rw [lookup_eq_none fun e he h ↦ hw.unknown e he (h ▸ ht)] at hg
  obtain ⟨_, v', hprepare, hg⟩ := bind_iff.1 hg
  obtain rfl := modify_iff.1 hg
  obtain ⟨m, hm⟩ := hn (hw.imp fun t h ↦ h ▸ hr) hprepare
  exact ⟨m, hm.mark hsince⟩

end Numbers

/-! ## Steps up to the result -/

namespace Along

variable {α β : Type} {P : Workspace → Prop} {Q : α → Prop} {T : β → Option Nat → Workspace → Prop}

/-- After a step that keeps a property, one that goes on from it. -/
theorem andThen {x : Step α} {f : α → Step β} (hx : Along P x Q) (hf : ∀ a, Q a → Steps (fun _ ↦ P) (f a) T) :
    Steps (fun _ ↦ P) (x >>= f) T :=
  fun hand ↦ (hx hand).andThen fun r hr ↦ hf r.1 hr r.2

theorem optionalThen {c : Prop} [Decidable c] {S : Nat → Prop} {x : Step Nat} {f : PUnit → Step β} (hx : Along P x S)
    (hf : ∀ u, Steps (fun _ ↦ P) (f u) T) : Steps (fun _ ↦ P) (if c then do
        let r ← x
        let u ← MonadStateOf.set (some r)
        f u
      else f ⟨⟩) T := by
  split
  · exact hx.andThen fun _ _ ↦ set.andThen fun u _ ↦ hf u
  · exact hf ⟨⟩

end Along

theorem Steps.exists' {ι α : Type} {P : ι → Option Nat → Workspace → Prop} {x : Step α}
    {R : α → Option Nat → Workspace → Prop} (h : ∀ i, Steps (P i) x R) :
    Steps (fun hand w ↦ ∃ i, P i hand w) x R := fun hand ↦ .exists' fun i ↦ h i hand

/-- What is known beside the workspace. -/
theorem Steps.assuming {α : Type} {p : Prop} {P : Option Nat → Workspace → Prop} {x : Step α}
    {R : α → Option Nat → Workspace → Prop} (h : p → Steps P x R) :
    Steps (fun hand w ↦ p ∧ P hand w) x R := fun hand _ _ _ hw hg ↦ h hw.1 hand hw.2 hg

/-! ## Queries -/

/-- The label of a result is that of a clause, and was not held before. -/
def Resulting (F : String → Prop) (r : Nat) (w : Workspace) : Prop :=
  ∃ l, Search.ofClause l = true ∧ ¬ F l ∧ Concluded l r w

theorem ofClause_label (kind : String) (n : Nat) : Search.ofClause s!"{kind}${n}" = true := by
  rw [Search.ofClause, Text.occursIn_iff]
  refine ⟨kind.toList, (toString n).toList, ?_⟩
  change _ = (kind ++ "$" ++ toString n).toList
  rw [String.toList_append, String.toList_append]

section Results

variable {F : String → Prop} {since root : Nat} {w w' : Workspace} {l : String}

/-- Names do not matter for the label of a result. -/
theorem Concluded.rename {r : Nat} (h : Concluded l r w) (f : Table → Table)
    (hf : ∀ t, (f t).lineage = t.lineage ∧ (f t).origin = t.origin) (ht : w'.catalog.table = (w.catalog.modify r f).table)
    (hw : w'.formulas = w.formulas) : Concluded l r w' := by
  have like : (w'.catalog.table r).lineage = (w.catalog.table r).lineage ∧
      (w'.catalog.table r).origin = (w.catalog.table r).origin := by
    rw [ht]
    rcases Catalog.table_modify_or w.catalog r f r with hr | ⟨-, hr⟩
    · rw [hr]
      exact ⟨rfl, rfl⟩
    · rw [hr]
      exact hf _
  refine ⟨by rw [hw]; exact h.last, (resultLabel_congr like.1 like.2).trans h.result, ?_⟩
  rw [like.1]
  exact h.lineage

/-- An alias for a result gives it another name. -/
theorem aliasIfAny_concludes (r : Nat) (byname : Value) :
    Takes (Concluded l r) (aliasIfAny r byname) (Concluded l) := by
  unfold aliasIfAny
  split
  · exact .pure fun _ h ↦ h
  · intro w r' w' hw hg
    obtain ⟨t, _, ht, hg⟩ := bind_iff.1 hg
    obtain ⟨rfl, rfl⟩ := table_gives.1 ht
    obtain ⟨scanned, _, hs, hg⟩ := bind_iff.1 hg
    obtain ⟨hs, rfl⟩ := lift_iff.1 hs
    obtain ⟨lineage, hlineage, hS⟩ := hw.lineage
    obtain rfl : scanned = false := by
      rw [Table.mentions_eq_false hlineage 'S' (by decide) hS] at hs
      exact (Except.ok.inj hs).symm
    have retitled : Guards (Concluded l r) (Workspace.retitle r byname) :=
      .modify fun _ h ↦ h.rename (·.retitled byname) (fun _ ↦ ⟨rfl, rfl⟩) rfl rfl
    have rescoped (scope : Value) : Guards (Concluded l r) (changeTable r ({ · with scope })) :=
      .modify fun _ h ↦ h.rename ({ · with scope }) (fun _ ↦ ⟨rfl, rfl⟩) rfl rfl
    exact (retitled.andThen fun _ _ ↦ get.andThen fun _ _ ↦ (rescoped _).andThen fun _ _ ↦ .pure fun _ h ↦ h) hw hg

/-- A clause that eliminates duplicates has two labels. -/
theorem distinct_ne_label (hk : kind ∈ ["project", "union"]) (n : Nat) : s!"distinct${n}" ≠ s!"{kind}${n}" := by
  intro h
  obtain ⟨rfl, -⟩ : "distinct" = kind ∧ n = n := Numbered.label_inj (by decide) h
  simp at hk

theorem select_concludes {depth m : Nat} (place : Nat) {targets : List Node}
    (ht : ∀ t ∈ targets, t.TagsIn fun t ↦ since ≤ t ∧ t ≠ root) (distinct k : Value) :
    Takes (Spare (.of since root "project" distinct.truthy m) F)
      (select (nested depth) place root targets distinct k) (Resulting F) := by
  intro w r w' hw hg
  have hheld {l : String} (hl : Numbered m l) : ¬ F l := fun hF ↦ hw.held l hF hl
  obtain ⟨output, v, hproject, hg⟩ := bind_iff.1 hg
  obtain ⟨hv, hlabels, c, hc, hdistinct⟩ := project_concludes (.of (by simp)) ht hw hproject
  cases hd : distinct.truthy with
  | false =>
    rw [hd] at hg
    obtain ⟨rfl, rfl⟩ := pure_iff.1 hg
    exact ⟨_, ofClause_label "project" m, hheld (.of (by simp)), hv⟩
  | true =>
    rw [hd] at hg hdistinct
    obtain ⟨_, v, hclause, hg⟩ := bind_iff.1 hg
    obtain ⟨rfl, rfl⟩ := clause_gives.1 hclause
    rw [show List.lookup root _ = some c from hc] at hg
    refine ⟨_, ofClause_label "distinct" m, hheld .distinct,
      distinct_concludes (congrArg some hdistinct) (ofClause_label "distinct" m) ?_ hg⟩
    rw [Absent, forall_mem_singleton]
    exact fun hmem ↦ distinct_ne_label (by simp) m (hlabels _ hmem .distinct)

theorem sized_keeps {P : Workspace → Prop} (tag : Nat) : Guards P (sized tag) := by
  have clause : Guards P (Workspace.clause tag) := get.bind fun _ _ ↦ .pure trivial
  exact clause.bind fun _ _ ↦ get.bind fun _ _ ↦ (outcome _).bind fun _ _ ↦ .pure trivial

/-- The labels of the clause that waits are free and not held. -/
theorem clause_spare (hk : kind ∈ ["project", "union"]) {distinct : Bool} {m : Nat} :
    Takes (Spare (.of since root kind distinct m) F) (clause root) fun c w ↦
      (c.label = some s!"{kind}${m}" ∧ (c.distinct = if distinct then some s!"distinct${m}" else none) ∧
        ∀ l ∈ [s!"{kind}${m}", s!"distinct${m}"], ¬ F l) ∧ Absent [s!"{kind}${m}", s!"distinct${m}"] w := by
  intro w c w' hw hg
  obtain ⟨rfl, rfl⟩ := clause_gives.1 hg
  obtain ⟨c, hc, hl, hd⟩ := hw.state
  rw [show List.lookup root _ = some c from hc]
  have hnumbered : ∀ l ∈ [s!"{kind}${m}", s!"distinct${m}"], Numbered m l := by
    intro l hmem
    simp only [mem_cons, not_mem_nil, or_false] at hmem hk
    obtain rfl | rfl := hmem
    · exact .of (by simp; tauto)
    · exact .distinct
  exact ⟨⟨hl, hd, fun l hmem hF ↦ hw.held l hF (hnumbered l hmem)⟩, fun l hmem hin ↦ hw.formulas l hin (hnumbered l hmem)⟩

/-- An alias at the end of a query keeps its result. -/
theorem named_concludes (r : Nat) (byname : Value) : Steps (fun _ ↦ Resulting F r) (do
        let output ← aliasIfAny r byname
        set (some output)
        return output) fun r _ ↦ Resulting F r :=
  (Steps.lift (R := fun r _ ↦ Resulting F r) fun _ _ _ _ ⟨l, hl, hF, h⟩ hg ↦
    ⟨l, hl, hF, aliasIfAny_concludes r byname h hg⟩).bind fun _ ↦
    (Steps.set (Q := fun _ _ ↦ Resulting F _) fun _ _ h ↦ h).bind fun _ ↦ .pure fun _ _ h ↦ h

/-! ### Queries with targets -/

section Targets

variable {reserved : Nat → Prop} {depth tag m : Nat} {withs : Option (List (Value × Node))} {targets : List Node}
  {distinct byname : Value} {source wh group order : Node}

/-- The clauses before the targets get their numbers first. -/
theorem prepareQuery_ready (hn : Node.Rooted (fun t ↦ since ≤ t ∧ t ≠ root) root
      (.query tag withs (.project root targets distinct) source wh group order byname)) :
    Takes (Orderly since (· = root) F)
      (Labels.prepare (.query tag withs (.project root targets distinct) source wh group order byname))
      fun _ ↦ Ready F since root "project" distinct.truthy := by
  obtain ⟨hown, hwiths, ht, hsource, hwh, hgroup, horder⟩ := hn
  have U := Orderly.clerking since (· = root)
  cases withs
  case' some ws => refine (U.prepareWiths_keeps F ws (hwiths ws rfl)).andThen fun _ _ ↦ ?_
  all_goals
    refine (U.prepare_keeps F source hsource).andThen fun _ _ ↦
      optionalThen (U.prepare_keeps F wh hwh) fun _ ↦
      optionalThen (U.prepare_keeps F group hgroup) fun _ ↦
      (assign_ready "project" "project" distinct.truthy).bind fun _ ↦ .exists' fun m w u w' hw hg ↦ ?_
    have V := Spare.clerking (.of since root "project" distinct.truthy m)
    exact ⟨m, (whenever (V.prepare_keeps F order horder) hw hg).1⟩

/-- The targets are carried out last. -/
theorem projectStep_concludes (ht : ∀ t ∈ targets, t.TagsIn fun t ↦ since ≤ t ∧ t ≠ root) :
    Steps (fun _ ↦ Spare (.of since root "project" distinct.truthy m) F)
      (projectStep (nested depth) root targets distinct) fun r _ ↦ Resulting F r := by
  exact (lift (sized_keeps root)).andThen fun _ _ ↦ atHand.andThen fun place _ ↦
    Steps.lift fun _ ↦ select_concludes place ht distinct _

theorem encodeQuery_concludes (outer : Option Int) (hn : Node.Rooted (fun t ↦ since ≤ t ∧ t ≠ root) root
      (.query tag withs (.project root targets distinct) source wh group order byname))
    (htag : reserved tag) (hr : reserved root) : Steps (fun _ ↦ Orderly since reserved F) (encode (nested depth) outer
        (.query tag withs (.project root targets distinct) source wh group order byname))
      fun r _ ↦ Resulting F r := by
  have hready := prepareQuery_ready hn (F := F)
  obtain ⟨hown, hwiths, ht, hsource, hwh, hgroup, -⟩ := hn
  unfold Query.encode
  refine (Steps.lift fun _ ↦ prepareOnce_ready hown.1 htag hr hready).bind fun _ ↦ .exists' fun m ↦ ?_
  have U := Spare.clerking (.of since root "project" distinct.truthy m)
  have hknown := Chain.route.nested depth
  have hsub := U.nested depth
  cases withs
  case' some ws =>
    have hself : ∀ t, (Node.query tag (some ws) .missing source wh group order byname).tag? = some t →
        since ≤ t ∧ t ≠ root := by
      rintro _ ⟨⟩
      exact hown
    refine (U.steadfast.enduring.encodeWiths_along hknown hsub F outer ws (hwiths ws rfl)
      fun e he ↦ ⟨_, hself, he⟩).andThen fun _ _ ↦ ?_
  all_goals
    refine (U.steadfast.enduring.encode_along hknown hsub F outer source hsource).andThen fun _ _ ↦
      set.andThen fun _ _ ↦
      optionalThen (U.steadfast.enduring.encode_along hknown hsub F outer wh hwh) fun _ ↦ ?_
    split
    · refine (lift (pure (Q := (· = targets)) rfl)).andThen fun ts hts ↦ ?_
      subst hts
      split
      · exact (U.steadfast.groupStep_along hknown hsub (hgroup.1 _ rfl) (Node.everywhereAll_iff.1 hgroup.2.1) hgroup.2.2
          (by rintro _ ⟨⟩; exact ht)).andThen fun _ _ ↦ set.andThen fun _ _ ↦
          (projectStep_concludes ht).bind fun r ↦ named_concludes r byname
      · exact (U.steadfast.enduring.encode_along hknown hsub F outer group hgroup).andThen fun _ _ ↦
          set.andThen fun _ _ ↦ (projectStep_concludes ht).bind fun r ↦ named_concludes r byname
    · exact (projectStep_concludes ht).bind fun r ↦ named_concludes r byname

end Targets

/-! ### Unions -/

section Unions

variable {reserved : Nat → Prop} {depth : Nat} {queries : List Node} {keeps byname : Value}

theorem prepareUnion_ready (hqs : Node.AllTagsIn (fun t ↦ since ≤ t ∧ t ≠ root) queries) :
    Takes (Orderly since (· = root) F) (Labels.prepare (.union root queries keeps byname))
      fun _ ↦ Ready F since root "union" (!keeps.truthy) :=
  ((Orderly.clerking since (· = root)).prepareAll_keeps F queries hqs).andThen fun _ _ ↦
    assign_ready "union" "union" (!keeps.truthy)

/-- The union itself comes after its queries. -/
theorem encodeUnion_concludes (outer : Option Int) (hsince : since ≤ root) (hr : reserved root)
    (hqs : Node.AllTagsIn (fun t ↦ since ≤ t ∧ t ≠ root) queries) : Steps (fun _ ↦ Orderly since reserved F)
      (encode (nested depth) outer (.union root queries keeps byname)) fun r _ ↦ Resulting F r := by
  unfold Query.encode
  have rest : Steps (fun _ ↦ Ready F since root "union" (!keeps.truthy))
      (do
        let inputs ← encodeEach (nested depth) queries
        let _ ← sized root
        let c ← Workspace.clause root
        let output ← Union.apply inputs (unionOrigin c) keeps.truthy
        let output ← aliasIfAny output byname
        set (some output)
        return output) fun r _ ↦ Resulting F r := by
    refine .exists' fun m ↦ ?_
    have U := Spare.clerking (.of since root "union" (!keeps.truthy) m)
    refine (lift (U.steadfast.enduring.encodeEach_keeps (Chain.route.nested depth) (U.nested depth) F queries
      hqs)).andThen fun inputs _ ↦
      (lift (sized_keeps root)).andThen fun _ _ ↦ ?_
    refine (Steps.lift fun _ ↦ clause_spare (by simp)).bind fun c ↦ .assuming fun hc ↦ ?_
    have origin : keeps.truthy = false →
        (unionOrigin c).distinct = some (some s!"distinct${m}") := by
      intro hk
      rw [unionOrigin, hc.2.1, hk]
      rfl
    have labels : ∀ x ∈ [s!"union${m}", s!"distinct${m}"], Search.ofClause x = true := by
      simpa using ⟨ofClause_label "union" m, ofClause_label "distinct" m⟩
    refine (Steps.lift (R := fun r _ ↦ Resulting F r) fun _ w r w' hw hg ↦ ⟨_, ?_, ?_,
      union_concludes hc.1 origin (distinct_ne_label (by simp) m) labels hw hg⟩).bind fun r ↦ named_concludes r byname
    · split
      · exact ofClause_label "union" m
      · exact ofClause_label "distinct" m
    · refine hc.2.2 _ ?_
      split <;> simp
  have settled : Takes (Orderly since reserved F) get
      fun v w ↦ v.settled = false ∧ Orderly since reserved F w := by
    intro w v w' hw hg
    obtain ⟨rfl, rfl⟩ := get_iff.1 hg
    exact ⟨hw.unsettled, hw⟩
  refine (Steps.lift fun _ ↦ settled).bind fun v ↦ .assuming fun hv ↦ ?_
  rw [hv]
  exact (Steps.lift fun _ ↦ prepareOnce_ready hsince hr hr (prepareUnion_ready hqs)).bind fun _ ↦ rest

end Unions

/-- The clause that gives the result of a query comes last, and the table of the result tells its label. -/
theorem Query.table_concludes (hn : n.Rooted (fun t ↦ since ≤ t ∧ t ≠ root) root) (hsince : since ≤ root)
    (hr : reserved root) (htag : ∀ t, n.tag? = some t → reserved t) :
    Takes (Orderly since reserved F) (table n) (Resulting F) := by
  have steps : Steps (fun _ ↦ Orderly since reserved F) (encode subquery none n)
      fun r _ ↦ Resulting F r := by
    cases id hn with
    | query => exact encodeQuery_concludes none hn (htag _ rfl) hr
    | union hqs => exact encodeUnion_concludes none hsince hr hqs
  exact (steps none).bind fun _ ↦ .pure fun _ h ↦ h

end Results

/-! ## One query after the other -/

theorem Orderly.later {since' : Nat} (h : Orderly since reserved F w) (hs : since ≤ since') (ht : since' ≤ w.nextTag) :
    Orderly since' reserved F w :=
  ⟨h.formulas, fun e he hte ↦ h.clauses e he (hs.trans hte), h.held, ⟨ht, h.tags.2⟩, h.unknown, h.unsettled⟩

theorem Orderly.turn (h : Orderly since reserved F w)
    (name : Value) : Orderly since reserved F { w with currentQuery := name } :=
  h.of_eq (.of_formulas rfl rfl rfl rfl)

namespace Verdict

theorem encodeQueries_gives {n₁ n₂ : Node} {os : List Nat} {w' : Workspace}
    (h : Gives (encodeQueries [n₁, n₂]) w os w') :
    ∃ o₁ o₂ v u, os = [o₁, o₂] ∧ Gives (table n₁) { w with currentQuery := .int 0 } o₁ v ∧
      Gives (table n₂) { v with currentQuery := .int 1 } o₂ u ∧ w' = { u with settled := true } := by
  simp only [encodeQueries, zipIdx_cons, zipIdx_nil, mapM_cons, mapM_nil, bind_iff, pure_iff, modify_iff] at h
  obtain ⟨_, _, ⟨o₁, v, ⟨_, _, rfl, h₁⟩, _, _, ⟨o₂, u, ⟨_, _, rfl, h₂⟩, _, _, ⟨rfl, rfl⟩, rfl, rfl⟩, rfl, rfl⟩,
    _, _, rfl, rfl, rfl⟩ := h
  exact ⟨o₁, o₂, v, _, rfl, h₁, h₂, rfl⟩

/-- Of two queries, the second has the last clause. -/
theorem encodeQueries_concludes {since' : Nat} {n₁ n₂ : Node} (hn₁ : n₁.TagsIn fun t ↦ since ≤ t ∧ ¬ reserved t)
    (hn₂ : n₂.Rooted (fun t ↦ since' ≤ t ∧ t ≠ root) root) (hle : since ≤ since') (hsince : since' ≤ root)
    (hr : reserved root) (htag : ∀ t, n₂.tag? = some t → reserved t) :
    Takes (Orderly since reserved F) (encodeQueries [n₁, n₂])
      fun os w ↦ ∃ a b, os = [a, b] ∧ Resulting F b w := by
  intro w os w' hw hg
  obtain ⟨a, b, v, u, rfl, h₁, h₂, rfl⟩ := encodeQueries_gives hg
  have hv := ((Orderly.clerking since reserved).query hn₁ (hw.turn (.int 0)) h₁).1.turn (.int 1)
  obtain ⟨l, hl, hF, hc⟩ := table_concludes hn₂ hsince hr htag (hv.later hle (hsince.trans (hv.tags.2 root hr).le)) h₂
  exact ⟨a, b, rfl, l, hl, hF, hc.last, hc.result, hc.lineage⟩

end Verdict

end QueryEquiv
