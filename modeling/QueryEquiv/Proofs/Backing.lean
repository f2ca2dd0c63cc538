import QueryEquiv.Proofs.Naming
import QueryEquiv.Proofs.Opening
import QueryEquiv.Proofs.Scripts

/-!
# What stands behind a difference

A search that ends with a prover has asked it about all formulas: it goes on until no clause is left that
is not considered, and going back puts the labels that are considered aside and takes them up again. That
no clause is left out in the first place comes down to how labels are told apart: the labels up to that of
the first result are those of the first query, and the rest, up to that of the second result, those of the
second. Since the clause that gives a result comes last, there is nothing behind the second.
-/

namespace QueryEquiv

open Leads List Search Inquiry

/-! ## Going back -/

section Backtracking

variable {U : List Formula} {c : Account}

/-- The formula for the decisions is brought up to date, and nothing else. -/
theorem Account.Intact.assertDecisions {fs : Formulas} {σ : Nat → Option SolverExchange}
    (h : Account.Intact U ⟨fs.entries, fs.written, fs.considered, σ⟩) :
    Account.Intact U ⟨(assertDecisions fs).entries, (assertDecisions fs).written,
      (assertDecisions fs).considered, σ⟩ := by
  refine ⟨?_, h.faithful.assertDecisions⟩
  unfold Search.assertDecisions
  split
  · change (fs.entries.filter (·.label != decisionLabel)).filter (·.label != decisionLabel) = U
    rw [filter_filter, ← h.others]
    simp
  · exact (filter_replace (l := decisionLabel) rfl _).trans h.others

theorem considered_assertDecisions (fs : Formulas) : (assertDecisions fs).considered = fs.considered := by
  unfold assertDecisions
  split <;> rfl

variable {α : Type} {E P R : Asking → Prop}

theorem firstOf_reaches {f : Nat → Inquiry (Option α)} {n : Nat}
    (hf : ∀ i, Leads E P (f i) fun r a ↦ P a ∧ (r.isSome = true → R a)) (k : Nat) :
    Leads E P (firstOf f n k) fun r a ↦ P a ∧ (r.isSome = true → R a) := by
  induction k with
  | zero => exact .pure fun a ha ↦ ⟨ha, fun h ↦ by cases h⟩
  | succ k ih =>
    refine (hf _).bind fun r ↦ ?_
    cases r with
    | some v => exact .pure fun a ha ↦ ha
    | none => exact ih.weaken fun a ha ↦ ha.1

/-- Only the attempt that succeeds matters. -/
theorem attempts_reach {attempt : List (Int × Choices) → Inquiry (Option α)}
    (h : ∀ chosen, Leads E P (attempt chosen) fun r a ↦ P a ∧ (r.isSome = true → R a)) (covers : List (Int × Cover))
    (chosen : List (Int × Choices)) :
    Leads E P (attempts attempt covers chosen) fun r a ↦ P a ∧ (r.isSome = true → R a) := by
  induction covers generalizing chosen with
  | nil => exact h chosen
  | cons c covers ih => exact firstOf_reaches (fun i ↦ ih _) _

/-- When decisions are found, the labels that are considered are those of before. -/
theorem backtrack_intact (core : List String) {k : Considered} :
    Leads (fun _ ↦ True) (fun a ↦ a.account.Intact U ∧ a.account.considered = k) (backtrack core)
      fun found a ↦ a.account.Intact U ∧ (found = true → a.account.considered = k) := by
  let Q (c : Account) : Prop := c.Intact U ∧ c.considered = k
  have everywhere (a : Asking) : (fun _ : Asking ↦ True) a := trivial
  have apart {β : Type} {x : Inquiry β} {Q : Account → Prop} (h : Apart x) := h.leads (Q := Q) everywhere
  refine (apart (Q := Q) (.note _ _)).bind fun _ ↦ (apart (Q := Q) (Apart.formulas.bind fun _ ↦ .pure)).bind fun p ↦ ?_
  refine bind (Q := fun fs a ↦ fs.considered = k ∧ a.account.Intact U) (fun a ha ↦ ⟨ha.2, ha.1⟩) fun fs ↦
    .fact fun hfs ↦ ?_
  refine bind (Q := fun _ a ↦ a.account.Intact U) (.encoding fun a ha ↦ ⟨ha.others, ha.faithful⟩) fun _ ↦ ?_
  refine (apart (Q := Account.Intact U) (.coversOf _ _)).bind fun covers ↦ ?_
  refine (attempts_reach (R := fun a ↦ a.account.considered = k) (fun chosen ↦ ?_) covers []).bind fun r ↦
    .pure fun _ h ↦ h
  -- One attempt: whatever comes of it, only the formula for the decisions changes.
  refine bind (Q := fun _ a ↦ a.account.Intact U) (.encoding fun a ha ↦ ⟨ha.others, ha.faithful⟩) fun _ ↦ ?_
  refine (apart (Q := Account.Intact U) (.note _ _)).bind fun _ ↦ ?_
  refine bind (Q := fun _ a ↦ a.account.Intact U) (.encoding fun a ha ↦ ha.assertDecisions) fun _ ↦ ?_
  refine ((ask_told (K := fun _ ↦ True)).weaken fun a ha ↦ ⟨ha, trivial⟩).bind fun r ↦ ?_
  obtain ⟨sat, p⟩ := r
  refine weaken (P := fun a ↦ a.account.Intact U) ?_ fun a ha ↦ ha.1.1
  cases sat with
  | true =>
    refine (apart (Q := Account.Intact U) (.forM (Apart.decideIfAny p) core)).bind fun _ ↦ ?_
    refine bind (Q := fun _ a ↦ Q a.account) (.encoding fun a ha ↦ ⟨?_, ?_⟩) fun _ ↦ ?_
    · have restored : Account.Intact U ⟨a.account.entries, a.account.written, fs.considered, a.account.sent⟩ :=
        ⟨ha.others, ha.faithful⟩
      exact restored.assertDecisions
    · exact (considered_assertDecisions _).trans hfs
    · exact (apart (Q := Q) .formulas).bind fun _ ↦ (apart (Q := Q) (.record _)).bind fun _ ↦
        .pure fun a ha ↦ ⟨ha.1, fun _ ↦ ha.2⟩
  | false => exact (apart (Q := Account.Intact U) (.learn core)).bind fun _ ↦ .pure fun a ha ↦ ⟨ha, fun h ↦ by cases h⟩

end Backtracking

/-! ## Clauses that are considered -/

section Considering

variable {U : List Formula} {p : Prover} {c : Account}

/-- Clauses that are not considered are among those of some labels. -/
def Covered (U : List Formula) (ls : List String) (k : Considered) : Prop :=
  ∀ f ∈ U, ofClause f.label = true → k.contains f.label = true ∨ f.label ∈ ls

theorem Covered.imp {ls ls' : List String} {k : Considered} (h : Covered U ls k) (hl : ∀ l ∈ ls, l ∈ ls') :
    Covered U ls' k := fun f hf hc ↦ (h f hf hc).imp_right (hl _)

/-- A prover says that there is a model, and was sent an assertion for every formula. -/
def Account.Backed (p : Prover) (c : Account) : Prop := ∃ e, c.Answered p e ∧ ∀ f ∈ c.entries, Asserts e f

/-- When all clauses are considered, everything is asserted. -/
theorem Account.Told.backed (h : c.Told p) (hU : c.Intact U) (hc : Covered U [] c.considered) : c.Backed p := by
  obtain ⟨e, he, hall⟩ := h
  refine ⟨e, he, fun f hf ↦ hall f (mem_filter.2 ⟨hf, ?_⟩)⟩
  rcases hl : ofClause f.label with _ | _
  · rfl
  · have hne : f.label ≠ decisionLabel := by
      intro hd
      rw [hd] at hl
      exact absurd hl (by decide)
    have hmem : f ∈ U := hU.others ▸ mem_filter.2 ⟨hf, by simpa using hne⟩
    simpa using hc f hmem hl

theorem consider_covers (l : String) (ls : List String) :
    Leads (fun _ ↦ True) (fun a ↦ a.account.Intact U ∧ Covered U (l :: ls) a.account.considered) (consider l)
      fun _ a ↦ a.account.Intact U ∧ Covered U ls a.account.considered := by
  refine bind (Q := fun fs a ↦ Covered U (l :: ls) fs.considered ∧ a.account.Intact U) (fun a ha ↦ ⟨ha.2, ha.1⟩)
    fun fs ↦ .fact fun hcovered ↦ ?_
  refine bind (Q := fun k a ↦ fs.considered.add l = .ok k ∧ a.account.Intact U)
    (.lift (fun k hk a ha ↦ ⟨hk, ha⟩) fun _ _ ↦ trivial) fun k ↦
    .encoding fun a ⟨hk, hintact⟩ ↦ ⟨⟨hintact.others, hintact.faithful⟩, fun f hf hl ↦ ?_⟩
  change k.contains f.label = true ∨ _
  -- A set that grows has what it had, and the label.
  have hadd : ∀ l', (fs.considered.contains l' = true ∨ l' = l) → k.contains l' = true := by
    rcases hc : fs.considered with ms | ms
    · rw [hc] at hk
      cases hk
      intro l' hl'
      change (if ms.contains l then ms else ms ++ [l]).contains l' = true
      split
      · rename_i hmem
        obtain hl' | rfl := hl'
        · exact hl'
        · exact hmem
      · simpa [Considered.contains, Considered.labels] using hl'
    · rw [hc] at hk
      cases hk
  obtain h | h := hcovered f hf hl
  · exact .inl (hadd _ (.inl h))
  · obtain h | h := mem_cons.1 h
    · exact .inl (hadd _ (.inr h))
    · exact .inr h

theorem considerAll_covers (ls rest : List String) :
    Leads (fun _ ↦ True) (fun a ↦ a.account.Intact U ∧ Covered U (ls ++ rest) a.account.considered) (ls.forM consider)
      fun _ a ↦ a.account.Intact U ∧ Covered U rest a.account.considered := by
  induction ls with
  | nil => exact .pure fun a ha ↦ ha
  | cons l ls ih => exact (consider_covers l (ls ++ rest)).bind fun _ ↦ ih

/-- The first and the last of at most twice as many lists, for a number of times, are all of them. -/
theorem nextClauses_all {n : Nat} {remaining : List (List String)} (h : remaining.length ≤ 2 * n) :
    (nextClauses n remaining).2 = [] ∧ ∀ l ∈ remaining.flatten, l ∈ (nextClauses n remaining).1 := by
  induction n generalizing remaining with
  | zero =>
    obtain rfl : remaining = [] := length_eq_zero_iff.1 (by omega)
    simp [nextClauses]
  | succ n ih =>
    cases remaining with
    | nil => simp [nextClauses]
    | cons first rest =>
      unfold nextClauses
      split
      · rename_i hlast
        rw [getLast?_eq_none_iff] at hlast
        simp [hlast]
      · rename_i last hlast
        have hlen : rest.dropLast.length ≤ 2 * n := by
          rw [length_cons] at h
          rw [length_dropLast]
          omega
        obtain ⟨hnone, hall⟩ := ih hlen
        refine ⟨hnone, fun l hl ↦ ?_⟩
        have hrest : rest = rest.dropLast ++ [last] := (dropLast_append_getLast? last hlast).symm
        rw [flatten_cons, hrest, flatten_append, flatten_singleton, mem_append, mem_append] at hl
        rw [mem_append, mem_append]
        obtain hl | hl | hl := hl
        · exact .inl (.inl hl)
        · exact .inr (hall l hl)
        · exact .inl (.inr hl)

end Considering

/-! ## The rounds -/

section Rounds

variable {U : List Formula}

structure Account.Ended (U : List Formula) (p : Prover) (c : Account) : Prop where
  intact : c.Intact U
  covered : Covered U [] c.considered
  backed : c.Backed p

/-- The invariant of the rounds: what is not considered yet is still to come, and when nothing is left to be
decided, the prover was asked about everything. -/
structure Account.Ongoing (U : List Formula) (p : Prover) (worklist : List String) (remaining : List (List String))
    (c : Account) : Prop where
  intact : c.Intact U
  covered : Covered U remaining.flatten c.considered
  done : worklist = [] → c.Ended U p

/-- After an answer that there is a model, the clauses that come next are considered. -/
theorem goOn_ongoing {p : Prover} {remaining : List (List String)} (hlen : remaining.length ≤ 50) :
    Leads (fun _ ↦ True)
      (fun a ↦ (a.account.Intact U ∧ Covered U remaining.flatten a.account.considered) ∧ a.account.Told p)
      ((nextClauses 25 remaining).1.forM consider)
      fun _ a ↦ a.account.Ongoing U p (nextClauses 25 remaining).1 (nextClauses 25 remaining).2 := by
  obtain ⟨hnone, hall⟩ := nextClauses_all (n := 25) hlen
  rw [hnone]
  generalize (nextClauses 25 remaining).1 = worklist at hall
  cases worklist with
  | nil =>
    refine .pure fun a ⟨⟨hintact, hcovered⟩, htold⟩ ↦ ?_
    have hcovered : Covered U [] a.account.considered := hcovered.imp hall
    exact ⟨hintact, hcovered, fun _ ↦ ⟨hintact, hcovered, htold.backed hintact hcovered⟩⟩
  | cons l ls =>
    have hconsider := considerAll_covers (U := U) (l :: ls) []
    rw [append_nil] at hconsider
    exact (hconsider.weaken fun a ha ↦ ⟨ha.1.1, ha.1.2.imp hall⟩).imp fun _ a ha ↦ ⟨ha.1, ha.2, fun h ↦ by cases h⟩

theorem rounds_end (fuel : Nat) (p : Prover) (worklist : List String) (remaining : List (List String))
    (hlen : remaining.length ≤ 50) (backtracks : Nat) :
    Leads (fun _ ↦ True) (fun a ↦ a.account.Ongoing U p worklist remaining)
      (search.rounds fuel p worklist remaining backtracks)
      fun r a ↦ ∀ p', r = some p' → a.account.Ended U p' := by
  have everywhere (a : Asking) : (fun _ : Asking ↦ True) a := trivial
  have apart {β : Type} {x : Inquiry β} {Q : Account → Prop} (h : Apart x) := h.leads (Q := Q) everywhere
  induction fuel generalizing p worklist remaining backtracks with
  | zero => exact .throw fun _ _ ↦ trivial
  | succ fuel ih =>
    unfold search.rounds
    split
    · rename_i hempty
      refine weaken (P := fun a ↦ a.account.Ended U p) ?_ fun a ha ↦ ha.done (isEmpty_iff.1 hempty)
      refine (apart .formulas).bind fun _ ↦ (apart (.note _ _)).bind fun _ ↦ (apart (.note _ _)).bind fun _ ↦
        .pure fun a ha p' hp ↦ ?_
      cases hp
      exact ha
    · rename_i hne
      let Q (c : Account) : Prop := c.Intact U ∧ Covered U remaining.flatten c.considered
      refine weaken (P := fun a ↦ Q a.account) ?_ fun a ha ↦ ⟨ha.intact, ha.covered⟩
      refine (apart (Q := Q) (.record _)).bind fun _ ↦ ?_
      refine bind (Q := fun _ a ↦ Q a.account) (.encoding fun a ha ↦ ⟨ha.1.assertDecisions, ?_⟩) fun _ ↦ ?_
      · change Covered U _ (assertDecisions a.workspace.formulas).considered
        rw [considered_assertDecisions]
        exact ha.2
      refine (apart (Q := Q) .formulas).bind fun _ ↦ (apart (Q := Q) (.note _ _)).bind fun _ ↦
        (apart (Q := Q) (.note _ _)).bind fun _ ↦ (ask_told (K := Covered U remaining.flatten)).bind fun r ↦ ?_
      obtain ⟨sat, p⟩ := r
      cases sat with
      | true =>
        let Q' (c : Account) : Prop := Q c ∧ c.Told p
        refine weaken (P := fun a ↦ Q' a.account) ?_ fun a ha ↦ ⟨ha.1, ha.2 rfl⟩
        refine (apart (Q := Q') (.record _)).bind fun _ ↦ (apart (Q := Q') (.forM (Apart.decideLabel p) _)).bind fun _ ↦ ?_
        refine (goOn_ongoing hlen).bind fun _ ↦ ih p _ _ ?_ backtracks
        rw [(nextClauses_all (n := 25) hlen).1]
        exact Nat.zero_le 50
      | false =>
        refine weaken (P := fun a ↦ Q a.account) ?_ fun a ha ↦ ha.1
        refine (apart (Q := Q) (.note _ _)).bind fun _ ↦ (apart (Q := Q) (.note _ _)).bind fun _ ↦
          (apart (Q := Q) (.countBacktrack p)).bind fun core ↦ (apart (Q := Q) (.learn core)).bind fun _ ↦ ?_
        -- The labels that are considered are the same again when going back succeeds.
        refine bind (Q := fun found a ↦ found = true → Q a.account) (fun a ha ↦ ?_) fun found ↦ ?_
        · have := backtrack_intact (U := U) core (k := a.account.considered) ⟨ha.1, rfl⟩
          rcases hr : inquire (backtrack core) a with ⟨e | found, b⟩ <;> rw [hr] at this
          · trivial
          · exact fun hfound ↦ ⟨this.1, this.2 hfound ▸ ha.2⟩
        · cases found with
          | true =>
            refine (ih p worklist _ hlen (backtracks + 1)).weaken fun a ha ↦ ⟨(ha rfl).1, (ha rfl).2, fun h ↦ ?_⟩
            rw [h] at hne
            exact absurd rfl hne
          | false =>
            refine weaken (P := fun _ ↦ True) ?_ fun _ _ ↦ trivial
            exact (apart (Q := fun _ ↦ True) (.note _ _)).bind fun _ ↦ .pure fun _ _ p' hp ↦ by cases hp

end Rounds

/-! ## The labels of two queries -/

section Labels

variable {ls own rest : List String} {l : String}

theorem cutBehind_eq_ok {label : Option String} (h : cutBehind label ls = .ok (own, rest)) :
    ∃ l own', label = some l ∧ own = own' ++ [l] ∧ ls = own ++ rest := by
  unfold cutBehind at h
  split at h
  · rename_i i hi
    obtain ⟨l, rfl, hl⟩ := Option.bind_eq_some_iff.1 hi
    obtain ⟨hlt, rfl, -⟩ := idxOf?_eq_some_iff.1 hl
    rw [splitAt_eq] at h
    obtain ⟨rfl, rfl⟩ := Prod.mk.inj (Except.ok.inj h)
    refine ⟨ls[i], ls.take i, rfl, ?_, (take_append_drop _ _).symm⟩
    rw [← take_concat_get hlt, concat_eq_append]
  · cases h

/-- When the label of the second result comes last, every label belongs to one of two queries. -/
theorem labelsOfQueries_pair {t₁ t₂ : Table} {before : List String} {queries : List (List String)}
    (hresult : resultLabel t₂ = .ok (some l)) (hnew : l ∉ before)
    (h : labelsOfQueries [t₁, t₂] (before ++ [l]) = .ok queries) :
    ∃ own₁ own₂ x₁ x₂, queries = [own₁ ++ [x₁], own₂ ++ [x₂]] ∧ before ++ [l] = (own₁ ++ [x₁]) ++ (own₂ ++ [x₂]) := by
  simp only [labelsOfQueries, Outcome.bind_ok_iff, Outcome.pure_ok_iff] at h
  obtain ⟨r₁, -, ⟨own₁, rest⟩, h₁, _, ⟨r₂, hr₂, ⟨own₂, rest₂⟩, h₂, _, h₃, rfl⟩, rfl⟩ := h
  cases h₃
  rw [hresult] at hr₂
  cases hr₂
  obtain ⟨x₁, own₁, -, rfl, hall⟩ := cutBehind_eq_ok h₁
  obtain ⟨x₂, own₂, hx₂, rfl, rfl⟩ := cutBehind_eq_ok h₂
  cases hx₂
  -- Nothing is left behind the label, since it stands there only once.
  obtain rfl : rest₂ = [] := by
    obtain hnil | ⟨front, x, hx⟩ := eq_nil_or_concat rest₂
    · exact hnil
    · rw [hx, concat_eq_append, ← append_assoc, ← append_assoc] at hall
      refine absurd ?_ hnew
      rw [(append_singleton_inj.1 hall).1]
      simp
  exact ⟨own₁, own₂, x₁, l, rfl, by rw [hall, append_nil]⟩

end Labels

/-! ## The search -/

section Search

variable {U : List Formula} {catalog : Catalog} {es : List Formula}

/-- The formulas of a workspace and its tables, before the first round. -/
structure Laid (U es : List Formula) (catalog : Catalog) (a : Asking) : Prop where
  intact : a.account.Intact U
  entries : a.account.entries = es
  catalog : a.workspace.catalog = catalog

theorem consider_laid (l : String) :
    Leads (fun _ ↦ True) (Laid U es catalog) (consider l) fun _ ↦ Laid U es catalog := by
  refine bind (Q := fun _ ↦ Laid U es catalog) (fun a ha ↦ ha) fun fs ↦ ?_
  refine bind (Q := fun _ ↦ Laid U es catalog) (.lift (fun _ _ _ ha ↦ ha) fun _ _ ↦ trivial) fun k ↦ ?_
  exact .encoding fun a ha ↦ ⟨⟨ha.intact.others, ha.intact.faithful⟩, ha.entries, ha.catalog⟩

theorem findTables_laid : Leads (fun _ ↦ True) (Laid U es catalog) (encoding findTables) fun _ ↦ Laid U es catalog := by
  refine .encoding fun a ha ↦ ?_
  unfold findTables
  rw [exec_bind, exec_get]
  dsimp only
  rw [exec_bind, exec_lift]
  rcases tablesOfLabels a.workspace with _ | found
  · trivial
  · exact ⟨⟨ha.intact.others, ha.intact.faithful⟩, ha.entries, ha.catalog⟩

theorem read_laid {α : Type} {x : Inquiry α}
    (h : ∀ a, (inquire x a).2.workspace = a.workspace ∧ (inquire x a).2.solvers = a.solvers) :
    Leads (fun _ ↦ True) (Laid U es catalog) x fun _ ↦ Laid U es catalog := by
  intro a ha
  obtain ⟨hw, hs⟩ := h a
  rcases hr : inquire x a with ⟨e | v, b⟩ <;> rw [hr] at hw hs
  · trivial
  · change Laid U es catalog b
    have hb : b.account = a.account := by simp only [Asking.account, show b.workspace = _ from hw, show b.solvers = _ from hs]
    exact ⟨hb ▸ ha.intact, hb ▸ ha.entries, (congrArg (·.catalog) hw).trans ha.catalog⟩

/-- Clauses are considered from the last of each query on. -/
theorem rounds_begin {own₁ own₂ : List String} {x₁ x₂ : String} {p : Prover} {note : String}
    (hlabels : (es.map (·.label)).filter ofClause = (own₁ ++ [x₁]) ++ (own₂ ++ [x₂])) :
    Leads (fun _ ↦ True) (fun a ↦ a.account.Intact U ∧ a.account.entries = es) (do
        Inquiry.note .debug note
        match [own₁ ++ [x₁], own₂ ++ [x₂]] with
        | [] => throw .outOfRange
        | first :: _ =>
          let worklist := [own₁ ++ [x₁], own₂ ++ [x₂]].filterMap List.getLast?
          worklist.forM consider
          let remaining := [own₁ ++ [x₁], own₂ ++ [x₂]].map List.dropLast
          let fuel := (← get).solvers.replies.length + 2
          if [own₁ ++ [x₁], own₂ ++ [x₂]].length > first.length then
            ((remaining.head?.getD []) ++ (remaining.getLast?.getD [])).forM consider
            search.rounds fuel p worklist (remaining.drop 1).dropLast 0
          else search.rounds fuel p worklist remaining 0)
      fun r a ↦ ∀ p, r = some p → a.account.Ended U p := by
  have everywhere (a : Asking) : (fun _ : Asking ↦ True) a := trivial
  let Q (ls : List String) (c : Account) : Prop := c.Intact U ∧ Covered U ls c.considered
  refine weaken (P := fun a ↦ Q ([x₁, x₂] ++ (own₁ ++ own₂)) a.account) ?_ fun a ⟨hintact, hentries⟩ ↦
    ⟨hintact, fun f hf hl ↦ .inr ?_⟩
  · have hworklist : [own₁ ++ [x₁], own₂ ++ [x₂]].filterMap getLast? = [x₁, x₂] := by simp
    have hremaining : [own₁ ++ [x₁], own₂ ++ [x₂]].map dropLast = [own₁, own₂] := by simp
    dsimp only
    rw [hworklist, hremaining]
    refine ((Apart.note _ _).leads (Q := Q _) everywhere).bind fun _ ↦
      (considerAll_covers [x₁, x₂] (own₁ ++ own₂)).bind fun _ ↦
      (Apart.get.leads (Q := Q _) everywhere).bind fun b ↦ ?_
    split
    · have hconsider := considerAll_covers (U := U) (own₁ ++ own₂) []
      rw [append_nil] at hconsider
      exact hconsider.bind fun _ ↦ (rounds_end _ p _ [] (by simp) 0).weaken fun a ha ↦
        ⟨ha.1, ha.2, fun h ↦ by cases h⟩
    · exact (rounds_end _ p _ [own₁, own₂] (by simp) 0).weaken fun a ha ↦
        ⟨ha.1, by simpa using ha.2, fun h ↦ by cases h⟩
  · have hmem : f.label ∈ (es.map (·.label)).filter ofClause := by
      rw [← hintact.others, hentries] at hf
      exact mem_filter.2 ⟨mem_map.2 ⟨f, (mem_filter.1 hf).1, rfl⟩, hl⟩
    rw [hlabels] at hmem
    simp only [mem_append, mem_cons, not_mem_nil, or_false] at hmem ⊢
    tauto

/-- A search for two results, of which the second tells the last label, ends with a prover that was asked about
everything. -/
theorem search_ends (o₁ : Nat) {o₂ : Nat} {before : List String} {l : String}
    (hlabels : (es.map (·.label)).filter ofClause = before ++ [l]) (hnew : l ∉ before)
    (hresult : resultLabel (catalog.table o₂) = .ok (some l)) :
    Leads (fun _ ↦ True) (Laid U es catalog) (search [o₁, o₂])
      fun r a ↦ ∀ p, r = some p → a.account.Ended U p := by
  unfold search
  refine (read_laid (x := Search.begin) fun a ↦ ⟨rfl, rfl⟩).bind fun _ ↦ findTables_laid.bind fun _ ↦
    (read_laid (x := newProver) fun a ↦ ⟨rfl, rfl⟩).bind fun p ↦
    (read_laid (x := countClauses) fun a ↦ ⟨rfl, rfl⟩).bind fun _ ↦ ?_
  refine bind (Q := fun fs a ↦ fs.labels = es.map (·.label) ∧ Laid U es catalog a)
    (fun a ha ↦ ⟨congrArg (List.map _) ha.entries, ha⟩) fun fs ↦ .fact fun hfs ↦ ?_
  dsimp only
  rw [hfs, hlabels]
  refine (forM fun l _ ↦ consider_laid l).bind fun _ ↦ ?_
  have tables : Leads (fun _ ↦ True) (Laid U es catalog) ([o₁, o₂].mapM fun place ↦ encoding (Workspace.table place))
      fun ts a ↦ ts = [catalog.table o₁, catalog.table o₂] ∧ Laid U es catalog a := by
    rintro a ha
    have htable (o : Nat) : a.workspace.catalog.table o = catalog.table o := congrArg (·.table o) ha.catalog
    exact ⟨congrArg₂ (fun t u ↦ [t, u]) (htable o₁) (htable o₂), ha⟩
  refine tables.bind_eq ?_
  refine bind (Q := fun queries a ↦ labelsOfQueries [catalog.table o₁, catalog.table o₂] (before ++ [l]) = .ok queries ∧
    Laid U es catalog a) (.lift (fun _ hq _ ha ↦ ⟨hq, ha⟩) fun _ _ ↦ trivial) fun queries ↦ .fact fun hqueries ↦ ?_
  obtain ⟨own₁, own₂, x₁, x₂, rfl, hall⟩ := labelsOfQueries_pair hresult hnew hqueries
  rw [hall] at hlabels
  exact (rounds_begin hlabels).weaken fun a ha ↦ ⟨ha.intact, ha.entries⟩

end Search

/-! ## Comparisons -/

theorem Tidy.intact {a : Asking} (h : Tidy a.workspace) :
    Laid (a.workspace.formulas.entries.filter (·.label != decisionLabel)) a.workspace.formulas.entries
      a.workspace.catalog a := by
  refine ⟨⟨rfl, h.nodup, ?_, ?_, fun l hl ↦ nomatch hl⟩, rfl, rfl⟩ <;>
  · intro e he
    rw [show a.account.written = [] from h.unwritten] at he
    cases he

/-- The last check of a prover has the verdict that there is a model, and it was about every formula of the
workspace: each is among what was asserted, and has an assertion in the script that was sent. -/
def Prover.BackedByAll (p : Prover) (a : Asking) : Prop :=
  ∃ i e r rest, p.exchange = some i ∧ a.solvers.exchanges[i]? = some e ∧ e.reply = some r ∧
    SolverReply.verdict? r.lines = some (true, rest) ∧
    ∀ f ∈ a.workspace.formulas.entries, (f.label, f.term) ∈ e.asserted ∧
      ∃ text, f.term.scriptText = .ok text ∧ Text.occursIn (assertion f.label text) e.script = true

/-- When the search of a comparison ends with a prover, then the verdict of its last check is about all formulas.
All clauses of both queries are considered then, and beside the decisions the formulas are those of the encoding. -/
theorem search_backed_by_all {x y : String} {a a₁ a₂ b : Asking} {queries : List Node} {outputs : List Nat} {p : Prover}
    (ha : Opened a.workspace) (hread : inquire (Verdict.readQueries [x, y]) a = (.ok queries, a₁))
    (hencode : inquire (encoding do
      let outputs ← Verdict.encodeQueries queries
      Verdict.difference outputs
      return outputs) { a₁ with report := {} } = (.ok outputs, a₂))
    (hsearch : inquire (search outputs) a₂ = (.ok (some p), b)) :
    p.BackedByAll b ∧
      (∀ l ∈ b.workspace.formulas.labels, ofClause l = true → b.workspace.formulas.considered.contains l = true) ∧
      b.workspace.formulas.entries.filter (·.label != decisionLabel) =
        a₂.workspace.formulas.entries.filter (·.label != decisionLabel) := by
  obtain ⟨q₁, q₂, n₁, n₂, w, rfl, -, hq₂, hn₁, hn₂⟩ := readQueries_gives hread
  have hgives := gives_of_encoding hencode
  obtain ⟨o₁, o₂, before, l, rfl, hlabels, hnew, hresult, htidy⟩ := encodePair_gives ha.fresh hq₂ hn₁ hn₂ hgives
  have hended := search_ends o₁ hlabels hnew hresult htidy.intact
  rw [hsearch] at hended
  obtain ⟨hintact, hcovered, e, ⟨i, r, rest, hi, he, hr, hverdict⟩, hall⟩ := hended p rfl
  obtain ⟨e', he', rfl⟩ := Option.map_eq_some_iff.1 he
  refine ⟨⟨i, e', r, rest, hi, he', hr, hverdict, hall⟩, fun l hl hc ↦ ?_, hintact.others⟩
  obtain ⟨f, hf, rfl⟩ := mem_map.1 hl
  have hne : f.label ≠ decisionLabel := by
    intro hd
    rw [hd] at hc
    exact absurd hc (by decide)
  have hmem := hintact.others ▸ mem_filter.2 ⟨hf, by simpa using hne⟩
  exact (hcovered f hmem hc).resolve_right not_mem_nil

/-- The tree of `SELECT a FROM t WHERE a = n`. -/
def rowsWhere (n : Int) : Value :=
  .object [("select", .object [("value", .str "a")]), ("from", .str "t"),
    ("where", .object [("eq", .list [.str "a", .int n])])]

/-- Before two queries over one table are compared, with a solver that says no once. -/
def goingBack : Asking :=
  let sat : SolverReply := { lines := ["sat"], defaults := [("choice", "1")] }
  let unsat : SolverReply := { lines := ["unsat"], core := ["neq", "under", "project$2"] }
  { workspace := singleTableLoaded
    library := { replies := [some (rowsWhere 0), some (rowsWhere 1)] }
    solvers := { replies := [sat, unsat, sat, sat] } }

/-- A search that goes back once ends with a prover that was asked about everything in its fourth check. -/
theorem goingBack_backed : ∃ queries outputs p a₁ a₂ b,
    inquire (Verdict.readQueries ["SELECT a FROM t WHERE a = 0", "SELECT a FROM t WHERE a = 1"]) goingBack =
      (.ok queries, a₁) ∧
    inquire (encoding do
      let outputs ← Verdict.encodeQueries queries
      Verdict.difference outputs
      return outputs) { a₁ with report := {} } = (.ok outputs, a₂) ∧
    inquire (search outputs) a₂ = (.ok (some p), b) ∧ p.exchange = some 3 ∧ p.BackedByAll b := by
  let comparison : Inquiry (Option Prover) := do
    let queries ← Verdict.readQueries ["SELECT a FROM t WHERE a = 0", "SELECT a FROM t WHERE a = 1"]
    record fun _ ↦ {}
    let outputs ← encoding do
      let outputs ← Verdict.encodeQueries queries
      Verdict.difference outputs
      return outputs
    search outputs
  have hrun : ((inquire comparison goingBack).1.toOption.bind id).bind (·.exchange) = some 3 := by decide +kernel
  obtain ⟨p, hp, hexchange⟩ := Option.bind_eq_some_iff.1 hrun
  rcases hb : inquire comparison goingBack with ⟨e | found, b⟩ <;> rw [hb] at hp
  · cases hp
  · obtain rfl : found = some p := hp
    obtain ⟨queries, a₁, hread, h⟩ := inquire_bind_ok.1 hb
    obtain ⟨_, _, hrecord, h⟩ := inquire_bind_ok.1 h
    obtain ⟨-, rfl⟩ := Prod.mk.inj hrecord
    obtain ⟨outputs, a₂, hencode, hsearch⟩ := inquire_bind_ok.1 h
    exact ⟨queries, outputs, p, a₁, a₂, b, hread, hencode, hsearch, hexchange,
      (search_backed_by_all (.start singleTable_loads) hread hencode hsearch).1⟩

end QueryEquiv
