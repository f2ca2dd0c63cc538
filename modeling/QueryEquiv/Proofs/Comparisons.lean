import QueryEquiv.Proofs.Asking
import QueryEquiv.Proofs.Loading
import QueryEquiv.Proofs.Naming
import QueryEquiv.Verdict

/-!
# What comparisons leave behind

After a comparison the workspace is cleared: its tables and formulas are dropped and the schema is loaded once more.
But the constraints that the schema implies were added to those that were given, and they stay. So each time they are
added again, and the time limit becomes the standard one (`clears_restore_iff`).

If the queries are read but cannot be encoded, a check answers that it failed, while a search for a distinguishing
database fails itself; neither clears the workspace (`Verdict.encoding_failure`).
-/

namespace QueryEquiv

open Gives List Workspace

/-! ## Loading the schema again -/

/-- Constraints are added, and the schema and the time limit stay. -/
structure Grows (cs : List Value) (w v : Workspace) : Prop where
  constraints : v.constraints = w.constraints ++ cs
  schema : v.schema = w.schema
  timeout : v.formulas.timeout = w.formulas.timeout

namespace Grows

theorem same {w v : Workspace} (hc : v.constraints = w.constraints) (hs : v.schema = w.schema)
    (ht : v.formulas.timeout = w.formulas.timeout) : Grows [] w v := ⟨by rw [hc, append_nil], hs, ht⟩

instance : Std.Refl (Grows []) := ⟨fun _ ↦ same rfl rfl rfl⟩

theorem trans {cs ds : List Value} {w v u : Workspace} (h : Grows cs w v) (h' : Grows ds v u) : Grows (cs ++ ds) w u :=
  ⟨by rw [h'.constraints, h.constraints, append_assoc], h'.schema.trans h.schema, h'.timeout.trans h.timeout⟩

instance : Trans (Grows []) (Grows []) (Grows []) := ⟨fun h h' ↦ h.trans h'⟩

theorem lenient : Lenient (Grows []) where
  codes _ _ := same rfl rfl rfl
  extra _ _ := same rfl rfl rfl
  messages _ _ := same rfl rfl rfl

theorem loadConstraints_moves : Moves (Grows []) loadConstraints :=
  Moves.get.bind fun _ ↦ (lenient.encode_moves _).bind fun f w ↦ same rfl rfl (by
    change (w.formulas.append f (some "ic")).timeout = _
    unfold Formulas.append
    dsimp only
    split <;> rfl)

end Grows

/-- Two computations add the same constraints, wherever they succeed, and their results are related. -/
def Parallel {α β : Type} (S : α → β → Prop) (x : Encoding α) (y : Encoding β) : Prop :=
  ∀ ⦃w a w' v b v'⦄, Gives x w a w' → Gives y v b v' → S a b ∧ ∃ cs, Grows cs w w' ∧ Grows cs v v'

namespace Parallel

variable {α β γ δ : Type} {S : α → β → Prop} {T : γ → δ → Prop} {x : Encoding α} {y : Encoding β}

theorem bind {f : α → Encoding γ} {g : β → Encoding δ} (hx : Parallel S x y) (hf : ∀ a b, S a b → Parallel T (f a) (g b)) :
    Parallel T (x >>= f) (y >>= g) := by
  intro w a w' v b v' h h'
  obtain ⟨a₁, w₁, h₁, h⟩ := bind_iff.1 h
  obtain ⟨b₁, v₁, h₁', h'⟩ := bind_iff.1 h'
  obtain ⟨hs, cs, hw, hv⟩ := hx h₁ h₁'
  obtain ⟨ht, ds, hw', hv'⟩ := hf a₁ b₁ hs h h'
  exact ⟨ht, cs ++ ds, hw.trans hw', hv.trans hv'⟩

theorem still (hx : Moves (Grows []) x) (hy : Moves (Grows []) y) : Parallel (fun _ _ ↦ True) x y :=
  fun _ _ _ _ _ _ h h' ↦ ⟨trivial, [], hx.gives h, hy.gives h'⟩

theorem pure {a : α} {b : β} (h : S a b) : Parallel S (pure a) (pure b) := by
  intro w _ _ v _ _ hw hv
  obtain ⟨rfl, rfl⟩ := pure_iff.1 hw
  obtain ⟨rfl, rfl⟩ := pure_iff.1 hv
  exact ⟨h, [], Std.Refl.refl _, Std.Refl.refl _⟩

/-- What does not depend on the workspace has the same result both times. -/
theorem lift {o : Outcome α} {f : α → Encoding γ} {g : α → Encoding δ} (h : ∀ a, Parallel T (f a) (g a)) :
    Parallel T (liftM o >>= f) (liftM o >>= g) := by
  intro w a w' v b v' hw hv
  simp only [bind_iff, lift_iff] at hw hv
  obtain ⟨c, _, ⟨hc, rfl⟩, hw⟩ := hw
  obtain ⟨d, _, ⟨hd, rfl⟩, hv⟩ := hv
  obtain rfl : c = d := Except.ok.inj (hc.symm.trans hd)
  exact h c hw hv

theorem add (cs : List Value) : Parallel (fun _ _ ↦ True) (modify fun w ↦ { w with constraints := w.constraints ++ cs } : Encoding PUnit)
    (modify fun w ↦ { w with constraints := w.constraints ++ cs } : Encoding PUnit) := by
  intro w _ _ v _ _ hw hv
  obtain rfl := modify_iff.1 hw
  obtain rfl := modify_iff.1 hv
  exact ⟨trivial, cs, ⟨rfl, rfl, rfl⟩, ⟨rfl, rfl, rfl⟩⟩

theorem forIn {f : α → PUnit → Encoding (ForInStep PUnit)} (hf : ∀ a u, Parallel Eq (f a u) (f a u)) (l : List α) :
    Parallel Eq (ForIn.forIn l PUnit.unit f) (ForIn.forIn l PUnit.unit f) := by
  induction l with
  | nil =>
    rw [forIn_nil]
    exact pure rfl
  | cons a l ih =>
    rw [forIn_cons]
    refine (hf a _).bind fun s _ hs ↦ ?_
    subst hs
    cases s with
    | done u => exact pure rfl
    | yield u => exact ih

theorem mapM {f : α → Encoding γ} (hf : ∀ a, Parallel Eq (f a) (f a)) (l : List α) : Parallel Eq (l.mapM f) (l.mapM f) := by
  induction l with
  | nil =>
    rw [mapM_nil]
    exact pure rfl
  | cons a l ih =>
    rw [mapM_cons]
    exact (hf a).bind fun _ _ h ↦ ih.bind fun _ _ hs ↦ pure (by rw [h, hs])

theorem loadTables (schema : Value) (ts enums : List Value) :
    Parallel Eq (loadTables schema ts enums) (loadTables schema ts enums) := by
  have hid : Moves (Grows []) newTableId := fun _ ↦ .same rfl rfl rfl
  have hmake (t : Table) : Moves (Grows []) (makeTable t) := .makeTable (fun _ _ _ ↦ .same rfl rfl rfl) t
  induction ts generalizing enums with
  | nil => exact pure rfl
  | cons t ts ih =>
    exact (still hid hid).bind fun _ _ _ ↦ lift fun l ↦ (still Moves.get Moves.get).bind fun _ _ _ ↦
      (still (hmake _) (hmake _)).bind fun _ _ _ ↦ (add l.enums).bind fun _ _ _ ↦ ih l.enums

theorem keyConstraints (schema t : Value) :
    Parallel (fun _ _ ↦ True) (keyConstraints schema t) (keyConstraints schema t) := by
  refine lift fun _ ↦ lift fun name ↦ lift fun keys ↦ lift fun n ↦ ?_
  have hforeign : Parallel (fun _ _ ↦ True) (foreignConstraints schema t name) (foreignConstraints schema t name) := by
    refine lift fun _ ↦ lift fun _ ↦ (forIn (fun col _ ↦ ?_) _).bind fun _ _ _ ↦ pure trivial
    exact lift fun _ ↦ lift fun _ ↦ lift fun _ ↦ lift fun _ ↦ lift fun _ ↦ lift fun _ ↦ lift fun _ ↦ lift fun _ ↦
      (add _).bind fun _ _ _ ↦ pure rfl
  by_cases hn : n > 0
  · rw [if_pos hn]
    refine Parallel.bind (S := fun _ _ ↦ True) (lift fun _ ↦ (mapM (fun _ ↦ lift fun _ ↦ lift fun _ ↦ pure rfl) _).bind
      fun cs _ h ↦ ?_) fun _ _ _ ↦ hforeign
    subst h
    exact add _
  · rw [if_neg hn]
    exact hforeign

end Parallel

/-- The constraints that a schema implies do not depend on the workspace. -/
theorem loadSchema_grows {w w' v v' : Workspace} {u u' : Unit} (hw : Gives loadSchema w u w') (hv : Gives loadSchema v u' v')
    (hs : v.schema = w.schema) : ∃ cs, Grows cs w w' ∧ Grows cs v v' := by
  let load (schema : Value) : Encoding Unit := do
    let tables ← schema.members
    loadTables schema tables []
    for t in tables do
      keyConstraints schema t
  have hload : Parallel Eq (load w.schema) (load w.schema) := .lift fun ts ↦
    (Parallel.loadTables _ _ _).bind fun _ _ _ ↦
    (Parallel.forIn (fun t _ ↦ (Parallel.keyConstraints _ t).bind fun _ _ _ ↦ .pure rfl) ts).bind fun _ _ _ ↦ .pure rfl
  have hw : Gives (load w.schema) { w with extra := [] } u w' := hw
  have hv : Gives (load v.schema) { v with extra := [] } u' v' := hv
  obtain ⟨-, cs, h, h'⟩ := hload hw (hs ▸ hv)
  exact ⟨cs, ⟨h.constraints, h.schema, h.timeout⟩, ⟨h'.constraints, h'.schema.trans hs.symm, h'.timeout⟩⟩

section Clearing

variable {schema : Value} {constraints : List Value} {bound timeBudget sizes : Value} {w₀ w w' : Workspace}

/-- At the start the constraints are those given and those implied, and each clearing adds the implied ones. -/
theorem start_grows {u : Unit} (hw : Gives (start schema constraints bound timeBudget sizes) w₀ u w) :
    (w.schema = schema ∧ constraints <+: w.constraints ∧ w.formulas.timeout = timeBudget) ∧
      ∀ v v' u', v.schema = schema → Gives clear v u' v' → v'.schema = schema ∧
        v'.constraints = v.constraints ++ w.constraints.drop constraints.length ∧ v'.formulas.timeout = .int 120 := by
  simp only [start, bind_iff, modify_iff, set_iff] at hw
  obtain ⟨_, _, rfl, _, w₁, hload, _, _, rfl, hw⟩ := hw
  have hw := Grows.loadConstraints_moves.gives hw
  have hadded {cs : List Value} (h : w₁.constraints = constraints ++ cs) : w.constraints = constraints ++ cs := by
    rw [hw.constraints, append_nil]
    exact h
  obtain ⟨cs, h, -⟩ := loadSchema_grows hload hload rfl
  refine ⟨⟨hw.schema.trans h.schema, ⟨cs, (hadded h.constraints).symm⟩, hw.timeout.trans h.timeout⟩, fun v v' u' hs hv ↦ ?_⟩
  simp only [clear, bind_iff, modify_iff] at hv
  obtain ⟨_, _, rfl, _, v₁, hload', _, v₂, hv, rfl⟩ := hv
  obtain ⟨cs, h, h'⟩ := loadSchema_grows hload hload' hs
  have hv := Grows.loadConstraints_moves.gives hv
  refine ⟨hv.schema.trans (h'.schema.trans hs), ?_, hv.timeout.trans h'.timeout⟩
  rw [hadded h.constraints, drop_left]
  refine hv.constraints.trans ?_
  rw [append_nil]
  exact h'.constraints

/-- The workspace is cleared again and again. -/
def clears : Nat → Encoding Unit
  | 0 => return
  | n + 1 => do clears n; clear

theorem clears_grows (hstart : Gives (start schema constraints bound timeBudget sizes) w₀ () w) {n : Nat}
    (h : Gives (clears n) w () w') : w'.schema = schema ∧
      w'.constraints = w.constraints ++ (List.replicate n (w.constraints.drop constraints.length)).flatten ∧
      w'.formulas.timeout = if n = 0 then timeBudget else .int 120 := by
  obtain ⟨⟨hs, -, ht⟩, hclear⟩ := start_grows hstart
  induction n generalizing w' with
  | zero =>
    obtain ⟨-, rfl⟩ := pure_iff.1 h
    exact ⟨hs, by simp, ht⟩
  | succ n ih =>
    obtain ⟨_, v, hv, h⟩ := bind_iff.1 h
    obtain ⟨hvs, hvc, -⟩ := ih hv
    obtain ⟨hs, hc, ht⟩ := hclear v w' () hvs h
    exact ⟨hs, by rw [hc, hvc, replicate_succ', flatten_concat, append_assoc], ht⟩

/-- Each time a workspace is cleared, the constraints that its schema implies are added to those that are there. The
constraints and the time limit are those of the start only if it was not cleared yet, or if the schema implies none
and the time budget is the standard one. -/
theorem clears_restore_iff (hstart : Gives (start schema constraints bound timeBudget sizes) w₀ () w) {n : Nat}
    (hclears : Gives (clears n) w () w') :
    w'.constraints = w.constraints ++ (List.replicate n (w.constraints.drop constraints.length)).flatten ∧
      (w'.constraints = w.constraints ∧ w'.formulas.timeout = w.formulas.timeout ↔
        n = 0 ∨ w.constraints = constraints ∧ timeBudget = .int 120) := by
  obtain ⟨-, hc, ht⟩ := clears_grows hstart hclears
  obtain ⟨⟨-, ⟨cs, hcs⟩, hbudget⟩, -⟩ := start_grows hstart
  refine ⟨hc, ?_⟩
  rw [hc, ht, hbudget, ← hcs, drop_left]
  cases n with
  | zero => simp
  | succ n => simp +contextual [@eq_comm _ (Value.int 120)]

/-- A schema of one table `t` that has one column `a`, its key. -/
def keyedTable : Value :=
  .list [.object [("TableName", .str "t"), ("PKeys", .list [.object [("Name", .str "a"), ("Type", .str "int")]]),
    ("FKeys", .list []), ("Others", .list [])]]

def keyedTableLoaded : Workspace := (exec (start keyedTable [] (.int 1) (.int 60) .null) {}).2

/-- Its workspace is cleared twice. -/
theorem keyedTable_clears : ∃ w', Gives (clears 2) keyedTableLoaded () w' ∧ w'.constraints.length = 3 ∧
    ¬ (w'.constraints = keyedTableLoaded.constraints ∧ w'.formulas.timeout = keyedTableLoaded.formulas.timeout) := by
  have hstart : Gives (start keyedTable [] (.int 1) (.int 60) .null) {} () keyedTableLoaded :=
    .of_toOption (by decide +kernel)
  have hclears : Gives (clears 2) keyedTableLoaded () _ := .of_toOption (by decide +kernel)
  have hcount : keyedTableLoaded.constraints.length = 1 := by decide +kernel
  obtain ⟨hc, hiff⟩ := clears_restore_iff hstart hclears
  refine ⟨_, hclears, by simp [hc, hcount], fun h ↦ ?_⟩
  obtain h | ⟨h, -⟩ := hiff.1 h
  · cases h
  · rw [h] at hcount
    cases hcount

end Clearing

/-! ## Failures -/

namespace Verdict

open Inquiry

variable {m : Manner} {a b : Asking} {w : Workspace} {e : Fault} {nodes : List Node}

/-- What is left if queries cannot be encoded: a failure as the status, and the workspace that was there before. -/
def left (a : Asking) (failed : Workspace) : Asking :=
  { a with
    workspace := { a.workspace with
      messages := (exec (Workspace.note .error "failed") failed).2.messages, catalog := a.workspace.catalog.forget }
    report := { status := some .failed } }

theorem run_of_fails (h : exec (encodeQueries nodes) a.workspace = (.error e, w)) (hm : m.overdue = false)
    (goal : List Nat → Encoding Unit) (noted : Bool) :
    inquire (run m (task m nodes goal noted)) a = (.ok (), left a w) := by
  have hencode : inquire (guarded (encoding do
      let outputs ← encodeQueries nodes
      goal outputs
      return outputs)) { a with report := {} } = (.ok none,
        { a with workspace := (exec (Workspace.note .error "failed") w).2, report := { status := some .failed } }) := by
    unfold guarded
    rw [inquire_tryCatch, inquire_bind, inquire_encoding, exec_bind, h]
    rfl
  have htask : inquire (task m nodes goal noted) { a with report := {} } = (.ok (),
      { a with workspace := (exec (Workspace.note .error "failed") w).2, report := { status := some .failed } }) := by
    unfold task
    rw [inquire_bind, hencode]
    rfl
  have hrun : inquire (run m (task m nodes goal noted)) a = inquire (do
      tryCatch (task m nodes goal noted) fun _ ↦ return
      let messages := (← workspace).messages
      modify fun b ↦ { b with workspace := { a.workspace with messages, catalog := a.workspace.catalog.forget } })
      { a with report := {} } := by
    unfold run
    rw [hm]
    rfl
  rw [hrun, inquire_bind, inquire_tryCatch, htask]
  rfl

/-- Where queries cannot be encoded, a comparison answers that it failed, but a disambiguation fails itself. The
workspace is not cleared then. -/
theorem encoding_failure {queries : List String} (hread : inquire (readQueries queries) a = (.ok nodes, b))
    (h : exec (encodeQueries nodes) b.workspace = (.error e, w)) (hm : m.overdue = false) :
    (∀ tolerance, inquire (disambiguate m queries tolerance) a = (.error .absentKey, left b w)) ∧
      ∀ p q, queries = [p, q] →
        inquire (check m p q) a = (.ok ⟨none, none, { status := some .failed }⟩, left b w) := by
  refine ⟨fun tolerance ↦ ?_, fun p q hq ↦ ?_⟩
  · unfold disambiguate
    rw [inquire_bind, hread]
    dsimp only
    rw [inquire_bind, run_of_fails h hm]
    rfl
  · subst hq
    unfold check
    rw [inquire_bind, hread]
    dsimp only
    rw [inquire_bind, run_of_fails h hm]
    rfl

/-- A query is to be read that selects a column from a table that is not there. -/
def missingTable : Asking where
  workspace := singleTableLoaded
  library := { replies := [some (.object [("from", .str "u"), ("select", .object [("value", .str "a")])])] }

theorem missingTable_fails : ∃ b, inquire (disambiguate {} ["q"] (.int 1)) missingTable = (.error .absentKey, b) ∧
    b.report.status = some .failed := by
  have hfails : (inquire (readQueries ["q"]) missingTable).1.toOption.map (fun nodes ↦
      (exec (encodeQueries nodes) (inquire (readQueries ["q"]) missingTable).2.workspace).1.toOption.isNone) = some true := by
    decide +kernel
  rcases hread : inquire (readQueries ["q"]) missingTable with ⟨_ | nodes, b⟩ <;> rw [hread] at hfails
  · cases hfails
  · rcases h : exec (encodeQueries nodes) b.workspace with ⟨_ | _, w⟩
    · exact ⟨_, (encoding_failure hread h rfl).1 _, rfl⟩
    · simp [h, Except.toOption] at hfails

end Verdict

end QueryEquiv
