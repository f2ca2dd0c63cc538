import QueryEquiv.Proofs.Running
import QueryEquiv.Proofs.Tables
import QueryEquiv.Workspace.Load

/-!
# What loading a schema does to a workspace

The columns of a table are added one by one. The constraints of a schema are read off its tables. Beside codes of texts, conditions that are kept apart
and messages, nothing changes in the workspace, whether they can be read or not.
-/

namespace QueryEquiv

open Outcome List Workspace Moves

/-! ## Computations that move within a relation -/

namespace Moves

variable {α β : Type} {R : Workspace → Workspace → Prop} [Std.Refl R] [Trans R R R]

omit [Trans R R R] in
theorem throw {e : Fault} : Moves R (throw e : Encoding α) := fun w ↦ Std.Refl.refl w

omit [Trans R R R] in
theorem get : Moves R get := fun w ↦ Std.Refl.refl w

theorem foldlM {f : β → α → Encoding β} (hf : ∀ b a, Moves R (f b a)) (b : β) (l : List α) :
    Moves R (l.foldlM f b) := by
  induction l generalizing b with
  | nil =>
    rw [foldlM_nil]
    exact pure
  | cons a l ih =>
    rw [foldlM_cons]
    exact (hf b a).bind fun b ↦ ih b

theorem forIn {f : α → PUnit → Encoding (ForInStep PUnit)} (hf : ∀ a u, Moves R (f a u)) (l : List α) :
    Moves R (ForIn.forIn l PUnit.unit f) := by
  induction l with
  | nil =>
    rw [forIn_nil]
    exact pure
  | cons a l ih =>
    rw [forIn_cons]
    refine (hf a _).bind fun s ↦ ?_
    cases s with
    | done u => exact pure
    | yield u => exact ih

omit [Std.Refl R] [Trans R R R] in
theorem gives {x : Encoding α} {w w' : Workspace} {a : α} (h : Moves R x) (hg : Gives x w a w') : R w w' := by
  have hw := h w
  rwa [show exec x w = _ from hg] at hw

theorem read {x : Outcome α} {f : α → Encoding β} (hf : ∀ a, Moves R (f a)) : Moves R (liftM x >>= f) := lift.bind hf

theorem done {x : Encoding α} {f : α → β} (hx : Moves R x) : Moves R (x >>= fun a ↦ Pure.pure (f a)) :=
  hx.bind fun _ ↦ pure

/-- A computation that may be left out. -/
theorem optional {c : Prop} [Decidable c] {x : Encoding Unit} {f : Unit → Encoding α} (hx : Moves R x)
    (hf : ∀ u, Moves R (f u)) : Moves R (if c then x >>= f else f ()) := by
  split
  · exact hx.bind hf
  · exact hf ()

theorem makeTable (hR : ∀ w c db, R w { w with catalog := c, database := db }) (t : Table) : Moves R (makeTable t) := by
  have add (place : Nat) : Moves R (addTable place) := by
    intro w
    rcases hr : w.database.addTable place (w.catalog.table place) with ⟨r, db⟩
    have hadd : (exec (addTable place) w).2 = { w with database := db } := by
      unfold addTable
      rw [exec_bind, exec_get]
      dsimp only
      rw [hr]
      cases r <;> rfl
    rw [hadd]
    exact hR w w.catalog db
  exact bind (fun w ↦ hR w _ w.database) fun place ↦ (add place).bind fun _ ↦ .pure

end Moves

/-- A property goes on to hold. -/
def Preserves (P : Workspace → Prop) (w v : Workspace) : Prop := P w → P v

instance (P : Workspace → Prop) : Std.Refl (Preserves P) := ⟨fun _ ↦ id⟩

instance (P : Workspace → Prop) : Trans (Preserves P) (Preserves P) (Preserves P) := ⟨fun h h' hw ↦ h' (h hw)⟩

theorem Moves.keeps {α : Type} {P : Workspace → Prop} {x : Encoding α} (h : Moves (Preserves P) x) :
    Guards P x := fun _ _ _ hw hg ↦ ⟨h.gives hg hw, trivial⟩

/-! ## Columns -/

theorem Outcome.foldlM_holds {α β : Type} {f : β → α → Outcome β} {Q : β → Prop} {l : List α}
    (hf : ∀ a ∈ l, ∀ b b', f b a = .ok b' → Q b → Q b') {b b' : β} (h : l.foldlM f b = .ok b') (hb : Q b) : Q b' := by
  induction l generalizing b with
  | nil =>
    obtain rfl := pure_ok_iff.1 h
    exact hb
  | cons a l ih =>
    rw [foldlM_cons, bind_ok_iff] at h
    obtain ⟨c, hc, h⟩ := h
    rw [forall_mem_cons] at hf
    exact ih hf.2 h (hf.1 b c hc hb)

theorem lowered_ok_iff {v : Value} {s : String} : lowered v = .ok s ↔ ∃ t, v = .str t ∧ s = Text.lower t := by
  cases v <;> simp [lowered, eq_comm]

def columnType (type : Option String) : Value := if type == some "enum" then .str "varchar" else type.elim .null .str

def Workspace.Loading.column (l : Loading) (name : String) (type : Option String) : Column :=
  { id := l.columns.length
    name := .str name
    type := columnType type
    table := .str l.name
    home := [Text.lower l.name] }

/-- A column is added behind the others, unless it is enumerated and nothing is listed for it. -/
theorem add_ok_iff {l l' : Loading} {name : String} {type : Option String} {listed : Outcome (List String)} :
    l.add name type listed = .ok l' ↔ ∃ enums, (if type == some "enum" then ∃ vs, listed = .ok vs ∧ enums = l.enums ++
          [.object [("enum", .list [.str s!"{l.name}.{name}", .list (vs.map .str)])]] else enums = l.enums) ∧
        l' = { l with columns := l.columns ++ [l.column name type], enums } := by
  unfold Loading.add Loading.column columnType
  by_cases h : (type == some "enum") = true
  · simp only [h, if_true, bind_ok_iff]
    constructor
    · rintro ⟨vs, hvs, _, ⟨⟩, _, ⟨⟩, ⟨⟩⟩
      exact ⟨_, ⟨vs, hvs, rfl⟩, rfl⟩
    · rintro ⟨_, ⟨vs, hvs, rfl⟩, rfl⟩
      exact ⟨vs, hvs, _, rfl, _, rfl, rfl⟩
  · simp only [h, Bool.false_eq_true, if_false]
    cases type <;> exact ⟨fun h ↦ ⟨_, rfl, (Except.ok.inj h).symm⟩, by rintro ⟨_, rfl, rfl⟩; rfl⟩

/-- Columns and constraints are added behind those that are there. -/
structure Workspace.Loading.Extends (l l' : Loading) : Prop where
  name : l'.name = l.name
  columns : l.columns <+: l'.columns
  enums : l.enums <+: l'.enums

theorem Workspace.Loading.Extends.refl (l : Loading) : l.Extends l := ⟨rfl, prefix_rfl, prefix_rfl⟩

theorem Workspace.Loading.Extends.trans {l l' l'' : Loading} (h : l.Extends l') (h' : l'.Extends l'') : l.Extends l'' :=
  ⟨h'.name.trans h.name, h.columns.trans h'.columns, h.enums.trans h'.enums⟩

theorem add_extends {l l' : Loading} {name : String} {type : Option String} {listed : Outcome (List String)}
    (h : l.add name type listed = .ok l') : l.Extends l' := by
  obtain ⟨enums, henums, rfl⟩ := add_ok_iff.1 h
  refine ⟨rfl, prefix_append _ _, ?_⟩
  split at henums
  · obtain ⟨vs, -, rfl⟩ := henums
    exact prefix_append _ _
  · rw [henums]

/-- The columns of a table of the schema are added one by one, under names in lower case. -/
theorem loadColumns_induct {schema t : Value} {enums : List Value} {l : Loading}
    (h : loadColumns schema t enums = .ok l) :
    ∃ name, (do lowered (← t.entry "TableName")) = Except.ok (ε := Fault) name ∧ ∀ J : Loading → Prop,
      (∀ l s type listed l', Loading.add l (Text.lower s) type listed = .ok l' → J l → J l') → J { name, enums } → J l := by
  simp only [loadColumns, bind_ok_iff] at h
  obtain ⟨v, hv, name, hname, _, -, _, -, l₁, h₁, _, -, _, -, l₂, h₂, _, -, _, -, h₃⟩ := h
  refine ⟨name, bind_ok_iff.2 ⟨v, hv, hname⟩, fun J hadd hfirst ↦ ?_⟩
  have typed {l l' : Loading} {v : Value} {name : String} {col : Value} (hname : lowered v = .ok name)
      (h : l.addTyped name col = .ok l') (hl : J l) : J l' := by
    simp only [Loading.addTyped, bind_ok_iff] at h
    obtain ⟨_, -, h⟩ := h
    obtain ⟨s, -, rfl⟩ := lowered_ok_iff.1 hname
    exact hadd _ _ _ _ _ h hl
  refine foldlM_holds (fun c _ l l' h hl ↦ ?_) h₃ (foldlM_holds (fun c _ l l' h hl ↦ ?_) h₂
    (foldlM_holds (fun c _ l l' h hl ↦ ?_) h₁ hfirst))
  · simp only [Loading.addOther, bind_ok_iff] at h
    obtain ⟨_, -, _, hname, h⟩ := h
    split at h
    · obtain rfl := pure_ok_iff.1 h
      exact hl
    · exact typed hname h hl
  · simp only [Loading.addForeign, bind_ok_iff] at h
    obtain ⟨_, -, _, hname, h⟩ := h
    split at h
    · obtain rfl := pure_ok_iff.1 h
      exact hl
    · simp only [bind_ok_iff] at h
      obtain ⟨_, -, _, -, _, -, _, -, h⟩ := h
      obtain ⟨s, -, rfl⟩ := lowered_ok_iff.1 hname
      exact hadd _ _ _ _ _ h hl
  · simp only [Loading.addKey, bind_ok_iff] at h
    obtain ⟨_, -, _, hname, h⟩ := h
    exact typed hname h hl

/-! ## Constraints -/

/-- A relation that does not depend on codes, messages and the conditions that are kept apart. -/
structure Lenient (R : Workspace → Workspace → Prop) : Prop where
  codes : ∀ w c, R w { w with codes := c }
  extra : ∀ w ts, R w { w with extra := ts }
  messages : ∀ w ms, R w { w with messages := ms }

namespace Lenient

open Integrity

variable {R : Workspace → Workspace → Prop} [Std.Refl R] [Trans R R R] (L : Lenient R)

theorem tableNamed_moves (name : Value) {α : Type} {f : Table → Encoding α} (hf : ∀ t, Moves R (f t)) :
    Moves R (do f (← table (← findTable name))) := by
  have find : Moves R (findTable name) := get.bind fun _ ↦ .read fun _ ↦ .lift
  exact find.bind fun _ ↦ (get.bind fun _ ↦ .pure).bind fun t ↦ hf t

theorem encodeKey_moves (c : Value) (kind : String) : Moves R (encodeKey c kind) :=
  .read fun _ ↦ .read fun _ ↦ .read fun _ ↦ tableNamed_moves _ fun _ ↦
    .read fun _ ↦ (mapM (fun _ ↦ .read fun _ ↦ .read fun _ ↦ .pure) _).bind fun _ ↦
    .read fun _ ↦ .pure

theorem encodeComparison_moves (c : Value) (kind : String) (op : Comparison) : Moves R (encodeComparison c kind op) := by
  refine .read fun _ ↦ .read fun right ↦ .read fun _ ↦ .read fun _ ↦ ?_
  split
  · refine .read fun _ ↦ tableNamed_moves _ fun t ↦ tableNamed_moves _ fun u ↦ .optional .throw fun _ ↦
      (foldlM (fun _ _ ↦ .read fun _ ↦ .read fun _ ↦ .pure) _ _).bind fun found ↦ ?_
    split
    · exact .read fun _ ↦ .pure
    · exact .throw
  · exact tableNamed_moves _ fun _ ↦ .read fun _ ↦ .pure

theorem encodeDomain_moves (c : Value) : Moves R (encodeDomain c) :=
  .read fun _ ↦ .read fun _ ↦ .read fun _ ↦ .read fun _ ↦
    .read fun _ ↦ tableNamed_moves _ fun _ ↦ .read fun _ ↦ .pure

theorem encodeNotNull_moves (c : Value) : Moves R (encodeNotNull c) :=
  .read fun _ ↦ .read fun _ ↦ tableNamed_moves _ fun _ ↦ .read fun _ ↦ .pure

include L

omit [Std.Refl R] [Trans R R R] in
theorem code_moves (v : Value) : Moves R (code v) := fun w ↦ L.codes w _

theorem coded_moves (c : Value) : Moves R (coded c) := by
  unfold coded
  split
  · exact (L.code_moves _).bind fun _ ↦ .pure
  · exact .pure

theorem encodeEnum_moves (c : Value) : Moves R (encodeEnum c) :=
  .read fun _ ↦ .read fun _ ↦ .read fun _ ↦ .read fun _ ↦
    .read fun _ ↦ (mapM L.coded_moves _).bind fun _ ↦ tableNamed_moves _ fun _ ↦
    .read fun _ ↦ .pure

theorem encodeInclusion_moves (c : Value) : Moves R (encodeInclusion c) := by
  refine .read fun _ ↦ .read fun _ ↦ .read fun _ ↦ .read fun _ ↦
    .read fun _ ↦ .read fun _ ↦
    (mapM (fun _ ↦ .read fun _ ↦ .read fun _ ↦ L.coded_moves _) _).bind fun _ ↦
    tableNamed_moves _ fun t ↦ .read fun found ↦ .read fun rows ↦ ?_
  cases found with
  | none =>
    dsimp only
    split
    · exact .pure
    · exact .throw
  | some column => exact .pure

theorem encodeForeignKey_moves (c : Value) : Moves R (encodeForeignKey c) := by
  refine .read fun _ ↦ .read fun right ↦ .optional .throw fun _ ↦ .read fun _ ↦
    .read fun _ ↦ .read fun _ ↦ tableNamed_moves _ fun _ ↦ tableNamed_moves _ fun _ ↦
    .read fun _ ↦ .read fun _ ↦ bind (fun w ↦ L.extra w _) fun _ ↦
    .read fun _ ↦ .read fun _ ↦ .pure

theorem encodeOne_moves (c : Value) : Moves R (encodeOne c) := by
  have unknown : Moves R
      (do
        note .warning s!"{c.text} is not implemented"
        return [] : Encoding (List Term)) := bind (fun w ↦ L.messages w _) fun _ ↦ .pure
  refine .read fun kind ↦ ?_
  split
  · split
    · exact (encodeKey_moves _ _).done
    · exact (encodeKey_moves _ _).done
    · exact (L.encodeForeignKey_moves _).done
    · exact (L.encodeEnum_moves _).done
    iterate 5 exact (encodeComparison_moves _ _ _).done
    · exact (encodeDomain_moves _).done
    · exact (L.encodeInclusion_moves _).done
    · exact (encodeNotNull_moves _).done
    · exact unknown
  · exact unknown

theorem encode_moves (cs : List Value) : Moves R (Integrity.encode cs) :=
  (mapM L.encodeOne_moves cs).bind fun _ ↦ .pure

omit L in
theorem keyConstraints_moves (hR : ∀ w cs, R w { w with constraints := cs }) (schema t : Value) :
    Moves R (keyConstraints schema t) := by
  refine .read fun _ ↦ .read fun _ ↦ .read fun _ ↦ .read fun _ ↦
    .optional ?_ fun _ ↦ ?_
  · exact .read fun _ ↦ (mapM (fun _ ↦ .read fun _ ↦ .read fun _ ↦ .pure) _).bind
      fun _ ↦ fun w ↦ hR w _
  · exact .read fun _ ↦ .read fun _ ↦
      (forIn (fun _ _ ↦ .read fun _ ↦ .read fun _ ↦ .read fun _ ↦
        .read fun _ ↦ .read fun _ ↦ .read fun _ ↦ .read fun _ ↦
        .read fun _ ↦ bind (fun w ↦ hR w _) fun _ ↦ .pure) _).bind fun _ ↦ .pure

end Lenient

/-! ## The schema -/

/-- The formulas and what is known of clauses are the same. -/
def Unencoded (w v : Workspace) : Prop :=
  v.formulas = w.formulas ∧ v.clauses = w.clauses ∧ v.nextTag = w.nextTag ∧ v.settled = w.settled

namespace Unencoded

instance : Std.Refl Unencoded := ⟨fun _ ↦ ⟨rfl, rfl, rfl, rfl⟩⟩

instance : Trans Unencoded Unencoded Unencoded :=
  ⟨fun h h' ↦ ⟨h'.1.trans h.1, h'.2.1.trans h.2.1, h'.2.2.1.trans h.2.2.1, h'.2.2.2.trans h.2.2.2⟩⟩

theorem lenient : Lenient Unencoded where
  codes _ _ := ⟨rfl, rfl, rfl, rfl⟩
  extra _ _ := ⟨rfl, rfl, rfl, rfl⟩
  messages _ _ := ⟨rfl, rfl, rfl, rfl⟩

theorem loadTables_moves (schema : Value) (ts enums : List Value) : Moves Unencoded (loadTables schema ts enums) := by
  induction ts generalizing enums with
  | nil => exact .pure
  | cons t ts ih =>
    exact Moves.bind (fun _ ↦ ⟨rfl, rfl, rfl, rfl⟩) fun _ ↦ .read fun _ ↦ Moves.get.bind fun _ ↦
      (makeTable (fun _ _ _ ↦ ⟨rfl, rfl, rfl, rfl⟩) _).bind fun _ ↦ bind (fun _ ↦ ⟨rfl, rfl, rfl, rfl⟩) fun _ ↦ ih _

theorem loadSchema_moves : Moves Unencoded loadSchema :=
  Moves.bind (fun _ ↦ ⟨rfl, rfl, rfl, rfl⟩) fun _ ↦ Moves.get.bind fun _ ↦ .read fun _ ↦
    (loadTables_moves _ _ _).bind fun _ ↦
    (forIn (fun t _ ↦ (Lenient.keyConstraints_moves (fun _ _ ↦ ⟨rfl, rfl, rfl, rfl⟩) _ t).bind fun _ ↦ .pure) _).bind fun _ ↦ .pure

end Unencoded

end QueryEquiv
