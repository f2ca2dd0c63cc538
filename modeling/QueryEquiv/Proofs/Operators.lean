import QueryEquiv.Proofs.Reading

/-!
# What operators read

An operator goes through the rows of its input and reads expressions and cells there. Like a reader it
only notes things down while it does so.
-/

namespace QueryEquiv

open Keeps Outcome List Workspace Expression Operator Project

variable {targets : List Node} {ts : List (Target × Nat)}

variable {P : Workspace → Prop} {N : Node → Prop}

theorem textOf_keeps (n : Node) : Guards P (textOf n) :=
  get.bind fun _ _ ↦ .lift fun _ _ ↦ trivial

theorem plainText_keeps (n : Node) : Guards P (plainText n) := by
  unfold plainText
  split
  · exact (outcome _).bind fun _ _ ↦ textOf_keeps _
  · exact (outcome _).bind fun _ _ ↦ textOf_keeps _
  · exact (outcome _).bind fun _ _ ↦ textOf_keeps _
  · exact textOf_keeps _

/-- Whether a target is taken for an aggregate: it is an expression with a call of one somewhere in its text. -/
def Workspace.callsAggregate (w : Workspace) (target : Node) : Bool :=
  target.isExpression && (target.complete w.completed).text.toOption.any Project.hasAggregateCall

namespace Operator

/-! ## Targets -/

section Targets

theorem mem_expandStar (hcolumn : ∀ name byname, N (.column name byname)) {columns : List Column} {n m : Node}
    {ns : List Node} (hn : N n) (h : expandStar columns n = .ok ns) (hm : m ∈ ns) : N m := by
  unfold expandStar at h
  split at h
  · split at h
    · cases h
      obtain ⟨c, -, rfl⟩ := mem_map.1 hm
      exact hcolumn _ _
    · rw [bind_ok_iff] at h
      obtain ⟨b, -, h⟩ := h
      split at h
      · simp only [bind_ok_iff, pure_ok_iff] at h
        obtain ⟨_, -, own, -, rfl⟩ := h
        obtain ⟨c, -, rfl⟩ := mem_map.1 hm
        exact hcolumn _ _
      · rw [pure_ok_iff] at h
        subst h
        rw [mem_singleton] at hm
        subst hm
        exact hcolumn _ _
  · cases h
    rw [mem_singleton] at hm
    subst hm
    exact hn

variable {w : Workspace}

theorem targetColumn_keeps (source : Table) (id : Nat) (target : Node) :
    Keeps (· = w) (targetColumn source id target) fun c ↦
      c.1.id = id ∧ (∀ e, c.2.1 = .computed e → e = target) ∧ c.2.2 = w.callsAggregate target := by
  have text : Keeps (· = w) (textOf target) fun s ↦ (target.complete w.completed).text = .ok s :=
    get.bind fun v hv ↦ .lift fun s hs ↦ hv ▸ hs
  unfold targetColumn
  split
  · refine (outcome _).bind fun parts _ ↦ (outcome _).bind fun found _ ↦ ?_
    split
    · exact .throw
    · refine .pure ⟨?_, by simp, rfl⟩
      dsimp only
      split <;> rfl
  · split
    · rename_i hexpr
      have flag {s : String} (hs : (target.complete w.completed).text = .ok s) :
          hasAggregateCall s = w.callsAggregate target := by
        simp [Workspace.callsAggregate, hexpr, hs, Except.toOption]
      refine (aliasOf_keeps _).bind fun byname _ ↦ ?_
      split
      · exact (textOf_keeps _).bind fun _ _ ↦ text.bind fun s hs ↦ .pure ⟨rfl, by simp, flag hs⟩
      · exact (plainText_keeps _).bind fun _ _ ↦ text.bind fun s hs ↦ .pure ⟨rfl, by simp, flag hs⟩
    · rename_i hexpr
      have flag : false = w.callsAggregate target := by simp [Workspace.callsAggregate, hexpr]
      split
      · refine (aliasOf_keeps _).bind fun byname _ ↦ ?_
        split
        · exact (textOf_keeps _).bind fun _ _ ↦ .pure ⟨rfl, by simp, flag⟩
        · exact .pure ⟨rfl, by simp, flag⟩
      · exact (textOf_keeps _).bind fun _ _ ↦ .throw

theorem targetColumns_keeps (source : Table) (id : Nat) (targets : List Node) :
    Keeps (· = w) (targetColumns source id targets) fun cs ↦
      cs.map (·.1.id) = (List.range' id cs.length).map Int.ofNat ∧
        (∀ c ∈ cs, ∀ e, c.2.1 = .computed e → e ∈ targets) ∧ cs.map (·.2.2) = targets.map w.callsAggregate := by
  induction targets generalizing id with
  | nil => exact .pure ⟨rfl, by simp, rfl⟩
  | cons t ts ih =>
    refine (targetColumn_keeps source id t).bind fun c ⟨hid, hc, hflag⟩ ↦
      (ih (id + 1)).bind fun cs ⟨hids, hcs, hflags⟩ ↦ .pure ⟨?_, ?_, ?_⟩
    · rw [map_cons, hid, hids, length_cons, range'_succ, map_cons]
      rfl
    · rw [forall_mem_cons]
      exact ⟨fun e he ↦ hc e he ▸ mem_cons_self, fun c hmem e he ↦ mem_cons_of_mem _ (hcs c hmem e he)⟩
    · rw [map_cons, map_cons, hflag, hflags]

/-- The targets are read off copies, where stars are spelled out. -/
theorem readTargets_keeps (hcolumn : ∀ name byname, N (.column name byname)) (source : Table)
    (hcopied : Keeps P (copied targets) fun ns ↦ ∀ n ∈ ns, N n) : Keeps P (readTargets source targets)
      fun cs ↦ ∀ e i, (Target.computed e, i) ∈ (cs.map (·.2.1)).zipIdx → N e :=
  hcopied.bind fun _ hns ↦
    (flatMapM fun n hn ↦ .lift fun _ hms _ hm ↦ mem_expandStar hcolumn (hns n hn) hms hm).bind
      fun ns h w cs w' hw hg ↦ by
        obtain ⟨rfl, -, hcs, -⟩ := targetColumns_keeps source 0 ns rfl hg
        refine ⟨hw, fun e i he ↦ ?_⟩
        obtain ⟨c, hc, hce⟩ := mem_map.1 (fst_mem_of_mem_zipIdx he)
        exact h e (hcs c hc e hce)

end Targets

section Copies

variable (q : Quiet P)
include q

theorem cell?_keeps (t r c : Int) : Guards P (cell? t r c) := (q.cell?_steady t r c).keeps

theorem copyOf_keeps (source target : Int × Int × Int) : Guards P (copyOf source target) := by
  refine (cell?_keeps q _ _ _).bind fun s _ ↦ (cell?_keeps q _ _ _).bind fun t _ ↦ ?_
  split
  · exact .pure trivial
  · exact .throw

theorem copyRow_keeps (source target : Int) (i j : Nat) (columns : List Int) :
    Guards P (copyRow source target i j columns) :=
  .each fun _ _ ↦ copyOf_keeps q _ _

theorem compactionCopies_keeps (full cut : Table) (rows slots : Nat) :
    Guards P (compactionCopies full cut rows slots) :=
  .each fun _ _ ↦ .each fun _ _ ↦ copyRow_keeps q _ _ _ _ _

theorem pairCopies_keeps (s : Join.Sides) (i j row : Nat) : Guards P (s.pairCopies i j row) :=
  .each fun _ _ ↦ copyOf_keeps q _ _

theorem extraCopies_keeps (s : Join.Sides) (side : Int) (i row : Nat) : Guards P (s.extraCopies side i row) := by
  refine .each fun a _ ↦ (cell?_keeps q _ _ _).bind fun target _ ↦ ?_
  split
  · exact copyOf_keeps q _ _
  · split
    · exact .pure trivial
    · exact .throw

theorem takeOver_keeps (output : Int) (input start : Nat) : Guards P (Union.takeOver output input start) :=
  (table_keeps input).bind fun _ _ ↦ (outcome _).bind fun _ _ ↦ .each fun _ _ ↦
    (each fun _ _ ↦ copyOf_keeps q _ _).bind fun _ _ ↦ .pure trivial

theorem takeOverAll_keeps (output : Int) (inputs : List Nat) (start : Nat) :
    Guards P (Union.takeOverAll output start inputs) := by
  induction inputs generalizing start with
  | nil => exact .pure trivial
  | cons input inputs ih =>
    exact (takeOver_keeps q output input start).bind fun _ _ ↦ (ih _).bind fun _ _ ↦ .pure trivial

theorem extras_keeps (s : Join.Sides) (joined : List JoinedPair) (rows : List Nat) :
    Guards P (Join.extras s joined rows) := by
  induction rows with
  | nil => exact .pure trivial
  | cons row rows ih =>
    exact (extraCopies_keeps q s _ row _).bind fun _ _ ↦ ih.bind fun _ _ ↦ .pure trivial

end Copies

section Readings

variable (q : Quiet P) (hN : Hereditary N) {sub : Subquery}
  (hsub : ∀ o n, N n → Guards P (sub o n))
include q hN hsub

theorem readRows_keeps (input : Nat) (output : Int) {predicate : Node} (hp : N predicate)
    (outer : Option Int) (reader : Nat) (rows : List Nat) :
    Keeps P (Filter.readRows sub input output predicate outer reader rows) fun fs ↦ fs.length = rows.length := by
  induction rows with
  | nil => exact .pure rfl
  | cons row rows ih =>
    exact (truthAtRow_keeps q .always hN hsub input row outer reader hp).bind fun r _ ↦
      (table_keeps input).bind fun t _ ↦ (copyRow_keeps q _ _ _ _ _).bind fun _ _ ↦
      ih.bind fun _ h ↦ .pure (congrArg (· + 1) h)

theorem pairTruth_keeps (left right : Nat) (i j : Int) (reader : Nat) {n : Node} (hn : N n) :
    Guards P (truthAtPair sub left right i j reader n) :=
  (truthAtPair_keeps q .always hN hsub left right i j reader hn).imp fun _ _ ↦ trivial

/-- A join reads its condition at each pair of rows, if it has one. -/
theorem readCondition_keeps (left right reader : Nat) {cond : Node} (hc : N cond) (conditional : Bool)
    (f : Nat → Nat → Encoding Reading) (hf : (if conditional = true then
      some fun (i j : Nat) ↦ truthAtPair sub left right i j reader cond else none) = some f) (i j : Nat) :
    Guards P (f i j) := by
  split at hf
  · cases hf
    exact pairTruth_keeps q hN hsub left right i j reader hc
  · cases hf

omit hN hsub in
theorem readPairs_keeps (s : Join.Sides) {read : Option (Nat → Nat → Encoding Reading)}
    (hread : ∀ f, read = some f → ∀ i j, Guards P (f i j)) (pairs : List (Nat × Nat)) (row : Nat) :
    Keeps P (Join.readPairs s read row pairs) fun js ↦ js.length = pairs.length := by
  induction pairs generalizing row with
  | nil => exact .pure rfl
  | cons pair pairs ih =>
    obtain ⟨i, j⟩ := pair
    have go (o : Option Reading) : Keeps P
        (do
          let copies ← s.pairCopies i j row
          return ⟨i, j, o, copies⟩ :: (← Join.readPairs s read (row + 1) pairs))
        fun js ↦ js.length = pairs.length + 1 :=
      (pairCopies_keeps q s i j row).bind fun _ _ ↦ (ih _).bind fun _ h ↦ .pure (congrArg (· + 1) h)
    cases read with
    | none => exact go none
    | some f => exact (hread f rfl i j).bind fun r _ ↦ go (some r)

theorem rowMapping_keeps (input : Nat) (output : Int) (reader row : Nat)
    (ht : ∀ e i, (Target.computed e, i) ∈ ts → N e) : Guards P (rowMapping sub input output reader row ts) := by
  induction ts with
  | nil => exact .pure trivial
  | cons target ts ih =>
    obtain ⟨target, i⟩ := target
    have rest := ih fun e i h ↦ ht e i (mem_cons_of_mem _ h)
    refine (table_keeps input).bind fun t _ ↦ (cell?_keeps q _ _ _).bind fun out _ ↦ ?_
    cases target with
    | column c =>
      refine (cell?_keeps q _ _ _).bind fun source _ ↦ ?_
      dsimp only
      split
      · exact rest.bind fun _ _ ↦ .pure trivial
      · exact .throw
    | computed e =>
      refine (numberAtRow_keeps q .always hN hsub input row none (by simp) reader
        (ht e i mem_cons_self)).bind fun r _ ↦ ?_
      dsimp only
      split
      · exact rest.bind fun _ _ ↦ .pure trivial
      · exact .throw

theorem singleMapping_keeps (input : Nat) (output : Int) (reader rows : Nat)
    (ht : ∀ e i, (Target.computed e, i) ∈ ts → N e) : Guards P (singleMapping sub input output reader rows ts) := by
  induction ts with
  | nil => exact .pure trivial
  | cons target ts ih =>
    obtain ⟨target, i⟩ := target
    have rest := ih fun e i h ↦ ht e i (mem_cons_of_mem _ h)
    refine (table_keeps input).bind fun t _ ↦ (cell?_keeps q _ _ _).bind fun out _ ↦ ?_
    cases target with
    | column c =>
      exact (each fun row _ ↦ (copyOf_keeps q _ _).bind fun _ _ ↦ .pure trivial).bind fun _ _ ↦
        rest.bind fun _ _ ↦ .pure trivial
    | computed e =>
      refine (numberAtRow_keeps q .always hN hsub input 0 none (by simp) reader
        (ht e i mem_cons_self)).bind fun r _ ↦ ?_
      dsimp only
      split
      · exact rest.bind fun _ _ ↦ .pure trivial
      · exact .throw

theorem groupMapping_keeps (g : GroupOfRows) (hg : ∀ ts, g.targets = some ts → ∀ t ∈ ts, N t) (groups : Int)
    (group memo rows : Nat) (ht : ∀ e i, (Target.computed e, i) ∈ ts → N e) :
    Guards P (groupMapping sub g groups group memo rows ts) := by
  induction ts with
  | nil => exact .pure trivial
  | cons target ts ih =>
    obtain ⟨target, i⟩ := target
    have rest := ih fun e i h ↦ ht e i (mem_cons_of_mem _ h)
    refine (table_keeps g.members).bind fun t _ ↦ (cell?_keeps q _ _ _).bind fun out _ ↦ ?_
    cases target with
    | column c =>
      exact (each fun row _ ↦ (copyOf_keeps q _ _).bind fun _ _ ↦ .pure trivial).bind fun _ _ ↦
        rest.bind fun _ _ ↦ .pure trivial
    | computed e =>
      refine (inGroup_keeps q .always hN hsub (fun _ _ _ ↦ trivial) g hg false memo
        (ht e i mem_cons_self)).bind fun r _ ↦ ?_
      dsimp only
      split
      · exact rest.bind fun _ _ ↦ .pure trivial
      · exact .throw

/-! ## Groups -/

omit q hN hsub in
theorem mem_of_atPosition {α : Type} {xs : List α} {i : Int} {a : α}
    (h : Table.atPosition xs i = .ok a) : a ∈ xs := by
  unfold Table.atPosition at h
  dsimp only at h
  generalize (if i < 0 then i + (xs.length : Int) else i) = j at h
  split at h
  · cases h
  · split at h
    · cases h
      exact mem_of_getElem? (by assumption)
    · cases h

omit q hN hsub in
theorem keyOf_keeps (ht : ∀ t ∈ targets, N t) {k : Node} (hk : N k) : Keeps P (GroupBy.keyOf targets k) N := by
  unfold GroupBy.keyOf
  split
  · split
    · exact .pure hk
    · refine (outcome _).bind fun v _ ↦ ?_
      split
      · exact .lift fun a ha ↦ ht a (mem_of_atPosition ha)
      · exact .throw
  · exact .pure hk

theorem readKeys_keeps {p : Term → Prop} (hp : Permits p N) (input : Nat) (ht : ∀ t ∈ targets, N t) (reader row : Nat)
    {keys : List Node} (hk : ∀ k ∈ keys, N k) :
    Keeps P (GroupBy.readKeys sub input targets reader row keys) fun rs ↦ ∀ r ∈ rs, r.Leaves p := by
  induction keys with
  | nil => exact .pure (by simp)
  | cons k keys ih =>
    rw [forall_mem_cons] at hk
    refine (keyOf_keeps ht hk.1).bind fun key hkey ↦
      (numberAtRow_keeps q hp hN hsub input row none (by simpa using ht) reader hkey).bind fun r hr ↦
      (ih hk.2).bind fun rest hrest ↦ .pure ?_
    rw [forall_mem_cons]
    exact ⟨hr, hrest⟩

/-! ## Sorting -/

omit hN hsub in
theorem indexedCell_keeps (input : Int) (row : Nat) (position : Value) :
    Guards P (OrderBy.indexedCell input row position) := by
  refine (outcome _).bind fun v _ ↦ ?_
  split
  · exact cell?_keeps q _ _ _
  · exact .throw

theorem readPair_keeps (input reader row other : Nat) {key : Node} (hk : N key) :
    Guards P (OrderBy.readPair sub input reader row other key) := by
  refine (table_keeps input).bind fun t _ ↦ ?_
  split
  · exact .pure trivial
  · refine (indexedCell_keeps q _ _ _).bind fun a _ ↦ ?_
    split
    · exact .throw
    · refine (indexedCell_keeps q _ _ _).bind fun b _ ↦ ?_
      split
      · exact .throw
      · exact .pure trivial
  · exact (numberAtRow_keeps q .always hN hsub input row none (by simp) reader hk).bind fun a _ ↦
      (numberAtRow_keeps q .always hN hsub input other none (by simp) reader hk).bind fun b _ ↦ .pure trivial

theorem sortPairs_keeps (input : Nat) (orders : List Value) (reader row other : Nat)
    {keys : List (Node × Nat)} (hk : ∀ k ∈ keys, N k.1) :
    Guards P (OrderBy.readPairs sub input orders reader row other keys) := by
  induction keys with
  | nil => exact .pure trivial
  | cons k keys ih =>
    rw [forall_mem_cons] at hk
    obtain ⟨key, i⟩ := k
    refine (readPair_keeps q hN hsub input reader row other hk.1).bind fun o _ ↦ ?_
    split
    · exact ih hk.2
    · exact (outcome _).bind fun _ _ ↦ (ih hk.2).bind fun _ _ ↦ .pure trivial

theorem caseAt_keeps (input : Nat) (output : Int) {keys : List (Node × Nat)} (hk : ∀ k ∈ keys, N k.1)
    (orders : List Value) (reader rows row position : Nat) :
    Guards P (OrderBy.caseAt sub input output keys orders reader rows row position) := by
  refine (table_keeps input).bind fun t _ ↦ ?_
  split
  · exact .pure trivial
  · exact (each fun other _ ↦ (sortPairs_keeps q hN hsub input orders reader row other hk).bind
      fun _ _ ↦ .pure trivial).bind fun _ _ ↦ (copyRow_keeps q _ _ _ _ _).bind fun _ _ ↦ .pure trivial

end Readings

/-! ## Matchings -/

section Matchings

theorem limit_keeps (v : Option Value) : Guards P (Matching.limit v) := by
  unfold Matching.limit
  split
  · exact .pure trivial
  · exact .throw

theorem tooMany_keeps (mode : Matching.Mode) (l r : Nat) (b : Matching.Branch) :
    Guards P (Matching.tooMany mode l r b) := by
  have exceeds (n : Nat) : Guards P
      (do
        let k ← Matching.limit mode.limits.rows
        (Value.int n).compare .gt k : Encoding Bool) :=
    (limit_keeps _).bind fun _ _ ↦ .lift fun _ _ ↦ trivial
  unfold Matching.tooMany
  split
  · refine (exceeds _).bind fun b _ ↦ ?_
    split
    · exact .pure trivial
    · exact exceeds _
  · exact exceeds _

variable (q : Quiet P) (s : Join.Sides) {read : Nat → Nat → Encoding Reading}
  (hread : ∀ i j, Guards P (read i j))
include q

theorem addUnpaired_keeps (side : Int) (paired : Matching.Branch → List Nat) (rows : List Nat)
    (b : Matching.Branch) : Guards P (Matching.addUnpaired s side paired rows b) := by
  induction rows generalizing b with
  | nil => exact .pure trivial
  | cons i rows ih =>
    unfold Matching.addUnpaired
    split
    · exact (extraCopies_keeps q s side i _).bind fun _ _ ↦ ih _
    · exact ih _

include hread

theorem pairUp_keeps (mode : Matching.Mode) (l r : Nat) (pairs : List ((Nat × Nat) × Bool))
    (b : Matching.Branch) : Guards P (Matching.pairUp mode s read l r pairs b) := by
  induction pairs generalizing b with
  | nil => exact .pure trivial
  | cons pair pairs ih =>
    obtain ⟨⟨i, j⟩, matched⟩ := pair
    refine (hread i j).bind fun rd _ ↦ ?_
    obtain ⟨val, null⟩ := rd
    dsimp only
    split
    · refine (tooMany_keeps _ _ _ _).bind fun c _ ↦ ?_
      split
      · exact .pure trivial
      · exact (pairCopies_keeps q s i j _).bind fun _ _ ↦ ih _
    · exact ih _

theorem branchesFrom_keeps (mode : Matching.Mode) (sizes : List Term) (l r fuel n count : Nat) :
    Guards P (Matching.branchesFrom mode s read sizes l r fuel n count) := by
  induction fuel generalizing n count with
  | zero => exact .pure trivial
  | succ fuel ih =>
    refine (limit_keeps _).bind fun most _ ↦ (outcome _).bind fun c _ ↦ ?_
    split
    · exact .pure trivial
    · refine (pairUp_keeps q s hread mode l r _ _).bind fun o _ ↦ ?_
      split
      · exact ih _ _
      · rename_i b
        have left : Guards P
            (if mode.full = true then Matching.addUnpaired s s.left.id (·.leftPairs) (List.range l) b
              else pure b) := by
          split
          · exact addUnpaired_keeps q s _ _ _ _
          · exact .pure trivial
        exact left.branch fun b _ ↦ (addUnpaired_keeps q s _ _ _ _).bind fun b _ ↦
          (ih _ _).bind fun _ _ ↦ .pure trivial

theorem branches_keeps (mode : Matching.Mode) (sizes : List (List Int)) (count : Nat) :
    Guards P (Matching.branches mode s read sizes count) := by
  induction sizes generalizing count with
  | nil => exact .pure trivial
  | cons size sizes ih =>
    exact (branchesFrom_keeps q s hread mode _ _ _ _ _ _).bind fun _ _ ↦ (ih _).bind fun _ _ ↦ .pure trivial

end Matchings

end Operator

end QueryEquiv
