import QueryEquiv.Proofs.Aggregates

/-!
# The values of expressions in groups

In a group of rows an expression has a value too: a column has that of the first row of the group, an
aggregate is taken over the values of its argument in the rows of the group, and operators combine values
as ever (`Node.groupValue`). The reading of such an expression in a group stands for this value, in every
interpretation in which the group has a row.

The rows of a group are told by unknowns, so an encoding goes through all rows of the table, and each row
brings the condition that it is in the group.
-/

namespace QueryEquiv

open Node Interpretation Gives List Workspace Expression GroupOfRows

variable {name : Value} {row : Int}

/-! ## Values -/

/-- What the leaves of an expression stand for in a group: the columns in each of its rows, and the literals. -/
structure Sql.Group where
  rows : List Sql.Environment
  constant : Value → Option Int

namespace Node

/-- An aggregate over the rows of a group. A count of everything counts the rows. -/
def aggregateValue (γ : Sql.Group) (name : String) : List Node → Option Int
  | [flag, e] =>
    if name = "count" ∧ flag.truthy = false ∧ GroupOfRows.isStar e = true then some γ.rows.length
    else Sql.aggregate name flag.truthy (γ.rows.map fun σ ↦ e.value σ)
  | _ => none

mutual

def groupValue (γ : Sql.Group) : Node → Option Int
  | .column name _ => Sql.first (γ.rows.map (·.column name))
  | .literal v _ => γ.constant v
  | .expression (.str name) args _ =>
    if name ∈ aggregateNames then aggregateValue γ name args else Sql.operate name (groupValues γ args)
  | _ => none

def groupValues (γ : Sql.Group) : List Node → List (Option Int)
  | [] => []
  | n :: ns => groupValue γ n :: groupValues γ ns

end

theorem length_groupValues (γ : Sql.Group) (ns : List Node) : (groupValues γ ns).length = ns.length := by
  induction ns with
  | nil => rfl
  | cons n ns ih => exact congrArg (· + 1) ih

/-- The arguments of an aggregate: whether it is of distinct values, and an expression at rows. -/
def PlainAggregate (bare : Bool) (rows : Nat) (known : Nat → Value → Prop) (name : String) : List Node → Prop
  | [flag, e] => name = "count" ∧ flag.truthy = false ∧ GroupOfRows.isStar e = true ∨ ∀ i < rows, e.Plain bare (known i)
  | _ => False

theorem PlainAggregate.exists_eq {bare : Bool} {rows : Nat} {known : Nat → Value → Prop} {name : String}
    {args : List Node} (h : PlainAggregate bare rows known name args) : ∃ flag e, args = [flag, e] := by
  unfold PlainAggregate at h
  split at h
  · exact ⟨_, _, rfl⟩
  · exact h.elim

mutual

/-- An expression in a group of rows: of columns that are known at the rows, literals, aggregates and operators. -/
def PlainGroup (bare : Bool) (rows : Nat) (known : Nat → Value → Prop) : Node → Prop
  | .column name _ => ∀ i < rows, known i name
  | .literal _ _ => True
  | .expression (.str name) args _ =>
    if name ∈ aggregateNames then PlainAggregate bare rows known name args
    else isOperatorName name = true ∧ Sql.takes bare name args.length ∧ PlainGroups bare rows known args
  | _ => False

def PlainGroups (bare : Bool) (rows : Nat) (known : Nat → Value → Prop) : List Node → Prop
  | [] => True
  | n :: ns => PlainGroup bare rows known n ∧ PlainGroups bare rows known ns

end

end Node

def Interpretation.groupRows (I : Interpretation) (w : Workspace) (g : GroupOfRows) (rows : Nat) : List Nat :=
  (List.range rows).filter fun (i : Nat) ↦ I.grouping (w.catalog.table g.groups).id i g.group

/-- What columns and literals stand for in a group of the rows of a table. -/
def Workspace.group (w : Workspace) (I : Interpretation) (place : Nat) (rows : List Nat) : Sql.Group where
  rows := rows.map fun (i : Nat) ↦ w.environment I place i
  constant := w.constantValue I.toConventions

theorem Sql.taken_map {α : Type} (f : α → Option Int) (p : α → Bool) (l : List α) :
    Sql.taken (l.map fun a ↦ (f a, p a)) = (l.filter p).map f := by
  rw [taken, filter_map, map_map]
  rfl

/-! ## Reading in a group -/

namespace Expression

section Cells

variable {w₀ w : Workspace} {place : Nat}

/-- A name that stands for a cell is found as a column. -/
theorem column_again {s : String} (hw : Undisturbed w₀ place w) (hs : w₀.Names place row (.str s)) :
    ∃ col w', Gives (column place (.str s)) w col w' ∧ Undisturbed w₀ place w' := by
  obtain ⟨_, ⟨⟩, hsome⟩ := hs
  obtain ⟨a, ha⟩ := Option.isSome_iff_exists.1 hsome
  obtain ⟨col, catalog, x, hlookup, -⟩ := cellReading_gives_iff.1 (of_toOption ha)
  obtain ⟨d, hd⟩ := hw.finds s col ⟨catalog, hlookup⟩
  refine ⟨col, _, column_gives_iff.2 ⟨d, hd, rfl⟩, (Catalog.lookup_tables hd).trans hw.tables, fun s' col' h ↦ ?_,
    hw.cell, hw.code⟩
  exact (hw.finds s' col' h).again hd

theorem cellReading_reads (I : Interpretation) (hs : w₀.Names place row name) :
    Keeps (Undisturbed w₀ place) (cellReading place row name)
      (I.Reads · ((w₀.environment I place row).column name)) := by
  obtain ⟨s, rfl, hs⟩ := hs
  intro w b v hw hg
  obtain ⟨a, ha⟩ := Option.isSome_iff_exists.1 hs
  obtain ⟨hterm, hnull, w', hcell, hw'⟩ := cellReading_again hw ha
  obtain ⟨rfl, rfl⟩ := hg.unique hcell
  exact ⟨hw', hterm, hnull, (congrArg (·.bind I.read) ha).symm⟩

end Cells

section Groups

variable {w₀ : Workspace} {g : GroupOfRows} {I : Interpretation} {n : Nat}

theorem contains_reads (row : Nat) : Keeps (Undisturbed w₀ g.members) (g.contains row)
    (· = .grouping (w₀.catalog.table g.groups).id row g.group) :=
  contains_again (fun _ hw ↦ hw.tables) g row

theorem columnCells_cons (g : GroupOfRows) (name : Value) (row : Nat) (rows : List Nat) :
    g.columnCells name (row :: rows) = (do
      let flag ← g.contains row
      let a ← cellReading g.members row name
      return { val := a.1, null := a.2, flag } :: (← g.columnCells name rows)) := by
  simp only [columnCells, cellReading, bind_assoc, pure_bind]

theorem columnCells_reads (rows : List Nat) (hs : ∀ i ∈ rows, w₀.Names g.members i name) :
    Keeps (Undisturbed w₀ g.members) (columnCells g name rows) fun cs ↦
      Forall₂ (I.Contributes true) cs (rows.map fun (i : Nat) ↦ ((w₀.environment I g.members i).column name,
        I.grouping (w₀.catalog.table g.groups).id i g.group)) := by
  induction rows with
  | nil => exact .pure .nil
  | cons row rows ih =>
    rw [forall_mem_cons] at hs
    rw [columnCells_cons]
    refine (contains_reads row).bind fun flag hflag ↦ (cellReading_reads I hs.1).bind fun a ha ↦
      (ih hs.2).bind fun cs hcs ↦ .pure (.cons ⟨ha, ?_⟩ hcs)
    subst hflag
    exact I.holds_grouping _ _ _

theorem contributions_reads {sub : Subquery} {reader : Nat} {args : List Argument} {a : Argument}
    (ha : args[1]? = some a) (rows : List Nat) (hs : ∀ i ∈ rows, a.node.Plain (!I.emptyOr) (w₀.Names g.members i)) :
    Keeps (Undisturbed w₀ g.members) (contributions sub g reader args rows) fun cs ↦
      Forall₂ (I.Contributes true) cs (rows.map fun (i : Nat) ↦ (a.node.value (w₀.environment I g.members i),
        I.grouping (w₀.catalog.table g.groups).id i g.group)) := by
  have hargument : argument args 1 = pure a := by rw [argument, ha]
  induction rows with
  | nil => exact .pure .nil
  | cons row rows ih =>
    rw [forall_mem_cons] at hs
    rw [contributions, hargument, pure_bind]
    have hread : Keeps (Undisturbed w₀ g.members) (numberAtRow sub g.members row none none reader a.node)
        (I.Reads · (a.node.value (w₀.environment I g.members row))) :=
      (encode_reads (atRow_faithful sub w₀ g.members row none none reader 199 I) a.node hs.1).bind fun _ hr ↦
        asNumber_reads hr
    refine hread.bind fun r hr ↦ (contains_reads row).bind fun flag hflag ↦
      (ih hs.2).bind fun cs hcs ↦ .pure (.cons ⟨hr, ?_⟩ hcs)
    subst hflag
    exact I.holds_grouping _ _ _

theorem newReader_undisturbed {place : Nat} : Guards (Undisturbed w₀ place) newReader := by
  intro w r w' hw hg
  simp only [newReader, bind_iff, get_iff, set_iff, pure_iff] at hg
  obtain ⟨_, _, ⟨rfl, rfl⟩, _, _, rfl, rfl, rfl⟩ := hg
  exact ⟨⟨hw.tables, hw.finds, hw.cell, hw.code⟩, trivial⟩

theorem mapM_contains_reads (rows : List Nat) : Keeps (Undisturbed w₀ g.members) (rows.mapM g.contains)
    (· = rows.map fun (i : Nat) ↦ .grouping (w₀.catalog.table g.groups).id i g.group) := by
  induction rows with
  | nil =>
    rw [mapM_nil]
    exact .pure rfl
  | cons row rows ih =>
    rw [mapM_cons]
    exact (contains_reads row).bind fun t ht ↦ ih.bind fun ts hts ↦ .pure (by rw [ht, hts, map_cons])

/-- The rows of a group are counted by the conditions that they are in it. -/
theorem eval_sum_contains : I.eval (.sum (((List.range n).map fun (i : Nat) ↦
      .grouping (w₀.catalog.table g.groups).id i g.group).map .indicator)) = (I.groupRows w₀ g n).length := by
  rw [map_map, groupRows, ← countP_eq_length_filter]
  refine (I.eval_sum_indicator _ fun (i : Nat) ↦ .grouping _ i g.group).trans ?_
  congr 2
  funext i
  simp

section Aggregate

variable {sub : Subquery} {a b : Argument}

theorem asksDistinct_eq : asksDistinct [a, b] = pure a.node.truthy := by
  simp [asksDistinct, argument]

theorem either_reads {P : Workspace → Prop} {once all : List Contribution → Outcome Reading} {name : String}
    {cs : List Contribution} {xs : List (Option Int × Bool)} (honce : Aggregate.Named once true name true)
    (hall : Aggregate.Named all true name false) (hcs : Forall₂ (I.Contributes true) cs xs)
    (hne : Sql.taken xs ≠ []) : Keeps P (either [a, b] once all cs)
      (I.Reads · (Sql.aggregate name a.node.truthy (Sql.taken xs))) := by
  rw [either, asksDistinct_eq, pure_bind]
  cases a.node.truthy with
  | false => exact .lift fun r hr ↦ .named hall hcs (fun _ ↦ hne) hr
  | true => exact .lift fun r hr ↦ .named honce hcs (fun _ ↦ hne) hr

theorem isPlain_sum_indicator (ts : List Term) : (Term.sum (ts.map .indicator)).isPlain = false := by
  cases ts with
  | nil => rfl
  | cons t ts => exact Aggregate.isPlain_foldl_add rfl _

variable (hn : (w₀.catalog.table g.members).rows = .ok n)
include hn

theorem range_rows_reads {α : Type} {f : Nat → Encoding α} {Q : α → Prop}
    (hf : Keeps (Undisturbed w₀ g.members) (f n) Q) :
    Keeps (Undisturbed w₀ g.members) (do f (← (← table g.members).rows)) Q := by
  refine (table_again (fun _ hw ↦ hw.tables) _).bind fun t ht ↦ (Keeps.lift (Q := (· = n)) fun m hm ↦ ?_).bind fun m hm ↦ ?_
  · rw [ht, hn] at hm
    exact (Except.ok.inj hm).symm
  · rw [hm]
    exact hf

/-- An aggregate in a group that has a row stands for the aggregate of the values in the rows. -/
theorem aggregate_reads {op : String} (hop : op ∈ aggregateNames) (hne : I.groupRows w₀ g n ≠ [])
    (hplain : PlainAggregate (!I.emptyOr) n (fun i ↦ w₀.Names g.members i) op [a.node, b.node]) :
    Keeps (Undisturbed w₀ g.members) (aggregate sub g op [a, b])
      (I.Reads · (aggregateValue (w₀.group I g.members (I.groupRows w₀ g n)) op [a.node, b.node])) := by
  -- Whether the rows are counted, whatever they hold.
  have honly : Keeps (Undisturbed w₀ g.members)
      (if (op == "count") = true then countsRows [a, b] else pure false)
      (· = decide (op = "count" ∧ a.node.truthy = false ∧ isStar b.node = true)) := by
    rw [countsRows, asksDistinct_eq, pure_bind]
    by_cases hcount : op = "count" <;> cases a.node.truthy <;> simp only [hcount, beq_self_eq_true, beq_iff_eq, if_true,
      if_false, argument] <;> exact .pure (by simp)
  rw [aggregate, aggregateValue]
  refine honly.branch fun only honly ↦ ?_
  subst honly
  beta_reduce
  by_cases hstar : op = "count" ∧ a.node.truthy = false ∧ isStar b.node = true
  · rw [if_pos hstar, if_pos (decide_eq_true hstar)]
    refine range_rows_reads hn ((mapM_contains_reads _).bind fun ts hts ↦ .pure ?_)
    refine .certain (isPlain_sum_indicator ts) ?_
    rw [hts, eval_sum_contains, Workspace.group, length_map]
  · rw [if_neg hstar, if_neg (by simpa using hstar)]
    have hplain : ∀ i < n, b.node.Plain (!I.emptyOr) (w₀.Names g.members i) := hplain.resolve_left hstar
    refine newReader_undisturbed.bind fun reader _ ↦ range_rows_reads hn
      ((contributions_reads (a := b) rfl _ fun i hi ↦ hplain i (mem_range.1 hi)).bind fun cs hcs ↦ ?_)
    have htaken : ((w₀.group I g.members (I.groupRows w₀ g n)).rows.map fun σ ↦ b.node.value σ) =
        Sql.taken ((List.range n).map fun (i : Nat) ↦ (b.node.value (w₀.environment I g.members i),
          I.grouping (w₀.catalog.table g.groups).id i g.group)) := by
      rw [Sql.taken_map, Workspace.group, map_map]
      rfl
    have hsome : ((w₀.group I g.members (I.groupRows w₀ g n)).rows.map fun σ ↦ b.node.value σ) ≠ [] := by
      simpa [Workspace.group] using hne
    rw [htaken] at hsome ⊢
    simp only [aggregateNames, mem_cons, not_mem_nil, or_false] at hop
    obtain rfl | rfl | rfl | rfl | rfl := hop
    · exact .lift fun r hr ↦ .named (.groupMinimum _) hcs (fun _ ↦ hsome) hr
    · exact .lift fun r hr ↦ .named (.groupMaximum _) hcs (fun _ ↦ hsome) hr
    · exact either_reads .groupCountDistinct .groupCount hcs hsome
    · exact either_reads .groupSumDistinct .groupSum hcs hsome
    · exact either_reads .groupAverageDistinct .groupAverage hcs hsome

end Aggregate

/-! ## Columns and operators -/

/-- A name that stands for a cell is not looked for among the targets. -/
theorem aliased_reads (hs : w₀.Names g.members row name) :
    Keeps (Undisturbed w₀ g.members) (aliased? g name) (· = none) := by
  intro w t w' hw hg
  obtain ⟨s, rfl, -⟩ := id hs
  obtain ⟨col, v, hcol, hv⟩ := column_again hw hs
  have hnone : Gives (aliased? g (.str s)) w none v := by
    unfold Gives aliased?
    rw [exec_bind, exec_tryCatch, exec_bind, hcol]
    rfl
  obtain ⟨rfl, rfl⟩ := hg.unique hnone
  exact ⟨hv, rfl⟩

theorem isOperatorName_of_aggregate {name : String} (h : name ∈ aggregateNames) : isOperatorName name = false := by
  revert name
  decide

theorem groupConstant_reads {sub : Subquery} {memo depth : Nat} (v : Value) :
    Keeps (Undisturbed w₀ g.members) ((g.reader sub memo (depth + 1)).constant v)
      (I.Reads · (w₀.constantValue I.toConventions v)) := by
  have hconstant := (atRow_faithful sub w₀ g.members 0 none none 0 0 I).constant v
  cases v with
  | time t => exact .throw
  | _ => exact hconstant

section Reader

variable {sub : Subquery} {memo depth : Nat}

/-- A column in a group that has a row stands for its value in the first row. -/
theorem groupColumn_reads (hn : (w₀.catalog.table g.members).rows = .ok n) (hne : I.groupRows w₀ g n ≠ [])
    (hs : ∀ i < n, w₀.Names g.members (i : Nat) name) :
    Keeps (Undisturbed w₀ g.members) ((g.reader sub memo (depth + 1)).column name)
      (I.Reads · (Sql.first ((w₀.group I g.members (I.groupRows w₀ g n)).rows.map (·.column name)))) := by
  obtain ⟨i, hi⟩ := exists_mem_of_ne_nil _ hne
  have hi : i < n := mem_range.1 (mem_filter.1 hi).1
  have hrows : (List.range n).isEmpty = false := by
    rw [isEmpty_eq_false_iff, ne_eq, range_eq_nil]
    omega
  have hbranch : Keeps (Undisturbed w₀ g.members)
      (if (List.range n).isEmpty = true then pure none else aliased? g name) (· = none) := by
    rw [hrows]
    exact aliased_reads (hs i hi)
  refine range_rows_reads (f := fun n ↦ _) hn (hbranch.branch fun target ht ↦ ?_)
  subst ht
  refine (columnCells_reads (I := I) (List.range n) fun i hi ↦ hs i (mem_range.1 hi)).bind fun cs hcs ↦ ?_
  generalize hxs : (List.range n).map (fun (i : Nat) ↦ (_, I.grouping _ i g.group)) = xs at hcs
  have htaken : Sql.taken xs = (w₀.group I g.members (I.groupRows w₀ g n)).rows.map (·.column name) := by
    rw [← hxs, Sql.taken_map, Workspace.group, map_map]
    rfl
  have hsome : Sql.taken xs ≠ [] := by
    rw [htaken, Workspace.group, map_map]
    exact mt map_eq_nil_iff.1 hne
  rw [← htaken]
  cases hcs with
  | nil => exact absurd rfl hsome
  | cons hc hcs =>
    obtain ⟨hterm, hnull, -, hread⟩ := summarizes_foldl_firstIn hc hcs
    exact .pure ⟨hterm, hnull, hread hsome⟩

mutual

/-- The reading of an expression in a group that has a row stands for its value there. -/
theorem encodeInGroup_reads (hn : (w₀.catalog.table g.members).rows = .ok n)
    (hne : I.groupRows w₀ g n ≠ []) : (e : Node) → e.PlainGroup (!I.emptyOr) n (fun i ↦ w₀.Names g.members i) →
    Keeps (Undisturbed w₀ g.members) (encode (g.reader sub memo (depth + 1)) e)
      (I.Reads · (e.groupValue (w₀.group I g.members (I.groupRows w₀ g n))))
  | .column name _, h => groupColumn_reads hn hne h
  | .literal v _, _ => groupConstant_reads v
  | .expression (.str name) args byname, h => by
    rw [PlainGroup] at h
    rw [encode, groupValue]
    by_cases hagg : name ∈ aggregateNames
    · rw [if_pos hagg] at h ⊢
      rw [if_neg (by rw [isOperatorName_of_aggregate hagg]; decide)]
      obtain ⟨flag, e, rfl⟩ := h.exists_eq
      change Keeps _ (groupFunction sub g name _ _) _
      unfold groupFunction
      rw [if_pos (contains_iff_mem.2 hagg)]
      exact aggregate_reads (a := ⟨flag, _, _⟩) (b := ⟨e, _, _⟩) hn hagg hne h
    · rw [if_neg hagg] at h ⊢
      rw [if_pos h.1]
      refine (inTurn_reads (readingsInGroup_reads hn hne args h.2.2)).bind fun rs hrs ↦ .lift fun a ha ↦ ?_
      have hlen : rs.length = args.length := by rw [hrs.length_eq, length_groupValues]
      refine Reads.operate hrs ?_ ha
      simpa [← length_eq_zero_iff, hlen] using takes_ne_zero h.2.1

theorem readingsInGroup_reads (hn : (w₀.catalog.table g.members).rows = .ok n)
    (hne : I.groupRows w₀ g n ≠ []) : (es : List Node) →
    PlainGroups (!I.emptyOr) n (fun i ↦ w₀.Names g.members i) es →
    Forall₂ (fun p y ↦ Keeps (Undisturbed w₀ g.members) p (I.Reads · y))
      (readings (g.reader sub memo (depth + 1)) es) (groupValues (w₀.group I g.members (I.groupRows w₀ g n)) es)
  | [], _ => .nil
  | e :: es, h => .cons (encodeInGroup_reads hn hne e h.1) (readingsInGroup_reads hn hne es h.2)

end

theorem inGroup_reads (hn : (w₀.catalog.table g.members).rows = .ok n) (hne : I.groupRows w₀ g n ≠ []) {e : Node}
    (h : e.PlainGroup (!I.emptyOr) n (fun i ↦ w₀.Names g.members i)) :
    Keeps (Undisturbed w₀ g.members) (inGroup sub g false memo e)
      (I.Reads · (e.groupValue (w₀.group I g.members (I.groupRows w₀ g n)))) :=
  (encodeInGroup_reads hn hne e h).bind fun _ hr ↦ asNumber_reads hr

theorem inGroup_reads_all (hn : (w₀.catalog.table g.members).rows = .ok n) (hpos : 0 < n) {e : Node}
    (h : ∀ bare, e.PlainGroup bare n fun i ↦ w₀.Names g.members i) :
    Keeps (Undisturbed w₀ g.members) (inGroup sub g false memo e) fun r ↦ ∀ I : Interpretation,
      I.groupRows w₀ g n ≠ [] → I.Reads r (e.groupValue (w₀.group I g.members (I.groupRows w₀ g n))) := by
  intro w r w' hw hg
  -- In this interpretation all rows are in the group.
  let J : Interpretation := { zero ⟨fun _ ↦ 0, false⟩ with grouping := fun _ _ _ ↦ true }
  have hne : J.groupRows w₀ g n ≠ [] :=
    ne_nil_of_mem (mem_filter.2 ⟨mem_range.2 hpos, rfl⟩)
  exact ⟨(inGroup_reads hn hne (h _) hw hg).1, fun I hne ↦ (inGroup_reads hn hne (h _) hw hg).2⟩

end Reader

end Groups

end Expression

end QueryEquiv
