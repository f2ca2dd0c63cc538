import QueryEquiv.Proofs.Bags
import QueryEquiv.Proofs.Covers
import QueryEquiv.Proofs.Naming
import QueryEquiv.Proofs.Rounds

/-!
# Giving up a search

A search gives up when it has gone through the covers of the decisions about the tables of a core. No model
agrees with a member of each cover then, so there is no model at all as soon as every model agrees with a
member of each: the covers have to be complete. A cover runs through all combinations of 0 and 1 where it
leaves nothing open, so it is complete for decisions that are 0 or 1 there. Only the covers of large groups
are not, which repeat their choices.

The conflicts that a search learns on its way are consequences of the formulas, too. Both results are about clauses
that own their decisions (`Owned`), and about solvers that tell the truth; that they can be had together is shown on a
query that is compared with itself.
-/

namespace QueryEquiv

open Search Outcome List

namespace Search

namespace Cover

/-- A decision that is 0 or 1 wherever a cover leaves nothing open agrees with a member. -/
theorem exists_member {c : Cover} (hc : c.twice = false) {I : Interpretation} {id : Int}
    (hI : ∀ j : Nat, c.opens[j]? = some false → I.choice id j = 0 ∨ I.choice id j = 1) :
    ∃ i < c.count, Takes I (id, c.member i) := by
  obtain ⟨i, hi, hbits⟩ := exists_bits c.opens (f := fun j ↦ I.choice id j) hI
  refine ⟨i, hi, takes_iff.2 fun j v hv ↦ ?_⟩
  dsimp only [member] at hv
  rw [if_neg (by simp [hc])] at hv
  rw [hbits j v hv]
  rfl

/-- The cover of a table leaves the first eight positions open, and all of them for a small or sorted table. -/
theorem ofTable_eq_ok {t : Table} {c : Cover} (h : ofTable t { left := .int 8 } = .ok c) :
    (c.twice = false ∧ ∀ j : Nat, c.opens[j]? ≠ some false) ∨
      ∃ n, t.mentions "Sorted" = .ok false ∧ whole t.bound = .ok n ∧ (Value.int 8).before t.bound = .ok true ∧
        c = { opens := positions 8 (n - 8) 0, twice := t.mentionsIfAny "Grouped" } := by
  have hopen (h : allOpen t = .ok c) : c.twice = false ∧ ∀ j : Nat, c.opens[j]? ≠ some false := by
    obtain ⟨n, -, hc⟩ := bind_ok_iff.1 h
    obtain rfl := pure_ok_iff.1 hc
    refine ⟨rfl, fun j hj ↦ ?_⟩
    have := positions_eq_false hj
    omega
  unfold ofTable at h
  obtain ⟨sorted, hsorted, h⟩ := bind_ok_iff.1 h
  cases sorted with
  | true => exact .inl (hopen h)
  | false =>
    -- Nothing but the number of positions at the beginning is given.
    change (do
      if ← (Value.int 8).before t.bound then
        return { opens := positions 8 ((← whole t.bound) - 8) 0, twice := t.mentionsIfAny "Grouped" }
      else allOpen t : Outcome Cover) = .ok c at h
    obtain ⟨large, hlarge, h⟩ := bind_ok_iff.1 h
    cases large with
    | false => exact .inl (hopen h)
    | true =>
      obtain ⟨n, hn, hc⟩ := bind_ok_iff.1 h
      exact .inr ⟨n, hsorted, hn, hlarge, pure_ok_iff.1 hc⟩

end Cover

/-- The covers of the decisions about tables miss none: a table of groups has no more rows than are left
open, and decisions beyond those about the first eight rows are 0 or 1 in every model. -/
structure Coverable (conv : Conventions) (w : Workspace) (tables : List (Option String × Int)) : Prop where
  groups : ∀ x ∈ tables, ∀ place, w.database.place? x.2 = some place →
    (w.catalog.table place).mentionsIfAny "Grouped" = true →
      (Value.int 8).before (w.catalog.table place).bound ≠ .ok true
  beyond : ∀ x ∈ tables, ∀ place n, w.database.place? x.2 = some place →
    (w.catalog.table place).mentions "Sorted" = .ok false →
      Cover.whole (w.catalog.table place).bound = .ok n → ∀ I, Models conv w I →
        ∀ i : Nat, 8 ≤ i → (i : Int) < n → I.choice x.2 i = 0 ∨ I.choice x.2 i = 1

/-- Every model agrees with a member of each cover. -/
theorem Covering.exists_member {conv : Conventions} {w : Workspace} {tables : List (Option String × Int)}
    {labels : List String} {covers : List (Int × Cover)}
    (hc : Covering w tables labels { left := .int 8 } covers) (hw : Coverable conv w tables)
    {I : Interpretation} (hI : Models conv w I) : ∀ x ∈ covers, ∃ i < x.2.count, Takes I (x.1, x.2.member i) := by
  rintro ⟨id, c⟩ hx
  obtain ⟨l, -, place, htable, hplace, hcover⟩ := hc.cover _ hx
  have hmem : (some l, id) ∈ tables := Formulas.mem_of_lookup htable
  obtain ⟨htwice, hopen⟩ | ⟨n, hsorted, hn, hlarge, rfl⟩ := Cover.ofTable_eq_ok hcover
  · exact Cover.exists_member htwice fun j hj ↦ absurd hj (hopen j)
  · have hgroups : (w.catalog.table place).mentionsIfAny "Grouped" = false := by
      cases h : (w.catalog.table place).mentionsIfAny "Grouped" with
      | false => rfl
      | true => exact absurd hlarge (hw.groups _ hmem place hplace h)
    refine Cover.exists_member hgroups fun j hj ↦ ?_
    obtain ⟨hle, hlt⟩ := Cover.positions_eq_false hj
    exact hw.beyond _ hmem place n hplace hsorted hn I hI j (by omega) (by omega)

/-- If a search that starts without decisions and conflicts gives up, then the formulas have no model, if
every clause owns its decisions, the covers of the decisions miss none, and what the solver said is true. -/
theorem search_gives_up {conv : Conventions} {a b : Asking} (hunder : a.workspace.formulas.under = [])
    (hconflicts : a.workspace.formulas.conflicts = [])
    (ho : ∀ tables, tablesOfLabels a.workspace = .ok tables →
      Owned conv a.workspace tables ∧ Coverable conv a.workspace tables)
    {outputs : List Nat} (hsearch : inquire (search outputs) a = (.ok none, b)) (hh : b.solvers.Honest conv) :
    ∀ I, ¬ Models conv a.workspace I := by
  have h := search_leads hunder hconflicts (fun tables ht ↦ (ho tables ht).1) outputs
    (rfl : a.workspace = a.workspace)
  rw [hsearch] at h
  obtain ⟨tables, core, covers, htables, hcovering, hmissed⟩ := h.2 hh rfl
  intro I hI
  exact hmissed I hI (fun d hd ↦ absurd hd not_mem_nil)
    (hcovering.exists_member (ho tables htables).2 hI)

/-- A search that starts without decisions and conflicts learns only what follows from the formulas, at
whatever point it ends, if every clause owns its decisions and what the solver said is true. -/
theorem search_conflicts_follow {conv : Conventions} {a : Asking} (hunder : a.workspace.formulas.under = [])
    (hconflicts : a.workspace.formulas.conflicts = [])
    (ho : ∀ tables, tablesOfLabels a.workspace = .ok tables → Owned conv a.workspace tables) (outputs : List Nat)
    (hh : (inquire (search outputs) a).2.solvers.Honest conv) :
    ∀ c ∈ (inquire (search outputs) a).2.workspace.formulas.conflicts, ∀ I, Models conv a.workspace I →
      I.Holds c.2 := by
  have h := search_leads hunder hconflicts ho outputs (rfl : a.workspace = a.workspace)
  rcases hr : inquire (search outputs) a with ⟨e | r, b⟩ <;> rw [hr] at h hh
  · exact h hh
  · exact h.1 hh

/-! ## A query that is compared with itself -/

end Search

namespace Term

mutual

/-- Two conditions on rows are the same. -/
def same : Term → Term → Bool
  | .cell t r c, .cell t' r' c' => t == t' && r == r' && c == c'
  | .null t r c, .null t' r' c' => t == t' && r == r' && c == c'
  | .deleted t r, .deleted t' r' => t == t' && r == r'
  | .choice t b, .choice t' b' => t == t' && b == b'
  | .and ts, .and us => sameAll ts us
  | .or ts, .or us => sameAll ts us
  | .not a, .not b => same a b
  | .implies a b, .implies c d => same a c && same b d
  | .ite c a b, .ite d e f => same c d && same a e && same b f
  | .cmp op a b, .cmp op' c d => op == op' && same a c && same b d
  | .int (.int n), .int (.int m) => n == m
  | .bool (.bool a), .bool (.bool b) => a == b
  | _, _ => false

def sameAll : List Term → List Term → Bool
  | [], [] => true
  | t :: ts, u :: us => same t u && sameAll ts us
  | _, _ => false

end

theorem eq_of_same : (∀ a b, same a b = true → a = b) ∧ ∀ ts us, sameAll ts us = true → ts = us := by
  apply same.mutual_induct <;> intros <;> simp_all [same, sameAll]

end Term

/-- The second `SELECT a FROM t` that is read. -/
def selectColumnAgain : Node :=
  .query 3 none (.project 4 [.column (.str "a") .null] .null) (.scan (.str "t") .null)
    .missing .missing .missing .null

/-- `SELECT a FROM t` is compared with itself, where `t` has one row at most. -/
def sameColumn : Asking :=
  let unsat : SolverReply := { lines := ["unsat"], core := ["project$1", "project$2", "neq"] }
  { workspace := (exec (do
      Workspace.start singleTable [] (.int 1) (.int 60) .null
      Verdict.difference (← Verdict.encodeQueries [selectColumn, selectColumnAgain])) {}).2
    solvers := { replies := [unsat, unsat] } }

namespace SameColumn

open Interpretation Search

/-- The only row of a result is that of `t`. -/
def projected (id : Int) : Term :=
  .and [.implies (.eq (.choice id 0) .one) (.and [.not (.deleted 0 0),
      .and [.eq (.cell id 0 0) (.cell 0 0 0), .eq (.null id 0 0) (.null 0 0 0)], .not (.deleted id 0)]),
    .implies (.eq (.choice id 0) .zero) (.and [.deleted 0 0, .deleted id 0]),
    .or [.eq (.choice id 0) .one, .eq (.choice id 0) .zero]]

def differ : Term :=
  let s : Results.Shape := ⟨1, 1, [0]⟩
  let t : Results.Shape := ⟨2, 1, [0]⟩
  .not (.and [.eq s.size t.size, s.sameMultiplicities t])

def formulas : List (String × Term) :=
  [("ic", .and []), ("project$1", projected 1), ("project$2", projected 2), ("neq", differ)]

def tables : List (Option String × Int) := [(some "project$1", 1), (some "project$2", 2)]

variable {I : Interpretation} {conv : Conventions}

theorem bag_eq {id : Int} (h : I.Holds (projected id)) : I.bag ⟨id, 1, [0]⟩ = I.bag ⟨0, 1, [0]⟩ := by
  have hsame : I.deleted id 0 = I.deleted 0 0 ∧ (I.deleted 0 0 = false → I.held id 0 0 = I.held 0 0 0) := by
    simp only [projected, holds_and, forall_mem_cons, holds_implies, holds_eq, eval_choice, eval_one, holds_not,
      holds_deleted, eval_cell, eval_null, eval_zero, holds_or_cons, exists_mem_cons_iff] at h
    obtain ⟨hone, hzero, hchoice, -⟩ := h
    rcases hchoice with h | h | ⟨_, h, -⟩
    · obtain ⟨hthere, ⟨hcell, hnull, -⟩, hkept, -⟩ := hone h
      have hnull : I.null id 0 0 = I.null 0 0 0 := by
        cases h₁ : I.null id 0 0 <;> cases h₂ : I.null 0 0 0 <;> simp_all
      simp_all [held]
    · simp_all
    · cases h
  cases hd : I.deleted 0 0 <;> simp_all [bag, rowsThere, record, range_succ]

/-- Two results that are the same do not differ. -/
theorem not_differ (h₁ : I.Holds (projected 1)) (h₂ : I.Holds (projected 2)) : ¬ I.Holds differ := by
  have hbags := holds_bags_iff I (s := ⟨1, 1, [0]⟩) (t := ⟨2, 1, [0]⟩) rfl
  rw [differ, holds_not, not_not, hbags, bag_eq h₁, bag_eq h₂]

theorem entries {f : Formula} (h : f ∈ sameColumn.workspace.formulas.entries) : (f.label, f.term) ∈ formulas := by
  have hall : (sameColumn.workspace.formulas.entries.all fun f ↦
      formulas.any fun k ↦ f.label == k.1 && f.term.same k.2) = true := by decide +kernel
  obtain ⟨k, hk, hsame⟩ := any_eq_true.1 (all_eq_true.1 hall f h)
  rw [Bool.and_eq_true, beq_iff_eq] at hsame
  rwa [hsame.1, Term.eq_of_same.1 _ _ hsame.2]

theorem tablesOf : tablesOfLabels sameColumn.workspace = .ok tables := ok_of_toOption (by decide +kernel)

theorem owned : Owned conv sameColumn.workspace tables where
  clause f hf hl := by
    have hmem := entries hf
    simp only [formulas, mem_cons, Prod.mk.injEq, not_mem_nil, or_false] at hmem
    rcases hmem with ⟨h, -⟩ | ⟨h, ht⟩ | ⟨h, ht⟩ | ⟨h, -⟩
    · exact absurd hl (by rw [h]; decide +kernel)
    · rw [h, ht]
      repeat' constructor
      all_goals exact fun _ ↦ rfl
    · rw [h, ht]
      repeat' constructor
      all_goals exact fun _ ↦ rfl
    · exact absurd hl (by rw [h]; decide +kernel)
  other f hf hl := by
    left
    have hmem := entries hf
    simp only [formulas, mem_cons, Prod.mk.injEq, not_mem_nil, or_false] at hmem
    rcases hmem with ⟨-, ht⟩ | ⟨h, -⟩ | ⟨h, -⟩ | ⟨-, ht⟩
    · rw [ht]
      trivial
    · exact absurd hl (by rw [h]; decide +kernel)
    · exact absurd hl (by rw [h]; decide +kernel)
    · rw [ht]
      repeat' constructor
  label l id h := by
    have hall : ∀ x ∈ tables, ∀ l, x.1 = some l →
        ofClause l = true ∧ Text.occursIn "conflict" l = false ∧ '&' ∉ l.toList := by
      simp only [tables, forall_mem_cons, Option.some.injEq, forall_eq']
      decide +kernel
    exact hall _ (Formulas.mem_of_lookup h) l rfl
  filed x hx place h := by
    have hall : ∀ x ∈ tables, (sameColumn.workspace.database.place? x.2).all
        fun place ↦ (sameColumn.workspace.catalog.table place).id == x.2 := by decide +kernel
    simpa [h] using hall x hx
  fresh f hf h := by
    have hmem := entries hf
    rw [h] at hmem
    simp [formulas, decisionLabel] at hmem

/-- No table has groups, or more than one row. -/
theorem coverable : Coverable conv sameColumn.workspace tables := by
  have hall : ∀ x ∈ tables, (sameColumn.workspace.database.place? x.2).all fun place ↦
      let t := sameColumn.workspace.catalog.table place
      t.mentionsIfAny "Grouped" == false && t.bound.integer? == some 1 := by decide +kernel
  constructor
  · intro x hx place h hgroups
    have := hall x hx
    simp [h, hgroups] at this
  · intro x hx place n h _ hn I _ i hi hin
    have := hall x hx
    simp only [h, Option.all_some, Bool.and_eq_true, beq_iff_eq] at this
    rw [Cover.whole, this.2] at hn
    cases hn
    omega

/-- All that is said is that the results cannot differ, being what they are. -/
theorem honest : (inquire (search [2, 4]) sameColumn).2.solvers.Honest conv := by
  have hall : ((inquire (search [2, 4]) sameColumn).2.solvers.exchanges.toList.all fun e ↦
      (e.reply.all fun r ↦ SolverReply.verdict? r.lines == some (false, []) &&
        r.contradicting == formulas.tail.map Prod.fst) &&
      formulas.tail.all fun k ↦ e.asserted.any fun x ↦ x.1 == k.1 && x.2.same k.2) = true := by decide +kernel
  intro i r asserted h
  obtain ⟨_, hsent, h⟩ := Option.map_eq_some_iff.1 h
  obtain ⟨e, he, rfl⟩ := Option.map_eq_some_iff.1 hsent
  obtain ⟨hr, rfl⟩ := Prod.mk.inj h
  have hmem := all_eq_true.1 hall e (Array.mem_toList_iff.2 (Array.mem_of_getElem? he))
  dsimp only at hr
  simp only [hr, Option.all_some, Bool.and_eq_true, beq_iff_eq, all_eq_true] at hmem
  obtain ⟨⟨hverdict, hcore⟩, hasserted⟩ := hmem
  rw [SolverReply.Truthful, hverdict]
  refine ⟨rfl, fun I _ hI ↦ ?_⟩
  have hholds {k} (hk : k ∈ formulas.tail) : I.Holds k.2 := by
    obtain ⟨x, hx, hsame⟩ := any_eq_true.1 (hasserted k hk)
    rw [Bool.and_eq_true, beq_iff_eq] at hsame
    rw [← Term.eq_of_same.1 _ _ hsame.2]
    exact hI x hx (by rw [hcore, hsame.1]; exact mem_map_of_mem hk)
  exact not_differ (hholds (.head _)) (hholds (.tail _ (.head _))) (hholds (.tail _ (.tail _ (.head _))))

end SameColumn

/-- The search gives up, and rightly so. -/
theorem sameColumn_gives_up :
    (inquire (Search.search [2, 4]) sameColumn).1 = .ok none ∧
      ∀ I, ¬ Search.Models ⟨fun _ ↦ 0, false⟩ sameColumn.workspace I := by
  have hnone : (inquire (search [2, 4]) sameColumn).1 = .ok none := by
    obtain ⟨r, hr, hnone⟩ := Option.map_eq_some_iff.1 (show
      (inquire (search [2, 4]) sameColumn).1.toOption.map Option.isNone = some true by decide +kernel)
    rw [Option.isNone_iff_eq_none] at hnone
    exact ok_of_toOption (hnone ▸ hr)
  refine ⟨hnone, search_gives_up (by decide +kernel) (by decide +kernel) (fun tables h ↦ ?_)
    (Prod.ext hnone rfl) SameColumn.honest⟩
  cases SameColumn.tablesOf.symm.trans h
  exact ⟨SameColumn.owned, SameColumn.coverable⟩

/-- What is learned on the way, that the two results cannot be decided as they were, holds in every model. -/
theorem sameColumn_conflicts_follow :
    let b := (inquire (search [2, 4]) sameColumn).2
    b.workspace.formulas.conflicts.map Prod.fst = ["conflict1_project$1&project$2"] ∧
      ∀ c ∈ b.workspace.formulas.conflicts, ∀ I, Models ⟨fun _ ↦ 0, false⟩ sameColumn.workspace I → I.Holds c.2 := by
  refine ⟨by decide +kernel, search_conflicts_follow (by decide +kernel) (by decide +kernel) (fun tables h ↦ ?_)
    [2, 4] SameColumn.honest⟩
  cases SameColumn.tablesOf.symm.trans h
  exact SameColumn.owned

end QueryEquiv
