import QueryEquiv.Ast.OfTree
import QueryEquiv.Proofs.ThreeValued

/-!
# Chains of operands and choices

A sum of several operands is read as sums of two, from the left, and so it is the sum of all of them. A product is
read as one product of all its operands, which has a reading for two of them only (`chains_encoded`).

CASE chooses between its branches, but IF, which is meant as a CASE with one branch, has no reading (`case_encoded`).
-/

namespace QueryEquiv

open Node Term Reading Interpretation Gives Expression

variable {r : Reader} {w v w' : Workspace} {a b : Reading}

/-! ## Two operands -/

/-- A sum or a product of two terms is null if one of them is. -/
theorem Reading.compute_term (op : Arith) (hop : op ≠ .div) (ha : a.1.isPlain = false) :
    compute op [a, b] = .ok (.arith op a.1 b.1, anyNull [a, b]) ∧
      ∀ I : Interpretation, I.read (.arith op a.1 b.1, anyNull [a, b]) = do
        return I.calculate op (← I.read a) (← I.read b) := by
  refine ⟨?_, fun I ↦ ?_⟩
  · have hterm : Term.compute op a.1 b.1 = .ok (.arith op a.1 b.1) := by
      unfold Term.compute
      split <;> simp_all [isPlain]
    cases op <;> simp_all [compute, bind, Except.bind, pure, Except.pure]
  · by_cases hna : I.Holds a.2 <;> by_cases hnb : I.Holds b.2 <;> simp [Interpretation.read, anyNull, hna, hnb]

theorem Term.ensureTruth_ok {t : Term} {k : Option Kind} (h : t.kind = .ok k) : ∃ u, t.ensureTruth = .ok u := by
  rw [ensureTruth, h]
  exact ⟨_, (apply_ite _ _ _ _).symm⟩

theorem Term.ensureNumber_ok {t : Term} {k : Option Kind} (h : t.kind = .ok k) : ∃ u, t.ensureNumber = .ok u := by
  rw [ensureNumber, h]
  exact ⟨_, (apply_ite _ _ _ _).symm⟩

/-! ## Chains -/

namespace Node

/-- An operand among several as it is read. -/
def operand (fuel : Nat) : Value → Outcome Node :=
  operandBy fun v ↦ do if ← isSubquery v then readQuery fuel v else readExpression fuel v

/-- Several operands are read one by one; sums are made of two operands each. -/
theorem readExpression_operands (fuel : Nat) {op : String} (hop : op = "add" ∨ op = "mul") (vs : List Value) :
    readExpression (fuel + 2) (.object [(op, .list vs)]) = (do
      let ns ← vs.mapM (operand fuel)
      if op = "add" then chain (.str op) ns else return expression (.str op) ns .null) := by
  have hlower : Text.lower op = op := by obtain rfl | rfl := hop <;> decide +kernel
  have hgoes : readExpression (fuel + 2) (.object [(op, .list vs)]) =
      readApplication (fuel + 1) (.object [(op, .list vs)]) op (.list vs) := by
    simp [readExpression, Value.count, Value.get?, Value.lookup, bind, Except.bind, pure, Except.pure]
  rw [hgoes, readApplication.eq_def]
  dsimp only
  rw [hlower]
  obtain rfl | rfl := hop
  · rfl
  · rfl

/-- A sum of two. -/
def plus (m n : Node) : Node := expression (.str "add") [m, n] .null

theorem chain_add (n : Node) (ns : List Node) : chain (.str "add") (n :: ns) = .ok (ns.foldl plus n) := by
  rw [chain]
  induction ns generalizing n with
  | nil => rfl
  | cons m ns ih => exact ih (plus n m)

end Node

namespace Expression

/-- An operator is encoded after its operands. -/
theorem operator_gives_iff {op : String} (hop : isOperatorName op = true) {args : List Node} {byname : Value} :
    Gives (encode r (.expression (.str op) args byname)) w b w' ↔
      ∃ rs, Gives (inTurn (readings r args)) w rs w' ∧ operate op rs = .ok b := by
  rw [encode, if_pos hop]
  simp only [bind_iff, lift_iff]
  constructor
  · rintro ⟨rs, v, hrs, hb, rfl⟩
    exact ⟨rs, hrs, hb⟩
  · rintro ⟨rs, hrs, hb⟩
    exact ⟨rs, w', hrs, hb, rfl⟩

theorem inTurn_cons_gives_iff {x : Encoding Reading} {xs : List (Encoding Reading)} {rs : List Reading} :
    Gives (inTurn (x :: xs)) w rs w' ↔ ∃ a v as, Gives x w a v ∧ Gives (inTurn xs) v as w' ∧ rs = a :: as := by
  simp only [inTurn, bind_iff, pure_iff]
  constructor
  · rintro ⟨a, v, ha, as, u, has, rfl, rfl⟩
    exact ⟨a, v, as, ha, has, rfl⟩
  · rintro ⟨a, v, as, ha, has, rfl⟩
    exact ⟨a, v, ha, as, w', has, rfl, rfl⟩

/-- Operands that are added up one by one come to their sum. -/
theorem foldl_plus_encoded {n : Node} {ns : List Node} {rs : List Reading} (hn : Gives (encode r n) w a v)
    (ha : a.1.isPlain = false) (hns : Gives (inTurn (readings r ns)) v rs w') :
    ∃ b, Gives (encode r (ns.foldl plus n)) w b w' ∧
      ∀ I : Interpretation, I.read b = ((a :: rs).mapM I.read).map List.sum := by
  induction ns generalizing n a v rs with
  | nil =>
    obtain ⟨rfl, rfl⟩ := pure_iff.1 hns
    exact ⟨a, hn, fun I ↦ by cases hx : I.read a <;> simp [hx]⟩
  | cons m ns ih =>
    -- The first two operands are one operand of what is left.
    obtain ⟨c, u, cs, hm, hcs, rfl⟩ := inTurn_cons_gives_iff.1 hns
    obtain ⟨hsum, hread⟩ := compute_term .add (b := c) (by simp) ha
    have hpair : Gives (inTurn (readings r [n, m])) w [a, c] u :=
      inTurn_cons_gives_iff.2 ⟨a, v, [c], hn, inTurn_cons_gives_iff.2 ⟨c, u, [], hm, rfl, rfl⟩, rfl⟩
    have hplus : Gives (encode r (plus n m)) w (.arith .add a.1 c.1, anyNull [a, c]) u :=
      (operator_gives_iff rfl).2 ⟨_, hpair, hsum⟩
    obtain ⟨b, hb, htotal⟩ := ih hplus rfl hcs
    refine ⟨b, hb, fun I ↦ ?_⟩
    rw [htotal, List.mapM_cons, hread]
    cases hx : I.read a <;> cases hc : I.read c <;> cases hrest : cs.mapM I.read <;>
      simp [calculate, add_assoc, hx, hc, hrest]

/-- Sums of any length are encoded as the sum of their operands, which is null if one of them is. Products of two
operands are encoded alike, and longer ones are not encoded at all. -/
theorem chains_encoded {fuel : Nat} {vs : List Value} {ns : List Node} {rs : List Reading} (hlen : 2 ≤ vs.length)
    (hread : vs.mapM (Node.operand fuel) = .ok ns) (hrs : Gives (inTurn (readings r ns)) w rs w')
    (hterm : ∀ a ∈ rs, a.1.isPlain = false) :
    (∃ n b, Node.readExpression (fuel + 2) (.object [("add", .list vs)]) = .ok n ∧ Gives (encode r n) w b w' ∧
      ∀ I : Interpretation, I.read b = (rs.mapM I.read).map List.sum) ∧
    ∃ n, Node.readExpression (fuel + 2) (.object [("mul", .list vs)]) = .ok n ∧
      if vs.length = 2 then
        ∃ b, Gives (encode r n) w b w' ∧ ∀ I : Interpretation, I.read b = (rs.mapM I.read).map List.prod
      else exec (encode r n) w = (.error .wrongKind, w') := by
  rw [(Outcome.mapM_ok hread).length_eq] at hlen ⊢
  obtain _ | ⟨n, ns⟩ := ns
  · cases hlen
  obtain ⟨a, v, as, ha, has, rfl⟩ := inTurn_cons_gives_iff.1 hrs
  refine ⟨?_, .expression (.str "mul") (n :: ns) .null, ?_, ?_⟩
  · obtain ⟨b, hb, hsum⟩ := foldl_plus_encoded ha (hterm a List.mem_cons_self) has
    refine ⟨_, b, ?_, hb, hsum⟩
    rw [readExpression_operands fuel (.inl rfl), hread]
    exact chain_add n ns
  · rw [readExpression_operands fuel (.inr rfl), hread]
    rfl
  · obtain _ | ⟨m, _ | ⟨l, ns⟩⟩ := ns
    · simp at hlen
    · obtain ⟨c, u, cs, hm, hcs, rfl⟩ := inTurn_cons_gives_iff.1 has
      obtain ⟨rfl, rfl⟩ := pure_iff.1 hcs
      obtain ⟨hprod, hread⟩ := compute_term .mul (b := c) (by simp) (hterm a List.mem_cons_self)
      rw [if_pos (by rfl)]
      refine ⟨_, (operator_gives_iff rfl).2 ⟨_, hrs, hprod⟩, fun I ↦ ?_⟩
      rw [hread]
      cases hx : I.read a <;> cases hc : I.read c <;> simp [calculate, hx, hc]
    · obtain ⟨c, u, cs, hm, hcs, rfl⟩ := inTurn_cons_gives_iff.1 has
      obtain ⟨d, u, ds, hl, hds, rfl⟩ := inTurn_cons_gives_iff.1 hcs
      rw [if_neg (by simp), encode, if_pos (by rfl), exec_bind, hrs]
      rfl

/-- The readings of expressions without columns and subqueries. -/
def constants : Reader := atRow (fun _ _ ↦ throw .broken) 0 0 none none 0 1

/-- `2 + 3 + 4` is encoded as nine, and `2 * 3 * 4` is not encoded. -/
theorem threeNumbers_encoded : ∃ m n b,
    Node.ofExpressionTree (.object [("add", .list [.int 2, .int 3, .int 4])]) = .ok m ∧
    Node.ofExpressionTree (.object [("mul", .list [.int 2, .int 3, .int 4])]) = .ok n ∧
    Gives (encode constants m) {} b {} ∧ (∀ I : Interpretation, I.read b = some 9) ∧
    exec (encode constants n) {} = (.error .wrongKind, {}) := by
  have hread : [Value.int 2, .int 3, .int 4].mapM (operand 14) =
      .ok [.lit (.int 2), .lit (.int 3), .lit (.int 4)] := rfl
  have hrs : Gives (inTurn (readings constants [.lit (.int 2), .lit (.int 3), .lit (.int 4)])) {}
      [.certain (.ofInt 2), .certain (.ofInt 3), .certain (.ofInt 4)] {} := rfl
  obtain ⟨⟨m, b, hm, hb, hsum⟩, n, hn, hfail⟩ :=
    chains_encoded (by decide) hread hrs (by simp [certain]; decide)
  refine ⟨m, n, b, hm, hn, hb, fun I ↦ ?_, hfail⟩
  simp [hsum, I.read_certain]

/-! ## Choices -/

/-- CASE with one branch chooses between its branches. IF is not encoded, nor can a choice be made of its parts, though
they are read. -/
theorem case_encoded {c y n : Node} {a b d : Reading} {u : Workspace} (byname : Value) (hc : Gives (encode r c) w a v)
    (hy : Gives (encode r y) v b u) (hn : Gives (encode r n) u d w') {i j k : Option Kind}
    (ha : a.1.kind = .ok i) (hb : b.1.kind = .ok j) (hd : d.1.kind = .ok k) :
    (∃ e, Gives (encode r (.caseWhen [(c, y)] n byname)) w e w' ∧
      ∀ I : Interpretation, I.read e = if Sql.IsTrue (I.read a) then I.read b else I.read d) ∧
    exec (encode r (.ifThen c y n byname)) w = (.error .absentField, w) ∧
    exec (choice r c y n) w = (.error .wrongKind, w') := by
  have hmissing : n.isMissing = false := by
    unfold isMissing
    split
    · exact absurd hn not_throw
    · rfl
  obtain ⟨s, hs⟩ := ensureTruth_ok ha
  obtain ⟨t, ht⟩ := ensureNumber_ok hb
  obtain ⟨o, ho⟩ := ensureNumber_ok hd
  refine ⟨⟨orElse (s, a.2) (t, b.2) (o, d.2), ?_, fun I ↦ ?_⟩, rfl, ?_⟩
  · rw [encode, if_neg (by simp [hmissing])]
    simp only [encodeCases, asTruth, asNumber, bind_iff, lift_iff, pure_iff]
    exact ⟨a, v, hc, _, v, ⟨s, v, ⟨hs, rfl⟩, rfl, rfl⟩, b, u, hy, _, u, ⟨t, u, ⟨ht, rfl⟩, rfl, rfl⟩, _, w',
      ⟨d, w', hn, o, w', ⟨ho, rfl⟩, rfl, rfl⟩, rfl, rfl⟩
  · rw [orElse, I.read_ite]
    have hread {x : Reading} {t : Term} (h : x.1.ensureNumber = .ok t) : I.read (t, x.2) = I.read x := by
      rw [Interpretation.read, Interpretation.read, (I.eval_ensureNumber h).1]
    rw [hread ht, hread ho]
    exact if_congr (by simp [I.isTrue_read, (I.holds_ensureTruth hs).1]) rfl rfl
  · -- All three parts are read before it fails.
    rw [choice, exec_bind, hc]
    dsimp only
    rw [exec_bind, hy]
    dsimp only
    rw [exec_bind, hn]
    rfl

/-- `CASE WHEN 3 > 2 THEN 5 ELSE NULL END` is five, but there is no encoding of `IF(3 > 2, 5, NULL)`. -/
theorem greaterNumber_encoded :
    let c : Node := .expression (.str "gt") [.lit (.int 3), .lit (.int 2)] .null
    (∃ e, Gives (encode constants (.caseWhen [(c, .lit (.int 5))] (.lit .null) .null)) {} e {} ∧
      ∀ I : Interpretation, I.read e = some 5) ∧
    exec (encode constants (.ifThen c (.lit (.int 5)) (.lit .null) .null)) {} = (.error .absentField, {}) := by
  intro c
  have hc : Gives (encode constants c) {} (.cmp .gt (.ofInt 3) (.ofInt 2), .or [.bot, .bot]) {} := rfl
  have hy : Gives (encode constants (.lit (.int 5))) {} (.certain (.ofInt 5)) {} := rfl
  have hn : Gives (encode constants (.lit .null)) {} .missing {} := rfl
  obtain ⟨⟨e, he, hread⟩, hfail, -⟩ := case_encoded .null hc hy hn rfl rfl rfl
  refine ⟨⟨e, he, fun I ↦ ?_⟩, hfail⟩
  rw [hread, if_pos, I.read_certain]
  · rfl
  · simp [I.isTrue_read, I.holds_cmp, Comparison.holds]

end Expression

end QueryEquiv
