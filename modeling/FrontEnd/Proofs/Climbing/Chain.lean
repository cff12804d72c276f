import FrontEnd.Proofs.Climbing.Forms
import FrontEnd.Proofs.Climbing.Grouping
import FrontEnd.Proofs.Delivery

/-!
# Precedence climbing

What a loop over operators with a moving threshold makes of operands that are joined by operators is what
the strengths of the operators demand: the ranked tree of the chain, with every comparison `a < b` turned
around (`ParseM.run_expr_of_chain`). The rule reads exactly the chain; it says nothing and changes nothing
else in the parser, except for what a trace shows.
-/

namespace FrontEnd

/-- Lexemes that form operands and binary operators between them. -/
inductive Chain : List Member → List Sighting → List Sighting → Prop
  | operand {x ss us} : Forms (.unary x) ss us → Chain [.operand x] ss us
  | operator {s op x members ss us vs} : Forms (.unary x) ss (s :: us) → s.lexeme.operator? = some op →
      0 < op.precedence → Chain members us vs → Chain (.operand x :: .operator s.pos op :: members) ss vs

namespace Chain

variable {members as bs : List Member} {ss us : List Sighting} {pos : Pos} {op : Operator}

/-- A chain has a chain on both sides of each of its operators. -/
theorem split (h : Chain members ss us) (hmembers : members = as ++ .operator pos op :: bs) :
    ∃ s ts, s.pos = pos ∧ s.lexeme.operator? = some op ∧ 0 < op.precedence ∧ Chain as ss (s :: ts) ∧
      Chain bs ts us := by
  induction h generalizing as with
  | operand hx =>
    have hop : Member.operator pos op ∈ as ++ .operator pos op :: bs :=
      List.mem_append_right _ List.mem_cons_self
    rw [← hmembers] at hop
    cases List.mem_singleton.mp hop
  | @operator s op' x members ss ts us hx ho hpos hrest ih =>
    -- What stands before the operator is nothing, which cannot be, or one operand, or more than that.
    match as with
    | [] => cases hmembers
    | [a] =>
      cases hmembers
      exact ⟨s, ts, rfl, ho, hpos, .operand hx, hrest⟩
    | a :: b :: as =>
      obtain ⟨ha, hmembers'⟩ := List.cons_eq_cons.mp hmembers
      obtain ⟨hb, hmembers''⟩ := List.cons_eq_cons.mp hmembers'
      cases ha
      cases hb
      obtain ⟨r, rs, hr, hor, hposr, has, hbs⟩ := ih hmembers''
      exact ⟨r, rs, hr, hor, hposr, .operator hx ho hpos has, hbs⟩

/-- A ranked tree grows by an operator and a chain. -/
theorem exists_ranked_append (h : Chain members ss us) {s : Grouping} (hs : s.Ranked) (pos : Pos)
    (op : Operator) :
    ∃ t : Grouping, t.reading = s.reading ++ .operator pos op :: members ∧ t.Ranked := by
  induction h generalizing s pos op with
  | @operand x _ _ _ => exact ⟨s.push pos op x, s.reading_push x, hs.push pos op x⟩
  | @operator r op' x members _ _ _ _ _ _ _ ih =>
    obtain ⟨t, htr, ht⟩ := ih (hs.push pos op x) r.pos op'
    refine ⟨t, ?_, ht⟩
    rw [htr, Grouping.reading_push, List.append_assoc]
    rfl

/-- Every chain is grouped by a ranked tree. -/
theorem exists_ranked (h : Chain members ss us) : ∃ t : Grouping, t.reading = members ∧ t.Ranked := by
  cases h with
  | @operand x _ _ _ => exact ⟨.leaf x, rfl, trivial⟩
  | @operator s op x _ _ _ _ _ _ _ hrest => exact hrest.exists_ranked_append (s := .leaf x) trivial s.pos op

/-- A chain forms the expression that its ranked tree makes of it. -/
theorem forms {t : Grouping} (ht : t.Ranked) (h : Chain t.reading ss us) {floor : Nat}
    (hfloor : ∀ o ∈ t.top?, floor < o.precedence) : Forms (.binary floor t.toExpr) ss us := by
  induction t generalizing ss us floor with
  | leaf x =>
    cases h with
    | operand hx => exact .operand hx
  | node pos op left right ihl ihr =>
    obtain ⟨hleft, hright, hle, hlt⟩ := ht
    obtain ⟨s, ts, rfl, ho, hpos, hl, hr⟩ := h.split rfl
    have hbelow : ∀ o ∈ left.top?, op.precedence - 1 < o.precedence := by
      intro o ho
      have := hle o ho
      omega
    exact .operation ho (hfloor op rfl) (ihl hleft hl hbelow) (ihr hright hr hlt)

end Chain

namespace ParseM

/-- Operands that are joined by operators, with something after them that goes on with no expression, are
read as the only ranked tree over them, and nothing else happens. -/
theorem run_expr_of_chain {members : List Member} {ss us : List Sighting} (h : Chain members ss us)
    (hstop : Stops (lexemes us)) :
    ∃ t : Grouping, t.reading = members ∧ t.Ranked ∧
      (∀ t' : Grouping, t'.reading = members → t'.Ranked → t' = t) ∧
      ∀ (p : Parser) (budget : Nat), p.Sees ss → 16 * ss.length + 6 ≤ budget →
        ((expr budget).run p).1 = t.toExpr ∧ Parser.Past ss us p ((expr budget).run p).2 := by
  obtain ⟨t, rfl, ht⟩ := h.exists_ranked
  refine ⟨t, rfl, ht, fun t' htr ht' => Grouping.eq_of_reading_eq ht' ht htr, fun p budget hp hb => ?_⟩
  have hfloor : ∀ o ∈ t.top?, 0 < o.precedence := by
    cases t with
    | leaf x => exact nofun
    | node pos op left right =>
      obtain ⟨s, ts, -, -, hpos, -⟩ := h.split rfl
      rintro o ⟨⟩
      exact hpos
  obtain ⟨q, hq, hrun⟩ := yields_expr (h.forms ht hfloor) hstop hb p hp
  rw [hrun]
  exact ⟨rfl, hq⟩

/-- A difference with a product in it, and then a comparison with something negated. -/
theorem run_expr_of_chain_less :
    let p := Parser.start (.file "f") (Reader.ofBytes "a - b * c < !d".toUTF8).scans true false
    let pos (col : Nat) : Pos := ⟨.file "f", ⟨1, col⟩⟩
    let name (text : String) (col : Nat) : Sighting :=
      ⟨⟨.name, text, .int, false, none, 0, true, ⟨1, col⟩⟩, pos col⟩
    let op (op : Operator) (t : Token) (text : String) (col : Nat) : Sighting :=
      ⟨⟨t, text, .int, false, some op, op.precedence, false, ⟨1, col⟩⟩, pos col⟩
    let us : List Sighting := [⟨⟨.semi, "EOF", .int, false, none, 0, false, ⟨1, 15⟩⟩, pos 15⟩]
    let ss := name "a" 1 :: op .sub .op "a" 3 :: name "b" 5 :: op .mul .star "b" 7 :: name "c" 9 ::
      op .less .op "c" 11 :: op .not .op "c" 13 :: name "d" 14 :: us
    let x (text : String) (col : Nat) : Expr := .name ⟨pos col, text⟩
    Stops (lexemes us) ∧ p.Sees ss ∧
      Chain [.operand (x "a" 1), .operator (pos 3) .sub, .operand (x "b" 5), .operator (pos 7) .mul,
        .operand (x "c" 9), .operator (pos 11) .less, .operand (.unary (pos 13) .not (x "d" 14))] ss us ∧
      ∀ budget, 150 ≤ budget → ((expr budget).run p).1 =
          .binary (pos 11) .greater (.unary (pos 13) .not (x "d" 14))
            (.binary (pos 3) .sub (x "a" 1) (.binary (pos 7) .mul (x "b" 5) (x "c" 9))) ∧
        Parser.Past ss us p ((expr budget).run p).2 := by
  intro p pos name op us ss x
  have hstop : Stops (lexemes us) := stops_of_token rfl
  have hp : p.Sees ss := by decide +kernel
  have hname (text : String) (col : Nat) (us : List Sighting) :
      Forms (.unary (x text col)) (name text col :: us) us := .primary (.name (s := name text col) rfl)
  have hnot : Forms (.unary (.unary (pos 13) .not (x "d" 14))) (op .not .op "c" 13 :: name "d" 14 :: us) us :=
    .unary (s := op .not .op "c" 13) rfl rfl (hname "d" 14 us)
  have hchain : Chain [.operand (x "a" 1), .operator (pos 3) .sub, .operand (x "b" 5), .operator (pos 7) .mul,
      .operand (x "c" 9), .operator (pos 11) .less, .operand (.unary (pos 13) .not (x "d" 14))] ss us :=
    .operator (s := op .sub .op "a" 3) (hname "a" 1 _) rfl (by decide) <|
      .operator (s := op .mul .star "b" 7) (hname "b" 5 _) rfl (by decide) <|
        .operator (s := op .less .op "c" 11) (hname "c" 9 _) rfl (by decide) (.operand hnot)
  -- The tree that `expr` returns is some ranked tree of the chain; the one written out below is ranked, hence
  -- it.
  obtain ⟨t, -, -, hunique, hrun⟩ := run_expr_of_chain hchain hstop
  let ranked : Grouping := .node (pos 11) .less
    (.node (pos 3) .sub (.leaf (x "a" 1)) (.node (pos 7) .mul (.leaf (x "b" 5)) (.leaf (x "c" 9))))
    (.leaf (.unary (pos 13) .not (x "d" 14)))
  have hranked : ranked.Ranked := by simp [ranked, Grouping.Ranked, Grouping.top?, Operator.precedence]
  obtain rfl : ranked = t := hunique ranked rfl hranked
  exact ⟨hstop, hp, hchain, fun budget hb => hrun p budget hp hb⟩

end ParseM

end FrontEnd
