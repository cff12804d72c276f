import FrontEnd.Proofs.Climbing.Sight
import FrontEnd.Proofs.Grammar.Taken.Expr

/-!
# What is formed is read

Lexemes form an expression (`Forms`) as they spell it, and each of its nodes has the position of a certain
lexeme: an operation that of its operator, a selection that of its point, anything else that of its first
bracket or of its only lexeme. So here the lexemes determine the tree, positions included.

Whatever forms an expression is read as exactly that, and nothing else happens (`ParseM.yields_expr`). The
loop over operators is followed turn by turn: when it has got over what forms an expression, it goes on as
if it had started with that (`ParseM.Leading`), however weak the operators are that it was after.
-/

namespace FrontEnd

/-- The lexeme as an identifier. -/
def Sighting.ident (s : Sighting) : Ident := ⟨s.pos, s.lexeme.literal⟩

/-- The lexeme as a literal. -/
def Sighting.literal (s : Sighting) : Literal := ⟨s.pos, s.lexeme.literal, s.lexeme.kind, s.lexeme.bad⟩

/-- A type. -/
inductive FormsType : Expr → List Sighting → List Sighting → Prop
  | name {s ss} : s.lexeme.token = .name → FormsType (.name s.ident) (s :: ss) ss
  | slice {s r elem ss us} : s.lexeme.token = .lbrack → r.lexeme.token = .rbrack → FormsType elem ss us →
      FormsType (.sliceType s.pos elem) (s :: r :: ss) us

/-- An expression or a part of one. -/
inductive Forms : ExprPhrase → List Sighting → List Sighting → Prop
  | operation {floor s op x y ss us vs} : s.lexeme.operator? = some op → floor < op.precedence →
      Forms (.binary (op.precedence - 1) x) ss (s :: us) → Forms (.binary op.precedence y) us vs →
      Forms (.binary floor (.operation s.pos op x y)) ss vs
  | operand {floor x ss us} : Forms (.unary x) ss us → Forms (.binary floor x) ss us
  | unary {s op x ss us} : s.lexeme.operator? = some op → op.isUnary → Forms (.unary x) ss us →
      Forms (.unary (.unary s.pos op x)) (s :: ss) us
  | primary {x ss us} : Forms (.primary x) ss us → Forms (.unary x) ss us
  | name {s ss} : s.lexeme.token = .name → Forms (.primary (.name s.ident)) (s :: ss) ss
  | literal {s ss} : s.lexeme.token = .literal → Forms (.primary (.literal s.literal)) (s :: ss) ss
  | sliceType {pos elem ss us} : FormsType (.sliceType pos elem) ss us → peek (lexemes us) ≠ .lbrace →
      Forms (.primary (.sliceType pos elem)) ss us
  | sliceLit {pos elem xs s r ss us vs} : FormsType (.sliceType pos elem) ss (s :: us) →
      s.lexeme.token = .lbrace → Forms (.list xs) us (r :: vs) → r.lexeme.token = .rbrace →
      Forms (.primary (.sliceLit pos elem xs)) ss vs
  | paren {s r x ss us} : s.lexeme.token = .lparen → Forms (.binary 0 x) ss (r :: us) →
      r.lexeme.token = .rparen → Forms (.primary (.paren s.pos x)) (s :: ss) us
  | selector {d f x ss us} : Forms (.primary x) ss (d :: f :: us) → d.lexeme.token = .dot →
      f.lexeme.token = .name → Forms (.primary (.selector d.pos x f.ident)) ss us
  | index {s r x i ss us vs} : Forms (.primary x) ss (s :: us) → s.lexeme.token = .lbrack →
      Forms (.binary 0 i) us (r :: vs) → r.lexeme.token = .rbrack →
      Forms (.primary (.index s.pos x i)) ss vs
  | call {s r x xs ss us vs} : Forms (.primary x) ss (s :: us) → s.lexeme.token = .lparen →
      Forms (.list xs) us (r :: vs) → r.lexeme.token = .rparen →
      Forms (.primary (.call s.pos x xs)) ss vs
  | nil {ss} : Forms (.list []) ss ss
  | last {x ss us} : Forms (.binary 0 x) ss us → Forms (.list [x]) ss us
  | cons {s x xs ss us vs} : Forms (.binary 0 x) ss (s :: us) → s.lexeme.token = .comma →
      Forms (.list xs) us vs → Forms (.list (x :: xs)) ss vs

section

variable {ss us : List Sighting} {x : Expr}

/-! ## What is formed is spelled -/

/-- What forms a type spells it. -/
theorem FormsType.spells (h : FormsType x ss us) : SpellsType x (lexemes ss) (lexemes us) := by
  induction h with
  | name hs => exact .name _ hs
  | slice hs hr _ ih => exact .slice _ hs hr ih

/-- What forms an expression spells it. -/
theorem Forms.spells {e : ExprPhrase} (h : Forms e ss us) : SpellsExpr e (lexemes ss) (lexemes us) := by
  induction h with
  | operation ho hfloor _ _ ihx ihy => exact .operation _ ho hfloor ihx ihy
  | operand _ ih => exact .operand ih
  | unary ho hop _ ih => exact .unary _ ho hop ih
  | primary _ ih => exact .primary ih
  | name hs => exact .name _ hs
  | literal hs => exact .literal _ hs
  | sliceType hx hpeek => exact .sliceType hx.spells hpeek
  | sliceLit hx hs _ hr ih => exact .sliceLit hx.spells hs ih hr
  | paren hs _ hr ih => exact .paren _ hs ih hr
  | selector _ hd hf ih => exact .selector _ _ ih hd hf
  | index _ hs _ hr ihx ihi => exact .index _ ihx hs ihi hr
  | call _ hs _ hr ihx ihxs => exact .call _ ihx hs ihxs hr
  | nil => exact .nil
  | last _ ih => exact .last ih
  | cons _ hs _ ihx ihxs => exact .cons ihx hs ihxs

/-- A type takes a lexeme. -/
theorem FormsType.length_lt (h : FormsType x ss us) : us.length < ss.length := by
  simpa using h.spells.length_lt

/-- An expression takes a lexeme. -/
theorem Forms.length_lt {floor : Nat} (h : Forms (.binary floor x) ss us) : us.length < ss.length := by
  simpa using h.spells.length_lt

/-- A phrase takes as many lexemes as it must. -/
theorem Forms.length_le {e : ExprPhrase} (h : Forms e ss us) : us.length + e.least ≤ ss.length := by
  simpa using h.spells.length_le

end

namespace ParseM

variable {ss us vs : List Sighting} {s : Sighting} {budget : Nat}

/-! ## Names, literals and types -/

/-- A name is read as an identifier at its position. -/
theorem yields_ident (hs : s.lexeme.token = .name) : Yields (s :: ss) ident s.ident ss := by
  refine .onHere (.onToken ?_)
  rw [lexemes_cons, peek_cons, hs, if_pos rfl]
  exact .onCurrent (.onNext (.refl _))

/-- A literal is read at its position. -/
theorem yields_literal : Yields (s :: ss) literal s.literal ss := .onHere (.onCurrent (.onNext (.refl _)))

/-- What forms a type is read as it. -/
theorem yields_type? {x : Expr} (h : FormsType x ss us) :
    ∀ {budget : Nat}, 16 * ss.length + 2 ≤ budget → Yields ss (type? budget) (some x) us := by
  induction h with
  | name hs =>
    intro budget hb
    obtain ⟨budget, rfl⟩ := Nat.exists_eq_add_of_le' (show 1 ≤ budget by omega)
    refine .onToken ?_
    rw [lexemes_cons, peek_cons, hs]
    exact .bind (yields_ident hs) (.refl _)
  | slice hs hr _ ih =>
    intro budget hb
    simp only [List.length_cons] at hb
    obtain ⟨budget, rfl⟩ := Nat.exists_eq_add_of_le' (show 2 ≤ budget by omega)
    refine .onToken ?_
    rw [lexemes_cons, peek_cons, hs]
    exact .onHere (.bind (.traced _ (.onNext (.onWant hr (.bind (ih (by omega)) (.refl _))))) (.refl _))

/-- What forms a slice type is read as its elements' type, behind the brackets. -/
theorem yields_sliceElem {pos : Pos} {x : Expr} (h : FormsType (.sliceType pos x) ss us)
    (hb : 16 * ss.length + 1 ≤ budget) : ∃ s ts, ss = s :: ts ∧ s.pos = pos ∧ s.lexeme.token = .lbrack ∧
      Yields ss (sliceElem budget) x us := by
  cases h with
  | @slice s _ _ _ _ hs hr hx =>
    simp only [List.length_cons] at hb
    obtain ⟨budget, rfl⟩ := Nat.exists_eq_add_of_le' (show 1 ≤ budget by omega)
    exact ⟨s, _, rfl, rfl, hs,
      .traced _ (.onNext (.onWant hr (.bind (yields_type? hx (by omega)) (.refl _))))⟩

/-! ## Loops -/

/-- A loop over operators is left where none binds strongly enough. -/
theorem yields_binaryRest (floor : Nat) (x : Expr) (hweak : Weak floor (lexemes ss)) (hb : 1 ≤ budget) :
    Yields ss (binaryRest floor x budget) x ss := by
  obtain ⟨budget, rfl⟩ := Nat.exists_eq_add_of_le' hb
  refine .onGet fun q hq => ?_
  rw [hq.operator?]
  split
  · next op ho =>
    rw [if_neg (Nat.not_lt.mpr (hweak op ho))]
    exact .refl _
  · exact .refl _

/-- A loop over what comes after an operand is left where the operand does not go on. -/
theorem yields_primaryRest (x : Expr) (hstop : (peek (lexemes ss)).extendsOperand = false) (hb : 1 ≤ budget) :
    Yields ss (primaryRest x budget) x ss := by
  obtain ⟨budget, rfl⟩ := Nat.exists_eq_add_of_le' hb
  refine .onAnyHere fun pos => .onToken ?_
  split
  iterate 3
    rename_i h
    rw [h] at hstop
    cases hstop
  exact .refl _

section

variable {kind : ListKind} {element : ParseM Expr} {x : Expr} {xs : List Expr}

/-- A list ends with its closer. -/
theorem yields_list_nil (hs : s.lexeme.token = kind.closer) :
    Yields (s :: ss) (list kind element (budget + 1)) [] ss := by
  refine .onToken ?_
  rw [lexemes_cons, peek_cons, hs, if_pos (.inr rfl)]
  exact .onWant hs (.refl _)

/-- A list goes on after an element and a separator. -/
theorem yields_list_cons (hss : peek (lexemes ss) ≠ .eof) (hss' : peek (lexemes ss) ≠ kind.closer)
    (hx : Yields ss element x (s :: us)) (hs : s.lexeme.token = kind.separator)
    (hxs : Yields us (list kind element budget) xs vs) :
    Yields ss (list kind element (budget + 1)) (x :: xs) vs := by
  refine .onToken ?_
  rw [if_neg (by simp [hss, hss'])]
  exact .bind hx (.onGot hs (.bind hxs (.refl _)))

/-- The separator after the last element of a list may be left out. -/
theorem yields_list_last (hss : peek (lexemes ss) ≠ .eof) (hss' : peek (lexemes ss) ≠ kind.closer)
    (hx : Yields ss element x (s :: us)) (hs : s.lexeme.token = kind.closer) :
    Yields ss (list kind element (budget + 2)) [x] us := by
  have hmissed : peek (lexemes (s :: us)) ≠ kind.separator := by
    rw [lexemes_cons, peek_cons, hs]
    cases kind <;> decide
  refine .onToken ?_
  rw [if_neg (by simp [hss, hss'])]
  refine .bind hx (.onMissed hmissed (.onToken ?_))
  rw [lexemes_cons, peek_cons, hs, if_pos rfl]
  exact .bind (yields_list_nil hs) (.refl _)

end

/-! ## Expressions -/

/-- A loop gets over the lexemes from `ss` to `us` as the phrase, with enough of its budget left. -/
def Leading (ss us : List Sighting) : ExprPhrase → Prop
  | .binary floor x => ∀ {budget floor'}, floor' ≤ floor → (peek (lexemes us)).extendsOperand = false →
      Weak (floor + 1) (lexemes us) → 16 * ss.length + 5 ≤ budget → ∃ c, 16 * us.length + 1 ≤ c ∧
        Leads ss (binaryExpr floor' budget) us (binaryRest floor' x c)
  | .unary x => ∀ {budget}, (peek (lexemes us)).extendsOperand = false → 16 * ss.length + 4 ≤ budget →
      Yields ss (unaryExpr budget) x us
  | .primary x => ∀ {budget}, 16 * ss.length + 2 ≤ budget → ∃ c, 16 * us.length + 1 ≤ c ∧
      Leads ss (operand budget >>= fun y => primaryRest y budget) us (primaryRest x c)
  | .list xs => ∀ {budget budget'} (kind : ListKind) {s vs}, us = s :: vs → kind.separator = .comma →
      s.lexeme.token = kind.closer → 16 * ss.length + 6 ≤ budget' → 16 * ss.length + 1 ≤ budget →
      Yields ss (list kind (expr budget') budget) xs vs

/-- What a loop gets over is read as an expression, if it stops behind it. -/
theorem yields_of_leading {x : Expr} (h : Leading ss us (.binary 0 x)) (hstop : Stops (lexemes us))
    (hb : 16 * ss.length + 6 ≤ budget) : Yields ss (expr budget) x us := by
  obtain ⟨budget, rfl⟩ := Nat.exists_eq_add_of_le' (show 1 ≤ budget by omega)
  have hweak : Weak (0 + 1) (lexemes us) := fun op ho => Nat.le_succ_of_le (hstop.weak op ho)
  obtain ⟨c, hc, hleads⟩ := h (Nat.le_refl 0) hstop.operand hweak (show 16 * ss.length + 5 ≤ budget by omega)
  exact .traced _ (hleads.trans (yields_binaryRest 0 x hstop.weak (by omega)))

/-- The loop over operators takes an operator with its right operand. -/
theorem leading_operation {floor : Nat} {op : Operator} {x y : Expr} (ho : s.lexeme.operator? = some op)
    (hfloor : floor < op.precedence) (hx : Leading ss (s :: us) (.binary (op.precedence - 1) x))
    (hy : Leading us vs (.binary op.precedence y)) (hlen : vs.length ≤ us.length) :
    Leading ss vs (.binary floor (.operation s.pos op x y)) := by
  intro budget floor' hle hstop hweak hb
  have hoperand : (peek (lexemes (s :: us))).extendsOperand = false := by
    rw [lexemes_cons, peek_cons]
    rcases Lexeme.token_of_operator? ho with h | h <;> rw [h] <;> rfl
  have hself : Weak (op.precedence - 1 + 1) (lexemes (s :: us)) := by
    intro op' ho'
    obtain rfl := Option.some.inj (ho.symm.trans ho')
    omega
  obtain ⟨c, hc, hleft⟩ := hx (show floor' ≤ op.precedence - 1 by omega) hoperand hself hb
  simp only [List.length_cons] at hc
  obtain ⟨c, rfl⟩ := Nat.exists_eq_add_of_le' (show 1 ≤ c by omega)
  -- The right operand is read by a loop of its own, which leaves the operators that bind as strongly.
  have hright : Yields us (binaryExpr op.precedence c) y vs := by
    have hnext : Weak (op.precedence + 1) (lexemes vs) := fun op' ho' =>
      Nat.le_trans (hweak op' ho') (Nat.succ_le_succ (Nat.le_of_lt hfloor))
    obtain ⟨d, hd, hleads⟩ := hy (Nat.le_refl _) hstop hnext (show 16 * us.length + 5 ≤ c by omega)
    have hweak' : Weak op.precedence (lexemes vs) := fun op' ho' => Nat.le_trans (hweak op' ho') hfloor
    exact hleads.trans (yields_binaryRest _ y hweak' (by omega))
  refine ⟨c, by omega, hleft.trans (.onGet fun q hq => ?_)⟩
  rw [hq.operator?, show (lexemes (s :: us)).head?.bind Lexeme.operator? = some op from ho]
  dsimp only
  rw [if_pos (show floor' < op.precedence by omega)]
  refine .onHere (.onRemark (.onNext (.bind hright ?_)))
  unfold Expr.operation
  split <;> exact .refl _

/-- The loop gets over what has no operator of two operands. -/
theorem leading_operand {floor : Nat} {x : Expr} (hx : Leading ss us (.unary x))
    (hlen : us.length < ss.length) :
    Leading ss us (.binary floor x) := by
  intro budget floor' _ hstop _ hb
  obtain ⟨budget, rfl⟩ := Nat.exists_eq_add_of_le' (show 1 ≤ budget by omega)
  exact ⟨budget, by omega, .bind (hx hstop (by omega)) (.refl _)⟩

/-- The loop gets over a unary operation. -/
theorem leading_unary {op : Operator} {x : Expr} (ho : s.lexeme.operator? = some op) (hop : op.isUnary)
    (hx : Leading ss us (.unary x)) : Leading (s :: ss) us (.unary (.unary s.pos op x)) := by
  intro budget hstop hb
  rw [List.length_cons] at hb
  obtain ⟨budget, rfl⟩ := Nat.exists_eq_add_of_le' (show 1 ≤ budget by omega)
  refine .traced _ (.onGet fun q hq => ?_)
  have hfilter : q.operator?.filter Operator.isUnary = some op := by
    rw [hq.operator?]
    exact Option.filter_eq_some_iff.mpr ⟨ho, hop⟩
  rw [hfilter]
  exact .onHere (.onNext (.bind (hx hstop (by omega)) (.refl _)))

/-- The loop gets over an operand with what follows it. -/
theorem leading_primary {x : Expr} (hx : Leading ss us (.primary x))
    (hnone : (lexemes ss).head?.bind Lexeme.operator? = none) : Leading ss us (.unary x) := by
  intro budget hstop hb
  obtain ⟨budget, rfl⟩ := Nat.exists_eq_add_of_le' (show 2 ≤ budget by omega)
  refine .traced _ (.onGet fun q hq => ?_)
  rw [hq.operator?, hnone]
  obtain ⟨c, hc, hleads⟩ := hx (show 16 * ss.length + 2 ≤ budget by omega)
  exact .traced _ (hleads.trans (yields_primaryRest x hstop (by omega)))

/-- An operand by itself is read before anything that comes after it. -/
theorem leading_of_operand {x : Expr} (hlen : us.length < ss.length)
    (h : ∀ {budget}, 16 * ss.length + 2 ≤ budget → Yields ss (operand budget) x us) :
    Leading ss us (.primary x) := by
  intro budget hb
  exact ⟨budget, by omega, .bind (h hb) (.refl _)⟩

/-- The loop over what comes after an operand goes on. -/
theorem leading_of_rest {x y : Expr} (hx : Leading ss us (.primary x)) (hlen : vs.length < us.length)
    (h : ∀ {budget}, 16 * us.length ≤ budget →
      Leads us (primaryRest x (budget + 1)) vs (primaryRest y budget)) :
    Leading ss vs (.primary y) := by
  intro budget hb
  obtain ⟨c, hc, hleads⟩ := hx hb
  obtain ⟨c, rfl⟩ := Nat.exists_eq_add_of_le' (show 1 ≤ c by omega)
  exact ⟨c, by omega, hleads.trans (h (by omega))⟩

/-- The loop gets over a name. -/
theorem leading_name (hs : s.lexeme.token = .name) : Leading (s :: ss) ss (.primary (.name s.ident)) := by
  refine leading_of_operand (Nat.lt_succ_self _) fun {budget} hb => ?_
  obtain ⟨budget, rfl⟩ := Nat.exists_eq_add_of_le' (show 1 ≤ budget by omega)
  refine .traced _ (.onToken ?_)
  rw [lexemes_cons, peek_cons, hs]
  exact .bind (yields_ident hs) (.onRemark (.refl _))

/-- The loop gets over a literal. -/
theorem leading_literal (hs : s.lexeme.token = .literal) :
    Leading (s :: ss) ss (.primary (.literal s.literal)) := by
  refine leading_of_operand (Nat.lt_succ_self _) fun {budget} hb => ?_
  obtain ⟨budget, rfl⟩ := Nat.exists_eq_add_of_le' (show 1 ≤ budget by omega)
  refine .traced _ (.onToken ?_)
  rw [lexemes_cons, peek_cons, hs]
  exact .bind yields_literal (.onRemark (.refl _))

/-- The loop gets over a slice type, unless a brace opens its elements. -/
theorem leading_sliceType {pos : Pos} {elem : Expr} (h : FormsType (.sliceType pos elem) ss us)
    (hpeek : peek (lexemes us) ≠ .lbrace) : Leading ss us (.primary (.sliceType pos elem)) := by
  refine leading_of_operand h.length_lt fun {budget} hb => ?_
  obtain ⟨budget, rfl⟩ := Nat.exists_eq_add_of_le' (show 1 ≤ budget by omega)
  obtain ⟨s, ts, rfl, rfl, hs, helem⟩ := yields_sliceElem h (show 16 * ss.length + 1 ≤ budget by omega)
  refine .traced _ (.onToken ?_)
  rw [lexemes_cons, peek_cons, hs]
  refine .onHere (.bind helem (.onToken ?_))
  rw [if_neg hpeek]
  exact .refl _

/-- The loop gets over a slice with its elements. -/
theorem leading_sliceLit {pos : Pos} {elem : Expr} {xs : List Expr} {r : Sighting}
    (h : FormsType (.sliceType pos elem) ss (s :: us)) (hs : s.lexeme.token = .lbrace)
    (hxs : Leading us (r :: vs) (.list xs)) (hr : r.lexeme.token = .rbrace)
    (hlen : (r :: vs).length ≤ us.length) : Leading ss vs (.primary (.sliceLit pos elem xs)) := by
  have htype := h.length_lt
  simp only [List.length_cons] at htype hlen
  have hlt : vs.length < ss.length := by omega
  apply leading_of_operand hlt
  intro budget hb
  obtain ⟨budget, rfl⟩ := Nat.exists_eq_add_of_le' (show 1 ≤ budget by omega)
  obtain ⟨b, ts, rfl, rfl, hb', helem⟩ := yields_sliceElem h (show 16 * ss.length + 1 ≤ budget by omega)
  refine .traced _ (.onToken ?_)
  rw [lexemes_cons, peek_cons, hb']
  refine .onHere (.bind helem (.onToken ?_))
  rw [lexemes_cons, peek_cons, hs, if_pos rfl]
  exact .onNext (.bind (hxs .elements rfl rfl hr (by omega) (by omega)) (.refl _))

/-- The loop gets over parentheses. -/
theorem leading_paren {x : Expr} {r : Sighting} (hs : s.lexeme.token = .lparen)
    (hx : Leading ss (r :: us) (.binary 0 x)) (hr : r.lexeme.token = .rparen)
    (hlen : (r :: us).length ≤ ss.length) : Leading (s :: ss) us (.primary (.paren s.pos x)) := by
  simp only [List.length_cons] at hlen
  refine leading_of_operand (by rw [List.length_cons]; omega) fun {budget} hb => ?_
  rw [List.length_cons] at hb
  obtain ⟨budget, rfl⟩ := Nat.exists_eq_add_of_le' (show 1 ≤ budget by omega)
  have hstop : Stops (lexemes (r :: us)) := stops_of_token (by rw [lexemes_cons, peek_cons, hr]; rfl)
  refine .traced _ (.onToken ?_)
  rw [lexemes_cons, peek_cons, hs]
  exact .onHere (.onNext (.bind (yields_of_leading hx hstop (by omega)) (.onWant hr (.refl _))))

/-- The loop gets over a selection, which has the position of its point. -/
theorem leading_selector {x : Expr} {d f : Sighting} (hx : Leading ss (d :: f :: us) (.primary x))
    (hd : d.lexeme.token = .dot) (hf : f.lexeme.token = .name) :
    Leading ss us (.primary (.selector d.pos x f.ident)) := by
  have hlen : us.length < (d :: f :: us).length := by simp only [List.length_cons]; omega
  apply leading_of_rest hx hlen
  intro budget _
  refine .onHere (.onToken ?_)
  rw [lexemes_cons, peek_cons, hd]
  refine .onNext (.onToken ?_)
  rw [lexemes_cons, peek_cons, hf, if_pos rfl]
  exact .bind (yields_ident hf) (.refl _)

/-- The loop gets over an index, which has the position of its bracket. -/
theorem leading_index {x i : Expr} {r : Sighting} (hx : Leading ss (s :: us) (.primary x))
    (hs : s.lexeme.token = .lbrack) (hi : Leading us (r :: vs) (.binary 0 i)) (hr : r.lexeme.token = .rbrack)
    (hlen : (r :: vs).length ≤ us.length) : Leading ss vs (.primary (.index s.pos x i)) := by
  have hstop : Stops (lexemes (r :: vs)) := stops_of_token (by rw [lexemes_cons, peek_cons, hr]; rfl)
  simp only [List.length_cons] at hlen
  have hlt : vs.length < (s :: us).length := by rw [List.length_cons]; omega
  apply leading_of_rest hx hlt
  intro budget hb
  refine .onHere (.onToken ?_)
  rw [List.length_cons] at hb
  rw [lexemes_cons, peek_cons, hs]
  exact .onNext (.bind (yields_of_leading hi hstop (by omega)) (.onWant hr (.refl _)))

/-- The loop gets over a call, which has the position of its parenthesis. -/
theorem leading_call {x : Expr} {xs : List Expr} {r : Sighting} (hx : Leading ss (s :: us) (.primary x))
    (hs : s.lexeme.token = .lparen) (hxs : Leading us (r :: vs) (.list xs)) (hr : r.lexeme.token = .rparen)
    (hlen : (r :: vs).length ≤ us.length) : Leading ss vs (.primary (.call s.pos x xs)) := by
  simp only [List.length_cons] at hlen
  have hlt : vs.length < (s :: us).length := by rw [List.length_cons]; omega
  apply leading_of_rest hx hlt
  intro budget hb
  refine .onHere (.onToken ?_)
  rw [List.length_cons] at hb
  rw [lexemes_cons, peek_cons, hs]
  exact .onNext (.bind (.traced _ (hxs .arguments rfl rfl hr (by omega) (by omega))) (.refl _))

/-- Whatever forms a phrase is read as that phrase. -/
theorem leading {e : ExprPhrase} (h : Forms e ss us) : Leading ss us e := by
  -- One lemma a production; budgets are compared by the sightings left, since each phrase consumes at least
  -- one.
  induction h with
  | operation ho hfloor _ hy ihx ihy => exact leading_operation ho hfloor ihx ihy (Nat.le_of_lt hy.length_lt)
  | operand hx ih => exact leading_operand ih hx.length_le
  | unary ho hop _ ih => exact leading_unary ho hop ih
  | primary hx ih => exact leading_primary ih hx.spells.operator?_eq_none
  | name hs => exact leading_name hs
  | literal hs => exact leading_literal hs
  | sliceType hx hpeek => exact leading_sliceType hx hpeek
  | sliceLit hx hs hxs hr ih => exact leading_sliceLit hx hs ih hr hxs.length_le
  | paren hs hx hr ih => exact leading_paren hs ih hr (Nat.le_of_lt hx.length_lt)
  | selector _ hd hf ih => exact leading_selector ih hd hf
  | index _ hs hi hr ihx ihi => exact leading_index ihx hs ihi hr (Nat.le_of_lt hi.length_lt)
  | call _ hs hxs hr ihx ihxs => exact leading_call ihx hs ihxs hr hxs.length_le
  -- The three shapes of a list end at its closing bracket, after a last element or after a comma.
  | nil =>
    rintro budget budget' kind s vs rfl - hs - hb
    obtain ⟨budget, rfl⟩ := Nat.exists_eq_add_of_le' (show 1 ≤ budget by omega)
    exact yields_list_nil hs
  | last hx ih =>
    rintro budget budget' kind s vs rfl hkind hs hb' hb
    have hlen := hx.length_lt
    rw [List.length_cons] at hlen
    obtain ⟨budget, rfl⟩ := Nat.exists_eq_add_of_le' (show 2 ≤ budget by omega)
    have hstop : Stops (lexemes (s :: vs)) :=
      stops_of_token (by rw [lexemes_cons, peek_cons, hs]; cases kind <;> rfl)
    exact yields_list_last (peek_ne_of_startsExpr hx.spells.first rfl)
      (peek_ne_of_startsExpr hx.spells.first (by cases kind <;> rfl))
      (yields_of_leading ih hstop (by omega)) hs
  | @cons s _ _ _ us _ hx hs hxs ihx ihxs =>
    rintro budget budget' kind r vs rfl hkind hr hb' hb
    have hlen := hx.length_lt
    rw [List.length_cons] at hlen
    obtain ⟨budget, rfl⟩ := Nat.exists_eq_add_of_le' (show 1 ≤ budget by omega)
    have hstop : Stops (lexemes (s :: us)) := stops_of_token (by rw [lexemes_cons, peek_cons, hs]; rfl)
    exact yields_list_cons (peek_ne_of_startsExpr hx.spells.first rfl)
      (peek_ne_of_startsExpr hx.spells.first (by cases kind <;> rfl))
      (yields_of_leading ihx hstop (by omega)) (hs.trans hkind.symm)
      (ihxs kind rfl hkind hr (by omega) (by omega))

/-- What forms an expression is read as that expression. -/
theorem yields_expr {x : Expr} (h : Forms (.binary 0 x) ss us) (hstop : Stops (lexemes us))
    (hb : 16 * ss.length + 6 ≤ budget) : Yields ss (expr budget) x us :=
  yields_of_leading (leading h) hstop hb

end ParseM

end FrontEnd
