import FrontEnd.Proofs.FailFast
import FrontEnd.Proofs.Grammar.Spelling
import FrontEnd.Proofs.Grammar.Takes
import FrontEnd.Proofs.Grammar.Unplaced

/-!
# What is spelled is taken: expressions

Lexemes that spell a type or an expression are taken by its rule, with that result up to positions,
provided that what follows does not go on with the expression. Operators and what comes after an
operand are read by loops, so there it is shown that a loop gets over them (`Reaches`); the theorems
are for lexemes that a budget suffices for.
-/

namespace FrontEnd

namespace ParseM

variable {g : Nat} {ts us vs : List Lexeme} {l : Lexeme} {budget : Nat}

/-! ## Names and literals -/

/-- A name is taken as an identifier. -/
theorem takes_ident (hl : l.token = .name) :
    Takes g (l :: ts) ident (fun name => ∃ pos, name = ⟨pos, l.literal⟩) g ts := by
  refine .onHere fun pos => .onToken ?_
  rw [peek_cons, hl, if_pos rfl]
  exact .onCurrent (.onNext (.pure ⟨pos, rfl⟩))

section

variable {β γ : Type} {Q : γ → Prop} {k : γ → ParseM β} {g' : Nat}

/-- A name is taken, and what is done with it goes on. -/
theorem on_ident (hl : l.token = .name) {f : Ident → ParseM β}
    (h : ∀ pos, Reaches g ts (f ⟨pos, l.literal⟩) Q k g' us) :
    Reaches g (l :: ts) (ident >>= f) Q k g' us := by
  refine .bind (takes_ident hl) ?_
  rintro name ⟨pos, rfl⟩
  exact h pos

/-- A literal is taken, and what is done with it goes on. -/
theorem on_literal {f : Literal → ParseM β}
    (h : ∀ pos, Reaches g ts (f ⟨pos, l.literal, l.kind, l.bad⟩) Q k g' us) :
    Reaches g (l :: ts) (literal >>= f) Q k g' us := by
  have hi : Takes g (l :: ts) literal (fun x => ∃ pos, x = ⟨pos, l.literal, l.kind, l.bad⟩) g ts :=
    .onHere fun pos => .onCurrent (.onNext (.pure ⟨pos, rfl⟩))
  refine .bind hi ?_
  rintro x ⟨pos, rfl⟩
  exact h pos

end

/-! ## Lists -/

section

variable {α : Type} {kind : ListKind} {element : ParseM α}

/-- A list ends with its closer. -/
theorem takes_list_nil (hl : l.token = kind.closer) :
    Takes g (l :: ts) (list kind element (budget + 1)) (fun xs => xs = []) g ts := by
  refine .onToken ?_
  rw [peek_cons, hl, if_pos (.inr rfl)]
  exact .onWant hl (.pure rfl)

/-- A list goes on after an element and a separator. -/
theorem takes_list_cons {Q : α → Prop} {Qs : List α → Prop} (hts : peek ts ≠ .eof)
    (hts' : peek ts ≠ kind.closer) (hx : Takes g ts element Q g (l :: us))
    (hl : l.token = kind.separator) (hxs : Takes g us (list kind element budget) Qs g vs) :
    Takes g ts (list kind element (budget + 1)) (fun xs => ∃ y ys, xs = y :: ys ∧ Q y ∧ Qs ys) g vs := by
  refine .onToken ?_
  rw [if_neg (by simp [hts, hts'])]
  exact .bind hx fun y hy => .onGot hl (.bind hxs fun ys hys => .pure ⟨y, ys, rfl, hy, hys⟩)

/-- The separator after the last element of a list may be left out. -/
theorem takes_list_last {Q : α → Prop} (hts : peek ts ≠ .eof) (hts' : peek ts ≠ kind.closer)
    (hx : Takes g ts element Q g (l :: us)) (hl : l.token = kind.closer) :
    Takes g ts (list kind element (budget + 2)) (fun xs => ∃ y, xs = [y] ∧ Q y) g us := by
  have hmissed : peek (l :: us) ≠ kind.separator := by
    rw [peek_cons, hl]
    cases kind <;> decide
  refine .onToken ?_
  rw [if_neg (by simp [hts, hts'])]
  refine .bind hx fun y hy => .onMissed hmissed (.onToken ?_)
  rw [peek_cons, hl, if_pos rfl]
  refine .bind (takes_list_nil hl) fun ys hys => .pure ⟨y, ?_, hy⟩
  rw [hys]

end

/-! ## Types -/

/-- The rules for types take what spells a type. -/
theorem takes_type? {x : Expr} (h : SpellsType x ts us) :
    ∀ {budget : Nat}, 16 * ts.length + 2 ≤ budget →
      Takes g ts (type? budget) (fun y? => ∃ y, y? = some y ∧ y.unplaced = x.unplaced) g us := by
  -- Along the nesting of the type; each slice takes two lexemes, which pay for the two calls.
  induction h with
  | name pos hl =>
    intro budget hb
    obtain ⟨budget, rfl⟩ := Nat.exists_eq_add_of_le' (show 1 ≤ budget by omega)
    refine .onToken ?_
    rw [peek_cons, hl]
    exact on_ident hl fun pos' => .pure ⟨_, rfl, rfl⟩
  | @slice pos _ _ elem _ _ hl hr _ ih =>
    intro budget hb
    simp only [List.length_cons] at hb
    obtain ⟨budget, rfl⟩ := Nat.exists_eq_add_of_le' (show 2 ≤ budget by omega)
    refine .onToken ?_
    rw [peek_cons, hl]
    refine .onHere fun pos' => .bind (R := fun y : Expr => y.unplaced = elem.unplaced) ?_ fun y hy =>
      .pure ?_
    · refine .traced _ (.onNext (.onWant hr (.bind (ih (by omega)) ?_)))
      rintro y? ⟨y, rfl, hy⟩
      exact .pure hy
    · exact ⟨_, rfl, by simp only [Expr.unplaced, hy]⟩

/-- The type of the elements of a slice is taken. -/
theorem takes_sliceElem {pos : Pos} {x : Expr} (h : SpellsType (.sliceType pos x) ts us)
    (hb : 16 * ts.length + 1 ≤ budget) :
    Takes g ts (sliceElem budget) (fun y => y.unplaced = x.unplaced) g us := by
  cases h with
  | slice _ hl hr hx =>
    simp only [List.length_cons] at hb
    obtain ⟨budget, rfl⟩ := Nat.exists_eq_add_of_le' (show 1 ≤ budget by omega)
    refine .traced _ (.onNext (.onWant hr (.bind (takes_type? hx (by omega)) ?_)))
    rintro y? ⟨y, rfl, hy⟩
    exact .pure hy

/-! ## Expressions -/

/-- A loop over operators is left where none binds strongly enough. -/
theorem takes_binaryRest (floor : Nat) (x : Expr) (hweak : Weak floor ts) (hb : 1 ≤ budget) :
    Takes g ts (binaryRest floor x budget) (fun y => y = x) g ts := by
  obtain ⟨budget, rfl⟩ := Nat.exists_eq_add_of_le' hb
  refine .onGet fun _ q hq => ?_
  rw [hq.operator?]
  split
  · next op ho =>
    rw [if_neg (Nat.not_lt.mpr (hweak op ho))]
    exact .pure rfl
  · exact .pure rfl

/-- A loop over what comes after an operand is left where the operand does not go on. -/
theorem takes_primaryRest (x : Expr) (hstop : (peek ts).extendsOperand = false) (hb : 1 ≤ budget) :
    Takes g ts (primaryRest x budget) (fun y => y = x) g ts := by
  obtain ⟨budget, rfl⟩ := Nat.exists_eq_add_of_le' hb
  refine .onHere fun pos => .onToken ?_
  split
  iterate 3
    rename_i h
    rw [h] at hstop
    cases hstop
  exact .pure rfl

/-- How much budget a loop has left when it has read an expression. -/
structure Left (x : Expr) (us : List Lexeme) (r : Expr × Nat) : Prop where
  unplaced : r.1.unplaced = x.unplaced
  budget : 16 * us.length + 1 ≤ r.2

/-- The lexemes from `ts` to `us` are taken as the phrase. -/
def Taken (ts us : List Lexeme) : ExprPhrase → Prop
  | .binary floor x => ∀ {g budget floor'}, floor' ≤ floor → (peek us).extendsOperand = false →
      Weak (floor + 1) us → 16 * ts.length + 5 ≤ budget →
      Reaches g ts (binaryExpr floor' budget) (Left x us) (fun r => binaryRest floor' r.1 r.2) g us
  | .unary x => ∀ {g budget}, (peek us).extendsOperand = false → 16 * ts.length + 4 ≤ budget →
      Takes g ts (unaryExpr budget) (fun y => y.unplaced = x.unplaced) g us
  | .primary x => ∀ {g budget}, 16 * ts.length + 2 ≤ budget →
      Reaches g ts (operand budget >>= fun y => primaryRest y budget) (Left x us)
        (fun r => primaryRest r.1 r.2) g us
  | .list xs => ∀ {g budget budget'} (kind : ListKind) {l vs}, us = l :: vs → kind.separator = .comma →
      l.token = kind.closer → 16 * ts.length + 6 ≤ budget' → 16 * ts.length + 1 ≤ budget →
      Takes g ts (list kind (expr budget') budget)
        (fun ys => Expr.unplacedEach ys = Expr.unplacedEach xs) g vs

/-- An expression is taken up to where it stops. -/
theorem takes_of_taken {x : Expr} (h : Taken ts us (.binary 0 x)) (hstop : Stops us)
    (hb : 16 * ts.length + 6 ≤ budget) :
    Takes g ts (expr budget) (fun y => y.unplaced = x.unplaced) g us := by
  obtain ⟨budget, rfl⟩ := Nat.exists_eq_add_of_le' (show 1 ≤ budget by omega)
  have hweak : Weak (0 + 1) us := fun op ho => Nat.le_succ_of_le (hstop.weak op ho)
  refine .traced _ ((h (Nat.le_refl 0) hstop.operand hweak (by omega)).trans ?_)
  rintro ⟨y, budget'⟩ hy
  refine (takes_binaryRest 0 y hstop.weak (Nat.le_trans (by omega) hy.budget)).weaken ?_
  rintro z rfl
  exact hy.unplaced

/-- An operation is the same up to positions if its operands are. -/
theorem Expr.unplaced_operation {pos pos' : Pos} {op : Operator} {x x' y y' : Expr}
    (hx : x'.unplaced = x.unplaced) (hy : y'.unplaced = y.unplaced) :
    (Expr.operation pos' op x' y').unplaced = (Expr.operation pos op x y).unplaced := by
  unfold Expr.operation
  split <;> simp only [Expr.unplaced, hx, hy]

/-- The loop over operators takes an operator with its right operand. -/
theorem taken_operation (pos : Pos) {floor : Nat} {op : Operator} {x y : Expr}
    (ho : l.operator? = some op) (hfloor : floor < op.precedence)
    (hx : Taken ts (l :: us) (.binary (op.precedence - 1) x)) (hy : Taken us vs (.binary op.precedence y))
    (hlen : vs.length ≤ us.length) : Taken ts vs (.binary floor (.operation pos op x y)) := by
  intro g budget floor' hle hstop hweak hb
  have hoperand : (peek (l :: us)).extendsOperand = false := by
    have := Lexeme.token_of_operator? ho
    rcases this with h | h <;> rw [peek_cons, h] <;> rfl
  have hleft : Weak (op.precedence - 1 + 1) (l :: us) := by
    intro op' ho'
    obtain rfl := Option.some.inj (ho.symm.trans ho')
    omega
  -- The left operand is climbed first, with what binds tighter; then one turn of the loop takes the operator.
  refine (hx (by omega) hoperand hleft hb).trans ?_
  rintro ⟨x', budget'⟩ ⟨hx', hb'⟩
  simp only [List.length_cons] at hx' hb' ⊢
  obtain ⟨c, rfl⟩ := Nat.exists_eq_add_of_le' (show 1 ≤ budget' by omega)
  have hright : Takes g us (binaryExpr op.precedence c) (fun y' => y'.unplaced = y.unplaced) g vs := by
    refine (hy (Nat.le_refl _) hstop (fun op' ho' => ?_) (by omega)).trans ?_
    · have := hweak op' ho'
      omega
    · rintro ⟨y', c'⟩ hy'
      have hweak' : Weak op.precedence vs := fun op' ho' => Nat.le_trans (hweak op' ho') hfloor
      refine (takes_binaryRest _ y' hweak' (Nat.le_trans (by omega) hy'.budget)).weaken ?_
      rintro z rfl
      exact hy'.unplaced
  refine .onGet fun _ q hq => ?_
  rw [hq.operator?, show (l :: us).head?.bind Lexeme.operator? = some op from ho]
  dsimp only
  rw [if_pos (show floor' < op.precedence by omega)]
  refine .onHere fun pos' => .onRemark (.onNext (.bind hright fun y' hy' => ?_))
  -- Whichever way round the sides are stored, the loop goes on with what is the operation up to positions.
  have hrest (z : Expr) (hz : z = .operation pos' op x' y') :
      Reaches g vs (binaryRest floor' z c) (Left (.operation pos op x y) vs)
        (fun r => binaryRest floor' r.1 r.2) g vs := by
    have hleft : Left (.operation pos op x y) vs (z, c) :=
      ⟨hz ▸ Expr.unplaced_operation hx' hy', show 16 * vs.length + 1 ≤ c by omega⟩
    exact .refl (k := fun r => binaryRest floor' r.1 r.2) hleft
  split
  · next hless => exact hrest _ (by rw [Expr.operation, if_pos hless])
  · next hless => exact hrest _ (by rw [Expr.operation, if_neg hless])

/-- The loop gets over what has no operator of two operands. -/
theorem taken_operand {floor : Nat} {x : Expr} (hx : Taken ts us (.unary x))
    (hlen : us.length < ts.length) : Taken ts us (.binary floor x) := by
  intro g budget floor' _ hstop _ hb
  obtain ⟨budget, rfl⟩ := Nat.exists_eq_add_of_le' (show 1 ≤ budget by omega)
  refine .bind (hx hstop (by omega)) fun y hy => ?_
  have hleft : Left x us (y, budget) := ⟨hy, show 16 * us.length + 1 ≤ budget by omega⟩
  exact .refl (k := fun r => binaryRest floor' r.1 r.2) hleft

/-- The loop gets over a unary operation. -/
theorem taken_unary (pos : Pos) {op : Operator} {x : Expr} (ho : l.operator? = some op)
    (hop : op.isUnary) (hx : Taken ts us (.unary x)) :
    Taken (l :: ts) us (.unary (.unary pos op x)) := by
  intro g budget hstop hb
  rw [List.length_cons] at hb
  obtain ⟨budget, rfl⟩ := Nat.exists_eq_add_of_le' (show 1 ≤ budget by omega)
  refine .traced _ (.onGet fun _ q hq => ?_)
  have hfilter : q.operator?.filter Operator.isUnary = some op := by
    rw [hq.operator?]
    exact Option.filter_eq_some_iff.mpr ⟨ho, hop⟩
  rw [hfilter]
  refine .onHere fun pos' => .onNext (.bind (hx hstop (by omega)) fun y hy => .pure ?_)
  simp only [Expr.unplaced, hy]

/-- The loop gets over an operand with what follows it. -/
theorem taken_primary {x : Expr} (hx : Taken ts us (.primary x))
    (hnone : ts.head?.bind Lexeme.operator? = none) : Taken ts us (.unary x) := by
  intro g budget hstop hb
  obtain ⟨budget, rfl⟩ := Nat.exists_eq_add_of_le' (show 2 ≤ budget by omega)
  refine .traced _ (.onGet fun _ q hq => ?_)
  rw [hq.operator?, hnone]
  refine .traced _ ((hx (by omega)).trans ?_)
  rintro ⟨y, budget'⟩ hy
  refine (takes_primaryRest y hstop (Nat.le_trans (by omega) hy.budget)).weaken ?_
  rintro z rfl
  exact hy.unplaced

/-- An operand by itself is taken before anything that comes after it. -/
theorem taken_of_operand {x : Expr} (hlen : us.length < ts.length)
    (h : ∀ {g budget}, 16 * ts.length + 2 ≤ budget →
      Takes g ts (operand budget) (fun y => y.unplaced = x.unplaced) g us) :
    Taken ts us (.primary x) := by
  intro g budget hb
  refine .bind (h hb) fun y hy => ?_
  have hleft : Left x us (y, budget) := ⟨hy, show 16 * us.length + 1 ≤ budget by omega⟩
  exact .refl (k := fun r => primaryRest r.1 r.2) hleft

/-- The loop over what comes after an operand goes on. -/
theorem taken_of_rest {x y : Expr} (hx : Taken ts us (.primary x))
    (h : ∀ {g budget x'}, x'.unplaced = x.unplaced → 16 * us.length ≤ budget →
      Reaches g us (primaryRest x' (budget + 1)) (Left y vs) (fun r => primaryRest r.1 r.2) g vs) :
    Taken ts vs (.primary y) := by
  intro g budget hb
  refine (hx hb).trans ?_
  rintro ⟨x', budget'⟩ ⟨hx', hb'⟩
  dsimp only at hx' hb' ⊢
  obtain ⟨c, rfl⟩ := Nat.exists_eq_add_of_le' (show 1 ≤ budget' by omega)
  exact h hx' (by omega)

/-- The loop gets over a name. -/
theorem taken_name (pos : Pos) (hl : l.token = .name) :
    Taken (l :: ts) ts (.primary (.name ⟨pos, l.literal⟩)) := by
  refine taken_of_operand (Nat.lt_succ_self _) fun {g budget} hb => ?_
  obtain ⟨budget, rfl⟩ := Nat.exists_eq_add_of_le' (show 1 ≤ budget by omega)
  refine .traced _ (.onToken ?_)
  rw [peek_cons, hl]
  exact on_ident hl fun pos' => .onRemark (.pure rfl)

/-- The loop gets over a literal. -/
theorem taken_literal (pos : Pos) (hl : l.token = .literal) :
    Taken (l :: ts) ts (.primary (.literal ⟨pos, l.literal, l.kind, l.bad⟩)) := by
  refine taken_of_operand (Nat.lt_succ_self _) fun {g budget} hb => ?_
  obtain ⟨budget, rfl⟩ := Nat.exists_eq_add_of_le' (show 1 ≤ budget by omega)
  refine .traced _ (.onToken ?_)
  rw [peek_cons, hl]
  exact on_literal fun pos' => .onRemark (.pure rfl)

/-- The loop gets over a slice type, unless a brace opens its elements. -/
theorem taken_sliceType {pos : Pos} {elem : Expr} (h : SpellsType (.sliceType pos elem) ts us)
    (hpeek : peek us ≠ .lbrace) : Taken ts us (.primary (.sliceType pos elem)) := by
  refine taken_of_operand h.length_lt fun {g budget} hb => ?_
  obtain ⟨budget, rfl⟩ := Nat.exists_eq_add_of_le' (show 1 ≤ budget by omega)
  refine .traced _ (.onToken ?_)
  rw [h.slice_first]
  refine .onHere fun pos' => .bind (takes_sliceElem h (by omega)) fun y hy => .onToken ?_
  rw [if_neg hpeek]
  exact .pure (by simp only [Expr.unplaced, hy])

/-- The loop gets over a slice with its elements. -/
theorem taken_sliceLit {pos : Pos} {elem : Expr} {xs : List Expr} {r : Lexeme}
    (h : SpellsType (.sliceType pos elem) ts (l :: us)) (hl : l.token = .lbrace)
    (hxs : Taken us (r :: vs) (.list xs)) (hr : r.token = .rbrace)
    (hlen : (r :: vs).length ≤ us.length) : Taken ts vs (.primary (.sliceLit pos elem xs)) := by
  have htype := h.length_lt
  simp only [List.length_cons] at htype hlen
  have hlt : vs.length < ts.length := by omega
  apply taken_of_operand hlt
  intro g budget hb
  obtain ⟨budget, rfl⟩ := Nat.exists_eq_add_of_le' (show 1 ≤ budget by omega)
  refine .traced _ (.onToken ?_)
  rw [h.slice_first]
  refine .onHere fun pos' => .bind (takes_sliceElem h (by omega)) fun y hy => .onToken ?_
  rw [peek_cons, hl, if_pos rfl]
  refine .onNext (.bind (hxs .elements rfl rfl hr (by omega) (by omega)) fun ys hys => .pure ?_)
  simp only [Expr.unplaced, hy, hys]

/-- The loop gets over parentheses. -/
theorem taken_paren (pos : Pos) {x : Expr} {r : Lexeme} (hl : l.token = .lparen)
    (hx : Taken ts (r :: us) (.binary 0 x)) (hr : r.token = .rparen)
    (hlen : (r :: us).length ≤ ts.length) : Taken (l :: ts) us (.primary (.paren pos x)) := by
  simp only [List.length_cons] at hlen
  refine taken_of_operand (by rw [List.length_cons]; omega) fun {g budget} hb => ?_
  rw [List.length_cons] at hb
  obtain ⟨budget, rfl⟩ := Nat.exists_eq_add_of_le' (show 1 ≤ budget by omega)
  refine .traced _ (.onToken ?_)
  rw [peek_cons, hl]
  have hstop : Stops (r :: us) := stops_of_token (by rw [peek_cons, hr]; rfl)
  refine .onHere fun pos' => .onNext (.bind (takes_of_taken hx hstop (by omega)) fun y hy =>
    .onWant hr (.pure ?_))
  simp only [Expr.unplaced, hy]

/-- The loop gets over a selection. -/
theorem taken_selector (pos pos' : Pos) {x : Expr} {d f : Lexeme}
    (hx : Taken ts (d :: f :: us) (.primary x)) (hd : d.token = .dot) (hf : f.token = .name) :
    Taken ts us (.primary (.selector pos x ⟨pos', f.literal⟩)) := by
  refine taken_of_rest hx fun {g budget x'} hx' hb => ?_
  simp only [List.length_cons] at hb
  refine .onHere fun q => .onToken ?_
  rw [peek_cons, hd]
  refine .onNext (.onToken ?_)
  rw [peek_cons, hf, if_pos rfl]
  refine on_ident hf fun q' => ?_
  have hleft : Left (.selector pos x ⟨pos', f.literal⟩) us
      (.selector q x' ⟨q', f.literal⟩, budget) :=
    ⟨by simp only [Expr.unplaced, Ident.unplaced, hx'], show 16 * us.length + 1 ≤ budget by omega⟩
  exact .refl (k := fun r => primaryRest r.1 r.2) hleft

/-- The loop gets over an index. -/
theorem taken_index (pos : Pos) {x i : Expr} {r : Lexeme} (hx : Taken ts (l :: us) (.primary x))
    (hl : l.token = .lbrack) (hi : Taken us (r :: vs) (.binary 0 i)) (hr : r.token = .rbrack)
    (hlen : (r :: vs).length ≤ us.length) : Taken ts vs (.primary (.index pos x i)) := by
  refine taken_of_rest hx fun {g budget x'} hx' hb => ?_
  simp only [List.length_cons] at hb hlen
  refine .onHere fun pos' => .onToken ?_
  rw [peek_cons, hl]
  have hstop : Stops (r :: vs) := stops_of_token (by rw [peek_cons, hr]; rfl)
  refine .onNext (.bind (takes_of_taken hi hstop (by omega)) fun i' hi' => .onWant hr ?_)
  have hleft : Left (.index pos x i) vs (.index pos' x' i', budget) :=
    ⟨by simp only [Expr.unplaced, hx', hi'], show 16 * vs.length + 1 ≤ budget by omega⟩
  exact .refl (k := fun r => primaryRest r.1 r.2) hleft

/-- The loop gets over a call. -/
theorem taken_call (pos : Pos) {x : Expr} {xs : List Expr} {r : Lexeme}
    (hx : Taken ts (l :: us) (.primary x)) (hl : l.token = .lparen)
    (hxs : Taken us (r :: vs) (.list xs)) (hr : r.token = .rparen)
    (hlen : (r :: vs).length ≤ us.length) : Taken ts vs (.primary (.call pos x xs)) := by
  refine taken_of_rest hx fun {g budget x'} hx' hb => ?_
  simp only [List.length_cons] at hb hlen
  refine .onHere fun pos' => .onToken ?_
  rw [peek_cons, hl]
  refine .onNext (.bind (.traced _ (hxs .arguments rfl rfl hr (by omega) (by omega))) fun ys hys => ?_)
  have hleft : Left (.call pos x xs) vs (.call pos' x' ys, budget) :=
    ⟨by simp only [Expr.unplaced, hx', hys], show 16 * vs.length + 1 ≤ budget by omega⟩
  exact .refl (k := fun r => primaryRest r.1 r.2) hleft

/-- Neither the end of the input nor the closer of a list starts an expression. -/
theorem peek_ne_of_startsExpr {t : Token} (h : (peek ts).startsExpr = true)
    (ht : t.startsExpr = false) : peek ts ≠ t := by
  rintro rfl
  rw [h] at ht
  cases ht

/-- Whatever spells a phrase is taken as that phrase. -/
theorem taken {e : ExprPhrase} (h : SpellsExpr e ts us) : Taken ts us e := by
  -- One lemma a production; a budget of sixteen for each lexeme left is enough for every call on the way.
  induction h with
  | operation pos ho hfloor _ hy ihx ihy =>
    exact taken_operation pos ho hfloor ihx ihy (Nat.le_of_lt hy.length_lt)
  | operand hx ih => exact taken_operand ih hx.length_le
  | unary pos ho hop _ ih => exact taken_unary pos ho hop ih
  | primary hx ih => exact taken_primary ih hx.operator?_eq_none
  | name pos hl => exact taken_name pos hl
  | literal pos hl => exact taken_literal pos hl
  | sliceType hx hpeek => exact taken_sliceType hx hpeek
  | sliceLit hx hl hxs hr ih => exact taken_sliceLit hx hl ih hr hxs.length_le
  | paren pos hl hx hr ih => exact taken_paren pos hl ih hr (Nat.le_of_lt hx.length_lt)
  | selector pos pos' _ hd hf ih => exact taken_selector pos pos' ih hd hf
  | index pos _ hl hi hr ihx ihi => exact taken_index pos ihx hl ihi hr (Nat.le_of_lt hi.length_lt)
  | call pos _ hl hxs hr ihx ihxs => exact taken_call pos ihx hl ihxs hr hxs.length_le
  | nil =>
    rintro g budget budget' kind l vs rfl - hl - hb
    obtain ⟨budget, rfl⟩ := Nat.exists_eq_add_of_le' (show 1 ≤ budget by omega)
    exact (takes_list_nil hl).weaken fun ys hys => by rw [hys]
  | last hx ih =>
    rintro g budget budget' kind l vs rfl hkind hl hb' hb
    have hlen := hx.length_lt
    rw [List.length_cons] at hlen
    obtain ⟨budget, rfl⟩ := Nat.exists_eq_add_of_le' (show 2 ≤ budget by omega)
    have hstop : Stops (l :: vs) := stops_of_token (by rw [peek_cons, hl]; cases kind <;> rfl)
    refine (takes_list_last (peek_ne_of_startsExpr hx.first rfl)
      (peek_ne_of_startsExpr hx.first (by cases kind <;> rfl))
      (takes_of_taken ih hstop (by omega)) hl).weaken ?_
    rintro ys ⟨y, rfl, hy⟩
    simp only [Expr.unplacedEach, hy]
  | @cons l _ _ _ us _ hx hl hxs ihx ihxs =>
    rintro g budget budget' kind r vs rfl hkind hr hb' hb
    have hlen := hx.length_lt
    rw [List.length_cons] at hlen
    obtain ⟨budget, rfl⟩ := Nat.exists_eq_add_of_le' (show 1 ≤ budget by omega)
    have hstop : Stops (l :: us) := stops_of_token (by rw [peek_cons, hl]; rfl)
    refine (takes_list_cons (peek_ne_of_startsExpr hx.first rfl)
      (peek_ne_of_startsExpr hx.first (by cases kind <;> rfl))
      (takes_of_taken ihx hstop (by omega)) (hl.trans hkind.symm)
      (ihxs kind rfl hkind hr (by omega) (by omega))).weaken ?_
    rintro ys ⟨y, zs, rfl, hy, hzs⟩
    simp only [Expr.unplacedEach, hy, hzs]

/-- What spells an expression is taken as that expression. -/
theorem takes_expr {x : Expr} (h : SpellsWhole x ts us) (hstop : Stops us)
    (hb : 16 * ts.length + 6 ≤ budget) :
    Takes g ts (expr budget) (fun y => y.unplaced = x.unplaced) g us :=
  takes_of_taken (taken h) hstop hb

end ParseM

end FrontEnd
