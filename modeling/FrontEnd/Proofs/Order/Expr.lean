import FrontEnd.Proofs.Order.Laid

/-!
# Expressions are laid out

An expression that starts at a token with which one may start has its position, that of a name, a literal, an
operator or a bracket, between where it starts and where it ends (`begins_expr`). Where no operand can be
read, recovery gets behind the place of the hole.

Operands on the right, indices, arguments and elements may be read from anywhere: their positions do not
matter for the order of statements.
-/

namespace FrontEnd

/-- No expression starts at the end. -/
theorem Token.ne_eof_of_startsExpr {t : Token} (h : t.startsExpr) : t ≠ .eof := by
  rintro rfl
  cases h

namespace ParseM

open Ensures
open FrontEnd.Parser (Lays Clears)

variable {budget : Nat} {p q : Parser}

/-- An identifier has the current position, and its lexeme is cleared. -/
theorem clears_ident (hp : p.Rises) :
    Ensures ident p fun name q => Clears [] p q ∧ name.pos = p.here := by
  refine .onHere (.onToken ?_)
  split
  · exact .onCurrent ((clears_next hp).bind fun _ q hq => .pure ⟨hq, rfl⟩)
  · refine (stays_complain _ hp).bind fun _ q hq => ?_
    have hrecover : Ensures (recover []) q fun _ r => Clears [] q r := Clears.recover_nil hq.rises
    exact hrecover.bind fun _ r hr => .pure ⟨.sooner hq.toLater hr, rfl⟩

/-- A literal has the current position, and its lexeme is cleared. -/
theorem clears_literal (hp : p.Rises) :
    Ensures literal p fun l q => Clears [] p q ∧ l.pos = p.here :=
  .onHere (.onCurrent ((clears_next hp).bind fun _ _ hq => .pure ⟨hq, rfl⟩))

/-- The bracket of a slice type is passed. -/
theorem lays_sliceElem (hp : p.Rises) (ht : p.token ≠ .eof) :
    Ensures (sliceElem budget) p fun _ q => Lays [] p [p.here] [] q := by
  cases budget with
  | zero => exact .of_starve hp fun q hq hs => .onHole (.of_starved hq hs)
  | succ budget =>
    refine .stays_traced hp (keeps_lays [] p _ _) fun q hq => ?_
    refine (clears_next hq.rises).bind fun _ r hr => (later (routine_want _) hr.rises).bind fun _ s hs =>
      (later (routine_type? _) hs.rises).bind fun type? t ht' => ?_
    have hlays {u : Parser} (hu : t.Later u) : Lays [] p [p.here] [] u :=
      .here ht (.sooner hq.toLater (hr.later (hs.trans (ht'.trans hu))))
    split
    · exact .pure (hlays (.refl ht'.rises))
    · exact .onHole ((later (routine_complain _) ht'.rises).bind fun _ u hu => .pure (hlays hu))

/-- The action yields an expression whose position is between where it starts and where it ends. -/
def BeginsExpr (m : ParseM Expr) : Prop :=
  ∀ p : Parser, p.Rises → p.token.startsExpr → Ensures m p fun x q => Lays [] p [x.pos] [] q

/-- The action makes such an expression of one. -/
def KeepsExpr (m : Expr → ParseM Expr) : Prop :=
  ∀ (p q : Parser) x, Lays [] p [x.pos] [] q → Ensures (m x) q fun y r => Lays [] p [y.pos] [] r

/-- The rules for expressions lay them out with a given budget. -/
structure LaidExprs (budget : Nat) : Prop where
  expr : BeginsExpr (ParseM.expr budget)
  binaryExpr : ∀ floor, BeginsExpr (ParseM.binaryExpr floor budget)
  binaryRest : ∀ floor, KeepsExpr fun x => ParseM.binaryRest floor x budget
  unaryExpr : BeginsExpr (ParseM.unaryExpr budget)
  primaryExpr : BeginsExpr (ParseM.primaryExpr budget)
  primaryRest : KeepsExpr fun x => ParseM.primaryRest x budget
  operand : BeginsExpr (ParseM.operand budget)

/-- Nothing is said of a run that has no budget. -/
theorem laidExprs_zero : LaidExprs 0 := by
  have hhole : BeginsExpr (do starve; hole) := fun _ hp _ =>
    .of_starve hp fun _ hq hs => .onHole (.of_starved hq hs)
  have hsame : KeepsExpr fun x => do starve; return x := fun _ _ _ hx =>
    .of_starve hx.rises fun _ hr _ => .pure (hx.later hr)
  exact ⟨hhole, fun _ => hhole, fun _ => hsame, hhole, hhole, hsame, hhole⟩

/-- An operand has its position where it starts. -/
theorem begins_operand : BeginsExpr (operand (budget + 1)) := by
  refine fun p hp ht => .stays_traced hp (keeps_lays [] p _ _) fun q hq => .onToken ?_
  have hqt : q.token.startsExpr := hq.token_eq ▸ ht
  have hne := Token.ne_eof_of_startsExpr hqt
  have hpos {r : Parser} {pos : Pos} (hr : Clears [] q r) (h : pos = q.here) : Lays [] p [pos] [] r :=
    h ▸ .sooner hq.toLater (.here hne hr)
  -- By the first token; the operand begins at it, except for a hole, which takes no token.
  split
  · exact (clears_ident hq.rises).bind fun name r ⟨hr, hname⟩ =>
      (later (routine_remark _) hr.rises).bind fun _ s hs => .pure (hpos (hr.later hs) hname)
  · exact (clears_literal hq.rises).bind fun l r ⟨hr, hl⟩ =>
      (later (routine_remark _) hr.rises).bind fun _ s hs => .pure (hpos (hr.later hs) hl)
  · refine .onHere ((lays_sliceElem hq.rises hne).bind fun elem r helem => .onToken ?_)
    have hr := Parser.Lays.sooner hq.toLater helem
    split
    · exact (later routine_next hr.rises).bind fun _ s hs =>
        (later (routine_list _ (routine_expr budget) _) hs.rises).bind fun xs t ht =>
          .pure (hr.later (hs.trans ht))
    · exact .pure hr
  · exact .onHere ((clears_next hq.rises).bind fun _ r hr => (later (routine_expr _) hr.rises).bind fun x s hs =>
      (later (routine_want _) hs.rises).bind fun _ t ht => .pure (hpos (hr.later (hs.trans ht)) rfl))
  · next hname hliteral hbrack hparen =>
    refine .onHole ((stays_complain _ hq.rises).bind fun _ r hr => ?_)
    -- A token that starts an expression but no operand is not one that recovery stops at, so recovery passes
    -- it.
    have hstop : r.isStop operandFollow = false := by
      rw [Parser.isStop_congr hr.token_eq hr.functions]
      cases hop : q.token <;> simp_all [Token.startsExpr, Parser.isStop, operandFollow, Parser.stopWords]
    have hrecover : Ensures (recover operandFollow) r fun _ s => Clears [] r s :=
      Clears.recover hr.rises (List.cons_ne_nil _ _) hstop
    exact hrecover.bind fun _ s hs => .pure (hpos (.sooner hr.toLater hs) rfl)

section

variable (h : LaidExprs budget)
include h

/-- What follows the left operand does not go back before it. -/
theorem keeps_binaryRest (floor : Nat) : KeepsExpr fun x => binaryRest floor x (budget + 1) := by
  intro p q x hx
  refine .onGet ?_
  split
  · next op hop =>
    split
    · refine .onHere ((later (routine_remark _) hx.rises).bind fun _ r hr =>
        (clears_next hr.rises).bind fun _ s hs =>
          (later ((exprRoutines budget).binaryExpr op.precedence) hs.rises).bind fun y t ht => ?_)
      have hne : q.token ≠ .eof := by
        rcases Parser.token_of_operator? hop with h | h <;> rw [h] <;> exact Token.noConfusion
      -- The operation stands where its operator does.
      have hpos : Lays [] p [q.here] [] t :=
        .sooner hx.toLater (.here hne (.sooner hr (hs.later ht)))
      split
      · exact h.binaryRest floor p t _ hpos
      · exact h.binaryRest floor p t _ hpos
    · exact .pure hx
  · exact .pure hx

/-- A unary operation has its position where it starts. -/
theorem begins_unaryExpr : BeginsExpr (unaryExpr (budget + 1)) := by
  refine fun p hp ht => .stays_traced hp (keeps_lays [] p _ _) fun q hq => .onGet ?_
  have hqt : q.token.startsExpr := hq.token_eq ▸ ht
  split
  · refine .onHere ((clears_next hq.rises).bind fun _ r hr =>
      (later (exprRoutines budget).unaryExpr hr.rises).bind fun x s hs => .pure ?_)
    exact .sooner hq.toLater (.here (Token.ne_eof_of_startsExpr hqt) (hr.later hs))
  · exact (h.primaryExpr q hq.rises hqt).weaken fun _ _ => .sooner hq.toLater

/-- What follows an operand does not go back before it. -/
theorem keeps_primaryRest : KeepsExpr fun x => primaryRest x (budget + 1) := by
  intro p q x hx
  -- What follows stands where it starts, and that is passed.
  have hpos {r : Parser} (hne : q.token ≠ .eof) (hr : Clears [] q r) : Lays [] p [q.here] [] r :=
    .sooner hx.toLater (.here hne hr)
  refine .onHere (.onToken ?_)
  split
  · next hdot =>
    have hne : q.token ≠ .eof := by rw [hdot]; exact Token.noConfusion
    refine (clears_next hx.rises).bind fun _ r hr => .onToken ?_
    split
    · exact (later routine_ident hr.rises).bind fun field s hs =>
        h.primaryRest p s _ (hpos hne (hr.later hs))
    · exact (later (routine_complain _) hr.rises).bind fun _ s hs =>
        (later (routine_recover _) hs.rises).bind fun _ t ht =>
          h.primaryRest p t x (hx.later (hr.toLater.trans (hs.trans ht)))
  · next hbrack =>
    have hne : q.token ≠ .eof := by rw [hbrack]; exact Token.noConfusion
    exact (clears_next hx.rises).bind fun _ r hr => (later (routine_expr _) hr.rises).bind fun i s hs =>
      (later (routine_want _) hs.rises).bind fun _ t ht =>
        h.primaryRest p t _ (hpos hne (hr.later (hs.trans ht)))
  · next hparen =>
    have hne : q.token ≠ .eof := by rw [hparen]; exact Token.noConfusion
    have hargs := routine_traced .argList (routine_list .arguments (routine_expr budget) budget)
    exact (clears_next hx.rises).bind fun _ r hr => (later hargs hr.rises).bind fun args s hs =>
      h.primaryRest p s _ (hpos hne (hr.later hs))
  · exact .pure hx

end

/-- The rules for expressions lay them out, whatever their budget. -/
theorem laidExprs (budget : Nat) : LaidExprs budget := by
  induction budget with
  | zero => exact laidExprs_zero
  | succ budget ih =>
    exact {
      expr := fun p hp ht => .stays_traced hp (keeps_lays [] p _ _) fun q hq =>
        (ih.binaryExpr 0 q hq.rises (hq.token_eq ▸ ht)).weaken fun _ _ => .sooner hq.toLater
      binaryExpr := fun floor p hp ht => (ih.unaryExpr p hp ht).bind fun x q hx => ih.binaryRest floor p q x hx
      binaryRest := keeps_binaryRest ih
      unaryExpr := begins_unaryExpr ih
      primaryExpr := fun p hp ht => .stays_traced hp (keeps_lays [] p _ _) fun q hq =>
        (ih.operand q hq.rises (hq.token_eq ▸ ht)).bind fun x r hx =>
          (ih.primaryRest q r x hx).weaken fun _ _ => .sooner hq.toLater
      primaryRest := keeps_primaryRest ih
      operand := begins_operand }

/-- An expression has its position where it starts, or behind. -/
theorem begins_expr (budget : Nat) : BeginsExpr (expr budget) := (laidExprs budget).expr

end ParseM

end FrontEnd
