import FrontEnd.Parser.File
import FrontEnd.Proofs.Routine

/-!
# The rules of the grammar are routines

One theorem for each rule, in the order of the grammar, up to `routine_file`. Rules that call each
other are taken together, by induction on their budget.
-/

namespace FrontEnd

/-! ## The basic actions -/

namespace ParseM

/-- The kind of the current lexeme is seen in a look. -/
theorem routine_token : Routine token := .ofLook View.token

/-- The current position is seen in a look. -/
theorem routine_here : Routine here := .ofLook View.here

/-- The current lexeme is seen in a look. -/
theorem routine_current : Routine current := .ofLook View.current

/-- Going on to the next lexeme is a move. -/
theorem routine_next : Routine next := .ofMove .next rfl

/-- Writing a line of the trace is a move. -/
theorem routine_remark (text : String) : Routine (remark text) := .ofMove (.trace (.remark text)) rfl

/-- Running out of budget is a move. -/
theorem routine_starve : Routine starve := .ofMove .starve rfl

/-- A complaint about what has been read before is a move. -/
theorem routine_complainAt (pos : Pos) {c : Complaint} (hc : c.looksBack) : Routine (complainAt pos c) :=
  .ofMove (.lookBack pos c hc) rfl

/-- A complaint at the current lexeme is a move. -/
theorem routine_complain (c : Complaint) : Routine (complain c) := .ofMove (.complain c) rfl

/-- Numbering a group is a look at the groups so far and a move. -/
theorem routine_newGroup : Routine newGroup :=
  .look (fun v => do modify Move.newGroup.apply; return v.groups)
    fun v => (Routine.ofMove .newGroup rfl).bind fun _ => .done v.groups

/-- What a rule can find out about the parser. -/
def view : ParseM View := do return (← get).view

/-- A search for one of `follow` that gives up after `n` lexemes. -/
def search (follow : List Token) : Nat → ParseM Unit
  | 0 => pure ()
  | n + 1 => do
    let v ← view
    if v.endsSearch follow then return
    else
      next
      search follow n

/-- A search with a bound is a routine: each of its steps is a look, and maybe a move. -/
theorem routine_search (follow : List Token) (n : Nat) : Routine (search follow n) := by
  induction n with
  | zero => exact .done ()
  | succ n ih =>
    refine (Routine.ofLook id).bind fun v => ?_
    split
    · exact .done ()
    · exact routine_next.bind fun _ => ih

/-- A search that may go on for as long as there are lexemes ends where `skipTo` does. -/
theorem search_run (follow : List Token) (n : Nat) (p : Parser) (h : p.upcoming.length ≤ n) :
    (search follow n).run p = ((), p.skipTo follow) := by
  induction n generalizing p with
  | zero =>
    have hu : p.upcoming = [] := List.eq_nil_of_length_eq_zero (Nat.le_zero.mp h)
    rw [Parser.skipTo, if_pos (by simp [hu])]
    rfl
  | succ n ih =>
    rw [Parser.skipTo, ← Parser.endsSearch_view]
    change StateT.run (if p.view.endsSearch follow then pure () else next >>= fun _ => search follow n)
      p = _
    by_cases hs : p.view.endsSearch follow
    · rw [if_pos hs, if_pos hs]
      rfl
    · rw [if_neg hs, if_neg hs]
      have ha : p.aborted = false := by
        apply Parser.aborted_of_token_ne_eof
        intro ht
        exact hs (by simp [View.endsSearch, Parser.view, ht])
      -- Where it goes on, the lexeme that it leaves behind was not the last one, so one less is left.
      have hl : p.next.upcoming.length ≤ n := by
        rw [Parser.upcoming_next p ha, List.length_tail]
        omega
      rw [← ih p.next hl]
      rfl

/-- A recovery is a remark and then a search, or a single step. -/
theorem recover_eq (follow : List Token) : recover follow = (do
    remark ("advance [" ++ ", ".intercalate (follow.map Token.className) ++ "]")
    let v ← view
    if follow.isEmpty then (if v.token = .eof then pure () else next) else search follow v.left) := by
  let words := "advance [" ++ ", ".intercalate (follow.map Token.className) ++ "]"
  funext p
  change ((), p.recover follow) = StateT.run (if follow.isEmpty then
    (if (p.trace (.remark words)).view.token = .eof then pure () else next)
    else search follow (p.trace (.remark words)).view.left) (p.trace (.remark words))
  unfold Parser.recover
  dsimp only
  generalize p.trace _ = p
  -- The remark changes nothing that a search depends on, and the number of lexemes that are left is enough for
  -- one.
  change ((), if follow.isEmpty then (if p.token = .eof then p else p.next) else p.skipTo follow) =
    StateT.run (if follow.isEmpty then (if p.token = .eof then pure () else next)
      else search follow p.upcoming.length) p
  split
  · split <;> rfl
  · rw [search_run _ _ _ (Nat.le_refl _)]

/-- A recovery is a routine, since the number of lexemes that are left is seen in a look. -/
theorem routine_recover (follow : List Token) : Routine (recover follow) := by
  rw [recover_eq]
  refine (routine_remark _).bind fun _ => (Routine.ofLook id).bind fun v => ?_
  split
  · split
    · exact .done ()
    · exact routine_next
  · exact routine_search follow _

/-- A traced routine closes the bracket that it opens in the trace. -/
theorem routine_traced {α : Type} (rule : Rule) {action : ParseM α} (h : Routine action) :
    Routine (traced rule action) := h.around (.rule rule)

/-- Taking a token if it is there is a look and maybe a move. -/
theorem routine_got (t : Token) : Routine (got t) := by
  refine routine_token.bind fun t' => ?_
  split
  · exact routine_next.bind fun _ => .done true
  · exact .done false

/-- Asking for a token is a routine. -/
theorem routine_want (t : Token) : Routine (want t) := by
  refine (routine_got t).bind fun b => ?_
  split
  · exact .done ()
  · exact routine_complain _

/-- Taking an assignment, also one that is misspelt, is a routine. -/
theorem routine_gotAssign : Routine gotAssign := by
  refine routine_token.bind fun t => ?_
  split
  · exact (routine_complain _).bind fun _ => routine_next.bind fun _ => .done true
  · exact routine_next.bind fun _ => .done true
  · exact .done false

/-- A list is a routine if its element rule is one. -/
theorem routine_list (kind : ListKind) {α : Type} {element : ParseM α} (h : Routine element)
    (budget : Nat) : Routine (list kind element budget) := by
  induction budget with
  | zero => exact routine_starve.bind fun _ => .done []
  | succ budget ih =>
    -- However an element ends, the list goes on in the same way.
    have rest (x : α) : Routine (do return x :: (← list kind element budget)) :=
      ih.bind fun xs => .done (x :: xs)
    refine routine_token.bind fun t => ?_
    split
    · exact (routine_want _).bind fun _ => .done []
    · refine h.bind fun x => (routine_got _).bind fun b => ?_
      split
      · exact rest x
      · refine routine_token.bind fun t => ?_
        split
        · exact rest x
        · refine (routine_complain _).bind fun _ => (routine_recover _).bind fun _ =>
            routine_token.bind fun t => ?_
          split
          · exact rest x
          · exact .done [x]

/-- The rule for identifiers is a routine. -/
theorem routine_ident : Routine ident := by
  refine routine_here.bind fun pos => routine_token.bind fun t => ?_
  split
  · exact routine_current.bind fun l => routine_next.bind fun _ => .done _
  · exact (routine_complain _).bind fun _ => (routine_recover _).bind fun _ => .done _

/-- The rule for literals is a routine. -/
theorem routine_literal : Routine literal :=
  routine_here.bind fun _ => routine_current.bind fun _ => routine_next.bind fun _ => .done _

/-- A hole is a look at the current position. -/
theorem routine_hole : Routine hole := routine_here.bind fun pos => .done (Expr.bad pos)

/-! ## Types and expressions -/

/-- The rules for types are routines, whatever their budget. -/
theorem routine_types (budget : Nat) : Routine (type? budget) ∧ Routine (sliceElem budget) := by
  induction budget with
  | zero =>
    exact ⟨routine_starve.bind fun _ => .done none, routine_starve.bind fun _ => routine_hole⟩
  | succ budget ih =>
    obtain ⟨htype, helem⟩ := ih
    constructor
    · refine routine_token.bind fun t => ?_
      split
      · exact routine_ident.bind fun n => .done (some (Expr.name n))
      · exact routine_here.bind fun pos => helem.bind fun x => .done (some (Expr.sliceType pos x))
      · exact .done none
    · refine routine_traced _ (routine_next.bind fun _ => (routine_want _).bind fun _ =>
        htype.bind fun x? => ?_)
      split
      · exact .done _
      · exact routine_hole.bind fun bad => (routine_complain _).bind fun _ => .done bad

/-- The rule for types is a routine. -/
theorem routine_type? (budget : Nat) : Routine (type? budget) := (routine_types budget).1

/-- The rule for what stands behind the brackets of a slice type is a routine. -/
theorem routine_sliceElem (budget : Nat) : Routine (sliceElem budget) := (routine_types budget).2

/-- The rules for expressions are routines with a given budget. -/
structure ExprRoutines (budget : Nat) : Prop where
  expr : Routine (ParseM.expr budget)
  binaryExpr : ∀ floor, Routine (ParseM.binaryExpr floor budget)
  binaryRest : ∀ floor x, Routine (ParseM.binaryRest floor x budget)
  unaryExpr : Routine (ParseM.unaryExpr budget)
  primaryExpr : Routine (ParseM.primaryExpr budget)
  primaryRest : ∀ x, Routine (ParseM.primaryRest x budget)
  operand : Routine (ParseM.operand budget)

/-- Without any budget the rules for expressions are a single move and maybe a look. -/
theorem exprRoutines_zero : ExprRoutines 0 where
  expr := routine_starve.bind fun _ => routine_hole
  binaryExpr _ := routine_starve.bind fun _ => routine_hole
  binaryRest _ x := routine_starve.bind fun _ => .done x
  unaryExpr := routine_starve.bind fun _ => routine_hole
  primaryExpr := routine_starve.bind fun _ => routine_hole
  primaryRest x := routine_starve.bind fun _ => .done x
  operand := routine_starve.bind fun _ => routine_hole

section

variable {budget : Nat} (h : ExprRoutines budget)
include h

/-- The rule for what follows the left operand: the operator and its precedence are seen in a look. -/
theorem routine_binaryRest_succ (floor : Nat) (x : Expr) :
    Routine (binaryRest floor x (budget + 1)) := by
  -- The rule looks at the whole parser, but uses nothing of it that is not in the view.
  refine .ofGet _ (fun p => ?_) fun p q hpq => by rw [Parser.operator?_of_view hpq]
  split
  · next op =>
    split
    · refine routine_here.bind fun pos => (routine_remark _).bind fun _ =>
        routine_next.bind fun _ => (h.binaryExpr _).bind fun y => ?_
      split
      · exact h.binaryRest _ _
      · exact h.binaryRest _ _
    · exact .done x
  · exact .done x

/-- The rule for unary operations: whether there is an operator is seen in a look. -/
theorem routine_unaryExpr_succ : Routine (unaryExpr (budget + 1)) := by
  refine routine_traced _ (.ofGet _ (fun p => ?_) fun p q hpq => by
    rw [Parser.operator?_of_view hpq])
  split
  · exact routine_here.bind fun pos => routine_next.bind fun _ => h.unaryExpr.bind fun x => .done _
  · exact h.primaryExpr

/-- The rule for what follows an operand is a routine. -/
theorem routine_primaryRest_succ (x : Expr) : Routine (primaryRest x (budget + 1)) := by
  refine routine_here.bind fun pos => routine_token.bind fun t => ?_
  split
  · refine routine_next.bind fun _ => routine_token.bind fun t => ?_
    split
    · exact routine_ident.bind fun field => h.primaryRest _
    · exact (routine_complain _).bind fun _ => (routine_recover _).bind fun _ => h.primaryRest _
  · exact routine_next.bind fun _ => h.expr.bind fun i => (routine_want _).bind fun _ =>
      h.primaryRest _
  · exact routine_next.bind fun _ =>
      (routine_traced _ (routine_list _ h.expr _)).bind fun args => h.primaryRest _
  · exact .done x

/-- The rule for operands is a routine. -/
theorem routine_operand_succ : Routine (operand (budget + 1)) := by
  refine routine_traced _ (routine_token.bind fun t => ?_)
  split
  · exact routine_ident.bind fun n => (routine_remark _).bind fun _ => .done _
  · exact routine_literal.bind fun l => (routine_remark _).bind fun _ => .done _
  · refine routine_here.bind fun pos => (routine_sliceElem _).bind fun elem =>
      routine_token.bind fun t => ?_
    split
    · exact routine_next.bind fun _ => (routine_list _ h.expr _).bind fun elems => .done _
    · exact .done _
  · exact routine_here.bind fun pos => routine_next.bind fun _ => h.expr.bind fun x =>
      (routine_want _).bind fun _ => .done _
  · exact routine_hole.bind fun bad => (routine_complain _).bind fun _ =>
      (routine_recover _).bind fun _ => .done bad

end

/-- The rules for expressions are routines, whatever their budget. -/
theorem exprRoutines (budget : Nat) : ExprRoutines budget := by
  induction budget with
  | zero => exact exprRoutines_zero
  | succ budget ih =>
    exact {
      expr := routine_traced _ (ih.binaryExpr 0)
      binaryExpr := fun floor => ih.unaryExpr.bind fun x => ih.binaryRest floor x
      binaryRest := routine_binaryRest_succ ih
      unaryExpr := routine_unaryExpr_succ ih
      primaryExpr := routine_traced _ (ih.operand.bind fun x => ih.primaryRest x)
      primaryRest := routine_primaryRest_succ ih
      operand := routine_operand_succ ih }

/-- The rule for expressions is a routine. -/
theorem routine_expr (budget : Nat) : Routine (expr budget) := (exprRoutines budget).expr

/-! ## Declarations that may be grouped -/

/-- The rule for what is imported is a routine. It looks back only to a path that is no string. -/
theorem routine_importSpec : Routine importSpec := by
  refine routine_traced _ (routine_token.bind fun t => ?_)
  split
  · refine routine_literal.bind fun path => ?_
    split
    · exact .done _
    · exact (routine_complainAt _ rfl).bind fun _ => .done _
  · exact (routine_complain _).bind fun _ => (routine_recover _).bind fun _ => .done _

/-- The rule for a declared type is a routine. -/
theorem routine_typeSpec (budget : Nat) : Routine (typeSpec budget) := by
  refine routine_traced _ (routine_ident.bind fun name => routine_gotAssign.bind fun isAlias =>
    (routine_type? _).bind fun type? => ?_)
  have rest (type : Expr) : Routine (do
      remark ("id: " ++ name.text)
      return some (Spec.typeSpec name isAlias type)) :=
    (routine_remark _).bind fun _ => .done _
  split
  · exact rest _
  · exact routine_hole.bind fun bad => (routine_complain _).bind fun _ =>
      (routine_recover _).bind fun _ => rest bad

/-- The rule for declared variables is a routine. -/
theorem routine_varSpec (budget : Nat) : Routine (varSpec budget) := by
  refine routine_traced _ (routine_ident.bind fun name => (routine_remark _).bind fun _ =>
    routine_gotAssign.bind fun b => ?_)
  split
  · exact (routine_expr _).bind fun x => .done _
  · refine (routine_type? _).bind fun type? => ?_
    split
    · refine routine_gotAssign.bind fun b => ?_
      split
      · exact (routine_expr _).bind fun x => .done _
      · exact .done _
    · exact (routine_complain _).bind fun _ => (routine_recover _).bind fun _ => .done none

/-- A routine for something to be declared may be used in a group as well. -/
theorem routine_grouped (keyword : Keyword) (pos : Pos) {spec : ParseM (Option Spec)}
    (h : Routine spec) (budget : Nat) : Routine (grouped keyword pos spec budget) := by
  refine routine_token.bind fun t => ?_
  split
  · refine routine_newGroup.bind fun id => routine_here.bind fun pos => routine_next.bind fun _ =>
      (routine_list _ ?_ _).bind fun ds? => .done _
    exact routine_here.bind fun pos => h.bind fun spec? => .done _
  · exact h.bind fun spec? => .done _

/-! ## Clauses and simple statements -/

/-- The rule for simple statements is a routine. -/
theorem routine_simpleStmt (budget : Nat) : Routine (simpleStmt budget) := by
  refine routine_traced _ ((routine_expr _).bind fun lhs => routine_here.bind fun pos =>
    routine_current.bind fun l => routine_token.bind fun t => ?_)
  split
  · exact routine_next.bind fun _ => (routine_expr _).bind fun rhs => .done _
  · exact routine_next.bind fun _ => (routine_expr _).bind fun rhs => .done _
  · exact routine_next.bind fun _ => .done _
  · exact routine_next.bind fun _ => (routine_expr _).bind fun rhs => .done _
  · exact .done _

/-- Whether a statement serves as a condition is decided without any look, and there is one complaint at
most. -/
theorem routine_condition (c : Construct) (stmt? : Option Stmt)
    (separator? : Option (Pos × String)) : Routine (condition c stmt? separator?) := by
  unfold condition
  split
  · exact .done _
  · exact (routine_complainAt _ rfl).bind fun _ => .done none
  · split
    · split
      · split
        · exact (routine_complainAt _ rfl).bind fun _ => .done _
        · exact (routine_complainAt _ rfl).bind fun _ => .done _
      · exact .done none
    · exact .done none

/-- The rule for the separator in a clause is a routine. -/
theorem routine_clauseSeparator : Routine clauseSeparator := by
  refine routine_token.bind fun t => ?_
  split
  · exact routine_here.bind fun pos => routine_current.bind fun l => routine_next.bind fun _ =>
      .done _
  · refine (routine_want _).bind fun _ => routine_token.bind fun t => ?_
    split
    · exact .done none
    · exact (routine_recover _).bind fun _ => .done none

/-- The rule for the statement behind each round is a routine. It looks back only to a declaration there. -/
theorem routine_postStmt (budget : Nat) : Routine (postStmt budget) := by
  refine (routine_want _).bind fun _ => routine_token.bind fun t => ?_
  split
  · exact .done none
  · refine (routine_simpleStmt _).bind fun s => ?_
    split
    · exact (routine_complainAt _ rfl).bind fun _ => .done _
    · exact .done _

/-- The rule for what follows the first separator of a `for` is a routine. -/
theorem routine_forTail (budget : Nat) : Routine (forTail budget) := by
  refine routine_token.bind fun t => ?_
  split
  · exact (routine_postStmt _).bind fun post? => .done _
  · exact (routine_complain _).bind fun _ => .done _
  · exact (routine_simpleStmt _).bind fun cond => (routine_postStmt _).bind fun post? => .done _

/-- The rule for what comes first in a clause is a routine. -/
theorem routine_clauseInit (c : Construct) (budget : Nat) : Routine (clauseInit c budget) := by
  refine routine_token.bind fun t => ?_
  split
  · exact .done none
  · refine (routine_got _).bind fun b => ?_
    have rest : Routine (do return some (← simpleStmt budget)) :=
      (routine_simpleStmt _).bind fun s => .done (some s)
    dsimp only
    split
    · exact (routine_complain _).bind fun _ => rest
    · exact rest

/-- The rule for what stands before the block of a statement is a routine. -/
theorem routine_clause (c : Construct) (budget : Nat) : Routine (clause c budget) := by
  refine (routine_want _).bind fun _ => routine_token.bind fun t => ?_
  split
  · split
    · exact (routine_complain _).bind fun _ => routine_hole.bind fun bad => .done _
    · exact .done _
  · refine (routine_clauseInit _ _).bind fun init? => routine_token.bind fun t => ?_
    split
    · exact (routine_condition _ _ _).bind fun cond? => .done _
    · refine routine_clauseSeparator.bind fun separator? => ?_
      split
      · refine (routine_forTail _).bind fun tail => ?_
        exact (routine_condition _ _ _).bind fun cond? => .done _
      · refine routine_token.bind fun t => ?_
        split
        · exact (routine_condition _ _ _).bind fun cond? => .done _
        · exact (routine_simpleStmt _).bind fun cond =>
            (routine_condition _ _ _).bind fun cond? => .done _

/-- The rule for declarations among statements is a routine. -/
theorem routine_declStmt (keyword : Keyword) (budget : Nat) :
    Routine (declStmt keyword budget) := by
  refine routine_traced _ (routine_here.bind fun pos => routine_next.bind fun _ => ?_)
  split
  · exact (routine_grouped _ _ (routine_typeSpec _) _).bind fun ds => .done _
  · exact (routine_grouped _ _ (routine_varSpec _) _).bind fun ds => .done _

/-! ## Statements -/

/-- The rules for statements are routines with a given budget. -/
structure StmtRoutines (budget : Nat) : Prop where
  block : ∀ after?, Routine (ParseM.block after? budget)
  stmtList : Routine (ParseM.stmtList budget)
  stmts : Routine (ParseM.stmts budget)
  stmt? : Routine (ParseM.stmt? budget)
  ifStmt : Routine (ParseM.ifStmt budget)
  elseBranch : Routine (ParseM.elseBranch budget)
  whileStmt : Routine (ParseM.whileStmt budget)
  forStmt : Routine (ParseM.forStmt budget)

/-- Without any budget the rules for statements are a single move and looks at the current position. -/
theorem stmtRoutines_zero : StmtRoutines 0 where
  block _ := routine_starve.bind fun _ => routine_here.bind fun _ => routine_here.bind fun _ =>
    .done _
  stmtList := routine_starve.bind fun _ => .done []
  stmts := routine_starve.bind fun _ => .done []
  stmt? := routine_starve.bind fun _ => .done none
  ifStmt := routine_starve.bind fun _ => routine_here.bind fun _ => .done _
  elseBranch := routine_starve.bind fun _ => .done none
  whileStmt := routine_starve.bind fun _ => routine_here.bind fun _ => .done _
  forStmt := routine_starve.bind fun _ => routine_here.bind fun _ => .done _

section

variable {budget : Nat} (h : StmtRoutines budget)
include h

/-- The rule for blocks is a routine, also where a brace is missing. -/
theorem routine_block_succ (after? : Option Construct) : Routine (block after? (budget + 1)) := by
  have rest (pos : Pos) : Routine (do
      let stmts ← stmtList budget
      let rbrace ← here
      want .rbrace
      return Block.mk pos stmts rbrace) :=
    h.stmtList.bind fun _ => routine_here.bind fun _ => (routine_want _).bind fun _ => .done _
  refine routine_traced _ (routine_here.bind fun pos => (routine_got _).bind fun b => ?_)
  split
  · exact rest pos
  · refine (routine_complain _).bind fun _ => (routine_recover _).bind fun _ =>
      routine_here.bind fun rbrace => (routine_got _).bind fun b => ?_
    split
    · exact .done _
    · exact rest pos

/-- The rule for several statements is a routine. -/
theorem routine_stmts_succ : Routine (stmts (budget + 1)) := by
  have rest (s : Stmt) : Routine (do return s :: (← stmts budget)) :=
    h.stmts.bind fun ss => .done (s :: ss)
  refine routine_token.bind fun t => ?_
  split
  · exact .done []
  · refine h.stmt?.bind fun s? => ?_
    split
    · exact .done []
    · next s =>
      refine (routine_got _).bind fun b => ?_
      split
      · exact rest s
      · refine routine_token.bind fun t => ?_
        split
        · exact rest s
        · exact (routine_complain _).bind fun _ => (routine_recover _).bind fun _ =>
            ((routine_got _).bind fun _ => .done ()).bind fun _ => rest s

/-- The rule for statements decides by a look at the current lexeme. -/
theorem routine_stmt?_succ : Routine (stmt? (budget + 1)) := by
  refine routine_traced _ (routine_here.bind fun pos => routine_token.bind fun t => ?_)
  have simple : Routine (do return some (← simpleStmt budget)) :=
    (routine_simpleStmt _).bind fun s => .done (some s)
  split
  -- The first six kinds of lexemes start an expression.
  iterate 6 exact simple
  · exact (routine_declStmt _ _).bind fun s => .done _
  · exact (routine_declStmt _ _).bind fun s => .done _
  · exact (h.block _).bind fun b => .done _
  · exact h.forStmt.bind fun s => .done _
  · exact h.whileStmt.bind fun s => .done _
  · exact h.ifStmt.bind fun s => .done _
  · refine routine_next.bind fun _ => routine_token.bind fun t => ?_
    split
    · exact .done _
    · exact (routine_expr _).bind fun x => .done _
  · exact routine_next.bind fun _ => .done _
  · exact .done _
  · exact .done none

/-- The rule for `if` is a routine. -/
theorem routine_ifStmt_succ : Routine (ifStmt (budget + 1)) :=
  routine_traced _ (routine_here.bind fun _ => (routine_clause _ _).bind fun _ =>
    (h.block _).bind fun _ => h.elseBranch.bind fun _ => .done _)

/-- The rule for `else` is a routine. -/
theorem routine_elseBranch_succ : Routine (elseBranch (budget + 1)) := by
  refine (routine_got _).bind fun b => ?_
  split
  · refine routine_token.bind fun t => ?_
    split
    · exact h.ifStmt.bind fun s => .done _
    · exact (h.block _).bind fun b => .done _
    · exact (routine_complain _).bind fun _ => (routine_recover _).bind fun _ => .done none
  · exact .done none

/-- The rule for `while` is a routine. -/
theorem routine_whileStmt_succ : Routine (whileStmt (budget + 1)) := by
  refine routine_traced _ (routine_here.bind fun pos => routine_next.bind fun _ =>
    routine_token.bind fun t => ?_)
  split
  · exact (routine_complain _).bind fun _ => routine_hole.bind fun cond =>
      (h.block _).bind fun b => .done _
  · exact (routine_expr _).bind fun cond => (h.block _).bind fun b => .done _

/-- The rule for `for` is a routine. -/
theorem routine_forStmt_succ : Routine (forStmt (budget + 1)) :=
  routine_traced _ (routine_here.bind fun _ => (routine_clause _ _).bind fun _ =>
    (h.block _).bind fun _ => .done _)

end

/-- The rules for statements are routines, whatever their budget. -/
theorem stmtRoutines (budget : Nat) : StmtRoutines budget := by
  induction budget with
  | zero => exact stmtRoutines_zero
  | succ budget ih =>
    exact {
      block := routine_block_succ ih
      stmtList := routine_traced _ ih.stmts
      stmts := routine_stmts_succ ih
      stmt? := routine_stmt?_succ ih
      ifStmt := routine_ifStmt_succ ih
      elseBranch := routine_elseBranch_succ ih
      whileStmt := routine_whileStmt_succ ih
      forStmt := routine_forStmt_succ ih }

/-! ## Files -/

/-- The rule for bodies of functions leaves the function again that it enters. -/
theorem routine_funcBody? (budget : Nat) : Routine (funcBody? budget) := by
  refine routine_token.bind fun t => ?_
  split
  · have hbody : Routine (funcBody budget) := ((stmtRoutines _).block none).around .functionBody
    exact hbody.bind fun body => .done (some body)
  · exact .done none

/-- Giving up is a complaint and a recovery. -/
theorem routine_giveUp {α : Type} (complaint : Complaint) (follow : List Token) :
    Routine (giveUp complaint follow : ParseM (Option α)) :=
  (routine_complain _).bind fun _ => (routine_recover _).bind fun _ => .done none

/-- The rule for one parameter is a routine. -/
theorem routine_param? (what : Expected) (follow : List Token) (budget : Nat) :
    Routine (param? what follow budget) := by
  refine routine_here.bind fun pos => routine_token.bind fun t => ?_
  split
  · refine routine_ident.bind fun name => (routine_type? _).bind fun type? => ?_
    split
    · exact .done _
    · exact routine_giveUp _ _
  · exact routine_giveUp _ _

/-- The rule for parameters is a routine. -/
theorem routine_params (budget : Nat) : Routine (params budget) := by
  refine (routine_got _).bind fun b => ?_
  split
  · exact (routine_list _ (routine_param? _ _ _) _).bind fun ps => .done _
  · exact (routine_complain _).bind fun _ => .done []

/-- The rule for a parameter of an operator is a routine. -/
theorem routine_operandParam? (what : Expected) (budget : Nat) :
    Routine (operandParam? what budget) := by
  refine (routine_got _).bind fun b => ?_
  split
  · refine (routine_param? _ _ _).bind fun param? => ?_
    split
    · exact (routine_want _).bind fun _ => .done _
    · exact .done none
  · exact routine_giveUp _ _

/-- The rule for functions is a routine. -/
theorem routine_funcSpec (budget : Nat) : Routine (funcSpec budget) := by
  refine routine_traced _ (routine_token.bind fun t => ?_)
  split
  · exact routine_ident.bind fun name => (routine_remark _).bind fun _ =>
      (routine_params _).bind fun ps => (routine_type? _).bind fun result? =>
        (routine_funcBody? _).bind fun body? => .done _
  · exact routine_giveUp _ _

/-- The rule for the operator that is declared is a routine. It looks back only to a name that is no
operator. -/
theorem routine_overload? : Routine overload? := by
  refine routine_token.bind fun t => ?_
  split
  · refine routine_ident.bind fun name => ?_
    split
    · exact (routine_remark _).bind fun _ => .done _
    · exact (routine_complainAt _ rfl).bind fun _ => (routine_recover _).bind fun _ => .done none
  · exact routine_giveUp _ _

/-- The rule for operators is a routine. -/
theorem routine_operSpec (budget : Nat) : Routine (operSpec budget) := by
  refine routine_traced _ ((routine_operandParam? _ _).bind fun lhs? => ?_)
  split
  · exact .done none
  · refine routine_overload?.bind fun overload? => ?_
    split
    · exact .done none
    · refine (routine_operandParam? _ _).bind fun rhs? => ?_
      split
      · exact .done none
      · refine (routine_type? _).bind fun result? => ?_
        split
        · refine (routine_funcBody? _).bind fun body? => ?_
          split
          · exact .done _
          · exact (routine_complain _).bind fun _ => .done _
        · exact routine_giveUp _ _

/-- Whatever a declaration at the top level starts with, its rule is a routine. -/
theorem routine_topLevelAt {t : Token} {budget : Nat} {action : ParseM (List Decl)}
    (h : topLevelAt t budget = some action) : Routine action := by
  -- Two shapes of an item, with and without a group.
  have group (k : Keyword) {spec : ParseM (Option Spec)} (hs : Routine spec) : Routine (do
      let pos ← here
      next
      grouped k pos spec budget) :=
    routine_here.bind fun pos => routine_next.bind fun _ => routine_grouped _ _ hs _
  have single {spec : ParseM (Option Spec)} (hs : Routine spec) : Routine (do
      let pos ← here
      next
      return ((← spec).map (Decl.mk pos none)).toList) :=
    routine_here.bind fun pos => routine_next.bind fun _ => hs.bind fun spec? => .done _
  unfold topLevelAt at h
  split at h
  · unfold topLevel? at h
    split at h
    · exact Option.some.inj h ▸ group _ routine_importSpec
    · exact Option.some.inj h ▸ group _ (routine_typeSpec _)
    · exact Option.some.inj h ▸ group _ (routine_varSpec _)
    · exact Option.some.inj h ▸ single (routine_funcSpec _)
    · exact Option.some.inj h ▸ single (routine_operSpec _)
    · simp at h
  · simp at h

/-- What must follow a declaration is asked for in a routine: how many complaints there are is seen in a
look. -/
theorem routine_endTopLevel (before : Nat) : Routine (endTopLevel before) := by
  refine routine_token.bind fun t => ?_
  split
  · exact .done ()
  · refine (routine_got _).bind fun b => ?_
    split
    · exact .done ()
    · refine .ofGet _ (fun p => ?_) fun p q hpq => by rw [Parser.count_of_view hpq]
      dsimp only
      split
      · exact (routine_complain _).bind fun _ => routine_recover _
      · exact routine_recover _

/-- The rule for the declarations of a file is a routine. -/
theorem routine_topLevels (afterImport : Bool) (budget : Nat) :
    Routine (topLevels afterImport budget) := by
  induction budget generalizing afterImport with
  | zero => exact routine_starve.bind fun _ => .done []
  | succ budget ih =>
    refine routine_token.bind fun t => ?_
    split
    · exact .done []
    · split
      · exact routine_next.bind fun _ => ih _
      · dsimp only
        cases ha : topLevelAt t budget with
        | none =>
          -- What follows is a routine for each value that the next call may be given.
          have rest (isImport : Bool) : Routine (do
              complain .strayStatement
              recover strayFollow
              topLevels isImport budget) :=
            (routine_complain _).bind fun _ => (routine_recover _).bind fun _ => ih _
          split
          · exact (routine_complain _).bind fun _ => rest _
          · exact rest _
        | some action =>
          have rest (isImport : Bool) : Routine (do
              let before := (← get).count
              let decls ← action
              endTopLevel before
              return decls ++ (← topLevels isImport budget)) := by
            refine .ofGet _ (fun p => ?_) fun p q hpq => by rw [Parser.count_of_view hpq]
            exact (routine_topLevelAt ha).bind fun ds => (routine_endTopLevel _).bind fun _ =>
              (ih _).bind fun rest => .done _
          split
          · exact (routine_complain _).bind fun _ => rest _
          · exact rest _

/-- Reading a file is a routine. -/
theorem routine_file (budget : Nat) : Routine (file budget) := by
  refine routine_traced _ (routine_here.bind fun pos => routine_current.bind fun l =>
    (routine_got _).bind fun b => ?_)
  split
  · exact routine_ident.bind fun name => (routine_remark _).bind fun _ =>
      (routine_want _).bind fun _ => (routine_topLevels _ _).bind fun ds => .done _
  · exact .done _

end ParseM

end FrontEnd
