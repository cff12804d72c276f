import FrontEnd.Proofs.Endings.Agreement

/-!
# The rules of the grammar agree

One theorem for each rule, in the order of the grammar, up to `agrees_file`. Most rules agree wherever they
start. Statements and lists have to start at the same lexeme: in place of a statement there may be a
separator, the position of which goes into the tree.
-/

namespace FrontEnd

namespace ParseM

variable {α : Type} {P : Scene}

open Scene (settles_level settles_seeing)

/-! ## Names and literals -/

/-- The rule for identifiers agrees where tokens other than separators are the same in both: the identifier has
the position of its lexeme. -/
theorem agrees_ident (hP : P.Settles) : Agrees P ident := by
  refine .hereLevel hP fun pos => Agree.token.bind fun t => ?_
  split
  · next ht =>
    subst ht
    exact .currentLevel (settles_seeing (by decide)) fun lexeme =>
      (Agree.nextAt (by decide)).bind fun _ => .done _
  · exact (Agree.complain _ _).bind fun _ => .ofLost ((routine_recover _).bind fun _ => .done _)

/-- The rule for literals agrees at a literal. -/
theorem agrees_literal : Agrees (P.seeing .literal) literal :=
  .hereLevel (settles_seeing (by decide)) fun pos => .currentLevel (settles_seeing (by decide)) fun lexeme =>
    (Agree.nextAt (by decide)).bind fun _ => .done _

/-- Whether there is an assignment is the same in both. -/
theorem agrees_gotAssign : Agrees P gotAssign := by
  refine Agree.token.bind fun t => ?_
  split
  · exact (Agree.complain _ _).bind fun _ => .ofLost (routine_next.bind fun _ => .done true)
  · exact (Agree.nextAt (by decide)).bind fun _ => .done _
  · exact .done _

/-! ## Lists -/

/-- The elements of a list start at the same lexeme, since no separator ends a statement. -/
theorem agrees_list (kind : ListKind) {element : ParseM α} (h : Agrees .level element)
    (hr : Routine element) (budget : Nat) : Agrees .level (list kind element budget) := by
  induction budget with
  | zero => exact Agree.starve.bind fun _ => .ofLost (.done [])
  | succ budget ih =>
    have hcloser : kind.closer ≠ .dot := by cases kind <;> decide
    have hseparator : kind.separator ≠ .dot := by cases kind <;> decide
    have hends : kind.separator.endsStatement = false := by cases kind <;> decide
    have hsemi : kind.closer ≠ .semi := by cases kind <;> decide
    refine Agree.token.bind fun t => ?_
    split
    · exact (Agree.want hcloser).bind fun _ => .done _
    · refine (h.weaken fun _ _ => And.left).bind fun x => .gotThen ?_ ?_
      · exact (Agree.nextLevelAt hseparator hends).bind fun _ => ih.bind fun xs => .done _
      · refine Agree.token.bind fun t => ?_
        split
        · next ht =>
          -- At the closing token the list is read on with, the parsers are at the same lexeme.
          subst ht
          exact (ih.mono (settles_seeing hsemi) fun _ _ _ => id).bind fun xs => .done _
        · refine (Agree.complain _ _).bind fun _ => .ofLost ?_
          refine (routine_recover _).bind fun _ => routine_token.bind fun t => ?_
          split
          · exact (routine_list kind hr budget).bind fun xs => .done _
          · exact .done _

/-! ## Types -/

/-- The rules for types agree with a given budget. -/
structure TypesAgree (budget : Nat) : Prop where
  type? : Agrees .any (ParseM.type? budget)
  sliceElem : Agrees (Scene.seeing .any .lbrack) (ParseM.sliceElem budget)

/-- The rules for types agree, whatever their budget. -/
theorem typesAgree (budget : Nat) : TypesAgree budget := by
  -- A type and the element of a slice call one another; one induction on the budget serves both.
  induction budget with
  | zero =>
    constructor
    case type? => exact Agree.starve.bind fun _ => .ofLost (.done none)
    case sliceElem => exact Agree.starve.bind fun _ => .ofLost routine_hole
  | succ budget ih =>
    constructor
    case type? =>
      refine Agree.token.bind fun t => ?_
      split
      · exact (agrees_ident (settles_seeing (by decide))).bind fun name => .done _
      · exact .hereLevel (settles_seeing (by decide)) fun pos => ih.sliceElem.bind fun elem => .done _
      · exact .done _
    case sliceElem =>
      refine .traced _ ((Agree.nextAt (by decide)).bind fun _ =>
        (Agree.want (by decide)).bind fun _ => ih.type?.anywhere.bind fun type? => ?_)
      split
      · exact .done _
      · exact .hole fun bad bad' => (Agree.complain _ _).bind fun _ => .ofLost (.done bad)

/-- The rule for types agrees. -/
theorem agrees_type? (budget : Nat) : Agrees P (type? budget) :=
  (typesAgree budget).type?.anywhere

/-! ## Expressions -/

/-- The rules for expressions agree with a given budget. -/
structure ExprsAgree (budget : Nat) : Prop where
  expr : Agrees .any (ParseM.expr budget)
  binaryExpr : ∀ floor, Agrees .any (ParseM.binaryExpr floor budget)
  binaryRest : ∀ floor x, Agrees .any (ParseM.binaryRest floor x budget)
  unaryExpr : Agrees .any (ParseM.unaryExpr budget)
  primaryExpr : Agrees .any (ParseM.primaryExpr budget)
  primaryRest : ∀ x, Agrees .any (ParseM.primaryRest x budget)
  operand : Agrees .any (ParseM.operand budget)

/-- A run that has no budget is lost. -/
theorem exprsAgree_zero : ExprsAgree 0 where
  expr := Agree.starve.bind fun _ => .ofLost routine_hole
  binaryExpr _ := Agree.starve.bind fun _ => .ofLost routine_hole
  binaryRest _ x := Agree.starve.bind fun _ => .ofLost (.done x)
  unaryExpr := Agree.starve.bind fun _ => .ofLost routine_hole
  primaryExpr := Agree.starve.bind fun _ => .ofLost routine_hole
  primaryRest x := Agree.starve.bind fun _ => .ofLost (.done x)
  operand := Agree.starve.bind fun _ => .ofLost routine_hole

section

variable {budget : Nat} (h : ExprsAgree budget)
include h

/-- The rule for what follows the left operand: neither kind of separator is an operator. -/
theorem agrees_binaryRest_succ (floor : Nat) (x : Expr) : Agrees .any (binaryRest floor x (budget + 1)) := by
  refine .operator? fun p q hop => ?_
  rw [hop]
  split
  · next op hop' =>
    split
    · rw [hop']
      refine .hereLevel (Scene.settles_of_ne fun _ _ hs => (hs.2 rfl).2.1) fun pos =>
        (Agree.remark _).bind fun _ => (Agree.next fun _ _ hs => (hs.2 rfl).1).bind fun _ =>
          (h.binaryExpr _).bind fun y => ?_
      split
      · exact h.binaryRest _ _
      · exact h.binaryRest _ _
    · exact .done _
  · exact .done _

/-- The rule for unary operations agrees. -/
theorem agrees_unaryExpr_succ : Agrees .any (unaryExpr (budget + 1)) := by
  refine .traced _ (.operator? fun p q hop => ?_)
  rw [hop]
  split
  · next op hop' =>
    have hsome : p.operator?.isSome := by
      obtain ⟨hop, -⟩ := Option.filter_eq_some_iff.mp hop'
      rw [hop]
      rfl
    exact .hereLevel (Scene.settles_of_ne fun _ _ hs => (hs.2 hsome).2.1) fun pos =>
      (Agree.next fun _ _ hs => (hs.2 hsome).1).bind fun _ => h.unaryExpr.bind fun x => .done _
  · exact h.primaryExpr.anywhere

/-- The rule for what follows an operand agrees: at a separator it takes nothing. -/
theorem agrees_primaryRest_succ (x : Expr) : Agrees .any (primaryRest x (budget + 1)) := by
  refine .here fun pos pos' => Agree.token.bind fun t => ?_
  -- At a separator, to which the positions may differ, nothing is read and none of them is used.
  split
  · refine .sameAt (.afterDot ?_ ?_) (by decide) fun heq => by rw [heq]
    · exact (agrees_ident (settles_seeing (by decide))).bind fun field => h.primaryRest _
    · exact Agree.lost_complain ((routine_recover _).bind fun _ => (exprRoutines budget).primaryRest x)
  · refine .sameAt ?_ (by decide) fun heq => by rw [heq]
    exact (Agree.nextAt (by decide)).bind fun _ => h.expr.bind fun i =>
      (Agree.want (by decide)).bind fun _ => h.primaryRest _
  · refine .sameAt ?_ (by decide) fun heq => by rw [heq]
    refine (Agree.nextLevelAt (by decide) rfl).bind fun _ => ?_
    exact (Agree.traced _ (agrees_list _ h.expr.anywhere (routine_expr _) _)).bind
      fun args => h.primaryRest _
  · exact .done _

/-- The rule for operands agrees: a hole in place of an operand is complained about, and the run is lost. -/
theorem agrees_operand_succ : Agrees .any (operand (budget + 1)) := by
  refine .traced _ (Agree.token.bind fun t => ?_)
  split
  · exact (agrees_ident (settles_seeing (by decide))).bind fun name => (Agree.remark _).bind fun _ =>
      .done _
  · exact agrees_literal.bind fun literal => (Agree.remark _).bind fun _ => .done _
  · refine .hereLevel (settles_seeing (by decide)) fun pos =>
      ((typesAgree budget).sliceElem.weaken fun _ _ h => ⟨trivial, h.2⟩).bind fun elem =>
        Agree.token.bind fun t => ?_
    split
    · next ht =>
      subst ht
      refine (Agree.nextLevelAt (by decide) rfl).bind fun _ => ?_
      exact (agrees_list _ h.expr.anywhere (routine_expr _) _).bind fun xs => .done _
    · exact .done _
  · exact .hereLevel (settles_seeing (by decide)) fun pos => (Agree.nextAt (by decide)).bind fun _ =>
      h.expr.bind fun x => (Agree.want (by decide)).bind fun _ => .done _
  · exact .hole fun bad bad' => (Agree.complain _ _).bind fun _ =>
      .ofLost ((routine_recover _).bind fun _ => .done bad)

end

/-- The rules for expressions agree, whatever their budget. -/
theorem exprsAgree (budget : Nat) : ExprsAgree budget := by
  induction budget with
  | zero => exact exprsAgree_zero
  | succ budget ih =>
    constructor
    case expr => exact .traced _ (ih.binaryExpr 0)
    case binaryExpr => exact fun floor => ih.unaryExpr.bind fun x => ih.binaryRest floor x
    case binaryRest => exact agrees_binaryRest_succ ih
    case unaryExpr => exact agrees_unaryExpr_succ ih
    case primaryExpr => exact .traced _ (ih.operand.bind fun x => ih.primaryRest x)
    case primaryRest => exact agrees_primaryRest_succ ih
    case operand => exact agrees_operand_succ ih

/-- The rule for expressions agrees. -/
theorem agrees_expr (budget : Nat) : Agrees P (expr budget) :=
  (exprsAgree budget).expr.anywhere

/-! ## Declarations that may be grouped -/

/-- The rule for what is imported agrees. -/
theorem agrees_importSpec : Agrees P importSpec := by
  refine .traced _ (Agree.token.bind fun t => ?_)
  split
  · next ht =>
    subst ht
    refine agrees_literal.bind fun path => ?_
    split
    · exact .done _
    · exact (Agree.complainAt _ _ _ _).bind fun _ => .ofLost (.done _)
  · exact (Agree.complain _ _).bind fun _ => .ofLost ((routine_recover _).bind fun _ => .done _)

/-- The rule for a declared type agrees. -/
theorem agrees_typeSpec (budget : Nat) : Agrees .level (typeSpec budget) := by
  refine .traced _ ((agrees_ident settles_level).bind fun name => agrees_gotAssign.bind fun isAlias =>
    (agrees_type? budget).bind fun type? => ?_)
  split
  · exact (Agree.remark _).bind fun _ => .done _
  · refine .hole fun bad bad' => (Agree.complain _ _).bind fun _ => .ofLost ?_
    exact (routine_recover _).bind fun _ => (routine_remark _).bind fun _ => .done _

/-- The rule for declared variables agrees. -/
theorem agrees_varSpec (budget : Nat) : Agrees .level (varSpec budget) := by
  refine .traced _ ((agrees_ident settles_level).bind fun name => (Agree.remark _).bind fun _ =>
    agrees_gotAssign.bind fun isDefined => ?_)
  split
  · exact (agrees_expr budget).bind fun x => .done _
  · refine (agrees_type? budget).bind fun type? => ?_
    split
    · refine agrees_gotAssign.bind fun isDefined => ?_
      split
      · exact (agrees_expr budget).bind fun x => .done _
      · exact .done _
    · exact (Agree.complain _ _).bind fun _ => .ofLost ((routine_recover _).bind fun _ => .done _)

/-- A rule that agrees may be used in a group as well. -/
theorem agrees_grouped (keyword : Keyword) (pos : Pos) {spec : ParseM (Option Spec)}
    (h : Agrees .level spec) (hr : Routine spec) (budget : Nat) :
    Agrees .level (grouped keyword pos spec budget) := by
  refine Agree.token.bind fun t => ?_
  split
  · next ht =>
    subst ht
    refine Agree.newGroup.bind fun group => .hereLevel (settles_seeing (by decide)) fun opening =>
      (Agree.nextLevelAt (by decide) rfl).bind fun _ => ?_
    have hmember : Agrees .level (do
        let pos ← here
        return (← spec).map (Decl.mk pos (some ⟨group, opening, keyword⟩))) :=
      .hereLevel settles_level fun pos => h.bind fun spec? => .done _
    refine (agrees_list _ hmember ?_ budget).bind fun ds => .done _
    exact routine_here.bind fun pos => hr.bind fun spec? => .done _
  · exact (h.weaken fun _ _ => And.left).bind fun spec? => .done _

/-! ## Clauses and simple statements -/

/-- The rule for simple statements agrees: an operation on a statement has the position of its operator, which
is no separator. -/
theorem agrees_simpleStmt (budget : Nat) : Agrees P (simpleStmt budget) := by
  -- The position and the operator are looked up before it is known whether there is one. At a separator they
  -- may differ, but then they are not used.
  refine .traced _ ((agrees_expr budget).bind fun lhs => .hereCurrent fun pos pos' lexeme lexeme' =>
    Agree.token.bind fun t => ?_)
  split
  · refine .sameAt ?_ (by decide) fun ⟨heq, _⟩ => by rw [heq]
    exact (Agree.nextAt (by decide)).bind fun _ => (agrees_expr _).bind fun rhs => .done _
  · refine .sameAt ?_ (by decide) fun ⟨heq, heq'⟩ => by rw [heq, heq']
    exact (Agree.nextAt (by decide)).bind fun _ => (agrees_expr _).bind fun rhs => .done _
  · refine .sameAt ?_ (by decide) fun ⟨heq, heq'⟩ => by rw [heq, heq']
    exact (Agree.nextAt (by decide)).bind fun _ => .done _
  · refine .sameAt ?_ (by decide) fun ⟨heq, _⟩ => by rw [heq]
    exact (Agree.nextAt (by decide)).bind fun _ => (agrees_expr _).bind fun rhs => .done _
  · exact .done _

/-- Where the separator before it is matters only for a condition that is missing. -/
theorem agree_condition (c : Construct) (stmt? : Option Stmt) (pos pos' : Pos) (reason : String) :
    Agree P (condition c stmt? (some (pos, reason))) (condition c stmt? (some (pos', reason))) fun _ => .any := by
  unfold condition
  split
  · exact .done _
  · exact (Agree.complainAt _ _ _ _).bind fun _ => .ofLost (.done none)
  · dsimp only
    split
    · split
      · exact (Agree.complainAt _ _ _ _).bind fun _ => .ofLost (.done _)
      · exact (Agree.complainAt _ _ _ _).bind fun _ => .ofLost (.done _)
    · exact .done _

/-- Whether a statement serves as a condition agrees where there is no separator to complain about. -/
theorem agrees_condition (c : Construct) (stmt? : Option Stmt) : Agrees P (condition c stmt? none) := by
  unfold condition
  split
  · exact .done _
  · exact (Agree.complainAt _ _ _ _).bind fun _ => .ofLost (.done none)
  · exact .done _

/-- After the separator of a clause, of which only the position may differ, the parsers are at the same
lexeme. -/
theorem agree_afterSeparator {β : Type} {f f' : Option (Pos × String) → ParseM β} {R : β → Scene}
    (hP : ∀ l m, P l m → l.token ≠ .lbrace)
    (h : ∀ pos pos' reason, Agree .level (f (some (pos, reason))) (f' (some (pos', reason))) R)
    (hr : Routine (f none)) : Agree P (clauseSeparator >>= f) (clauseSeparator >>= f') R := by
  unfold clauseSeparator
  rw [bind_assoc, bind_assoc]
  refine Agree.token.bind fun t => ?_
  split
  · next ht =>
    subst ht
    simp only [bind_assoc, pure_bind]
    refine .here fun pos pos' => .current fun lexeme lexeme' hliteral => ?_
    rw [hliteral]
    -- The semicolon may be the inserted one, then positions and reasons differ and the lexemes do too.
    have hseen (l m : Lexeme) (hs : ((P.seeing .semi l m ∧ (m = l → pos' = pos)) ∧ (m = l → lexeme' = lexeme))) :
        Scene.seeing .any .semi l m := ⟨trivial, hs.1.1.2⟩
    exact ((Agree.nextLevelAt (by decide) rfl).weaken hseen).bind fun _ => h _ _ _
  · simp only [bind_assoc]
    refine (Agree.wantOther fun l m hs => hP l m (And.left hs)).bind fun _ => .ofLost ?_
    refine routine_token.bind fun t => ?_
    split
    · exact hr
    · exact (routine_recover _).bind fun _ => hr

/-- The rule for the statement behind each round agrees. -/
theorem agrees_postStmt (budget : Nat) : Agrees P (postStmt budget) := by
  refine (Agree.want (by decide)).bind fun _ => Agree.token.bind fun t => ?_
  split
  · exact .done _
  · refine (agrees_simpleStmt budget).bind fun s => ?_
    split
    · exact (Agree.complainAt _ _ _ _).bind fun _ => .ofLost (.done _)
    · exact .done _

/-- The rule for what follows the first separator of a `for` agrees. -/
theorem agrees_forTail (budget : Nat) : Agrees P (forTail budget) := by
  refine Agree.token.bind fun t => ?_
  split
  · exact (agrees_postStmt budget).bind fun post? => .done _
  · exact (Agree.complain _ _).bind fun _ => .ofLost (.done _)
  · exact (agrees_simpleStmt budget).bind fun cond => (agrees_postStmt budget).bind fun post? => .done _

/-- The rule for what comes first in a clause agrees. -/
theorem agrees_clauseInit (c : Construct) (budget : Nat) : Agrees P (clauseInit c budget) := by
  have rest : Agrees .any (do return some (← simpleStmt budget)) :=
    (agrees_simpleStmt budget).bind fun s => .done _
  refine Agree.token.bind fun t => ?_
  split
  · exact .done _
  · refine .gotThen ?_ ?_
    · exact (Agree.nextAt (by decide)).bind fun _ => (Agree.complain _ _).bind fun _ =>
        .ofLost ((routine_simpleStmt budget).bind fun s => .done _)
    · exact rest.anywhere

/-- The rule for what stands before the block of a statement agrees. The separators there are not inserted, or
the run is lost. -/
theorem agrees_clause (c : Construct) (budget : Nat) : Agrees P (clause c budget) := by
  refine (Agree.want (by cases c <;> decide)).bind fun _ => Agree.token.bind fun t => ?_
  split
  · split
    · exact (Agree.complain _ _).bind fun _ => .ofLost (routine_hole.bind fun bad => .done _)
    · exact .done _
  · refine (agrees_clauseInit c budget).bind fun init? => Agree.token.bind fun t => ?_
    split
    · exact (agrees_condition c init?).bind fun cond? => .done _
    · -- The separator may be the inserted semicolon, of which the two lexemes tell different reasons; past it
      -- the branches follow the clause.
      next hne =>
      refine agree_afterSeparator (fun l m hs he => hne (hs.2.symm.trans he)) (fun pos pos' reason => ?_) ?_
      · split
        · exact (agrees_forTail budget).bind fun tail => (agree_condition _ _ _ _ _).bind fun cond? =>
            .done _
        · refine Agree.token.bind fun t => ?_
          split
          · exact (agree_condition _ _ _ _ _).bind fun cond? => .done _
          · exact (agrees_simpleStmt budget).bind fun cond => (agree_condition _ _ _ _ _).bind fun cond? =>
              .done _
      · split
        · exact (routine_forTail _).bind fun tail => (routine_condition _ _ _).bind fun cond? => .done _
        · refine routine_token.bind fun t => ?_
          split
          · exact (routine_condition _ _ _).bind fun cond? => .done _
          · exact (routine_simpleStmt _).bind fun cond =>
              (routine_condition _ _ _).bind fun cond? => .done _

/-- The rule for declarations among statements agrees behind their keyword. -/
theorem agrees_declStmt (keyword : Keyword) (hk : (Token.keyword keyword).endsStatement = false)
    (budget : Nat) : Agrees (P.seeing (.keyword keyword)) (declStmt keyword budget) := by
  refine .traced _ (.hereLevel (settles_seeing Token.noConfusion) fun pos =>
    (Agree.nextLevelAt Token.noConfusion hk).bind fun _ => ?_)
  split
  · exact (agrees_grouped _ _ (agrees_typeSpec _) (routine_typeSpec _) _).bind fun ds => .done _
  · exact (agrees_grouped _ _ (agrees_varSpec _) (routine_varSpec _) _).bind fun ds => .done _

/-! ## Statements -/

/-- The rules for statements agree with a given budget. -/
structure StmtsAgree (budget : Nat) : Prop where
  block : ∀ after?, Agrees .any (ParseM.block after? budget)
  stmtList : Agrees .level (ParseM.stmtList budget)
  stmts : Agrees .level (ParseM.stmts budget)
  stmt? : Agrees .level (ParseM.stmt? budget)
  ifStmt : Agrees (Scene.seeing .any (.keyword .ifWord)) (ParseM.ifStmt budget)
  elseBranch : Agrees .any (ParseM.elseBranch budget)
  whileStmt : Agrees (Scene.seeing .any (.keyword .whileWord)) (ParseM.whileStmt budget)
  forStmt : Agrees (Scene.seeing .any (.keyword .forWord)) (ParseM.forStmt budget)

/-- A run that has no budget is lost. -/
theorem stmtsAgree_zero : StmtsAgree 0 where
  block _ := Agree.starve.bind fun _ => .ofLost (routine_here.bind fun _ => routine_here.bind fun _ => .done _)
  stmtList := Agree.starve.bind fun _ => .ofLost (.done [])
  stmts := Agree.starve.bind fun _ => .ofLost (.done [])
  stmt? := Agree.starve.bind fun _ => .ofLost (.done none)
  ifStmt := Agree.starve.bind fun _ => .ofLost (routine_here.bind fun _ => .done _)
  elseBranch := Agree.starve.bind fun _ => .ofLost (.done none)
  whileStmt := Agree.starve.bind fun _ => .ofLost (routine_here.bind fun _ => .done _)
  forStmt := Agree.starve.bind fun _ => .ofLost (routine_here.bind fun _ => .done _)

section

variable {budget : Nat} (h : StmtsAgree budget)
include h

/-- The rule for blocks agrees: its braces are no separators. -/
theorem agrees_block_succ (after? : Option Construct) : Agrees .any (block after? (budget + 1)) := by
  have hr (pos : Pos) : Routine (do
      let stmts ← stmtList budget
      let rbrace ← here
      want .rbrace
      return Block.mk pos stmts rbrace) :=
    (stmtRoutines budget).stmtList.bind fun _ => routine_here.bind fun _ => (routine_want _).bind fun _ => .done _
  refine .traced _ (.here fun pos pos' => .gotThen ?_ ?_)
  · refine .sameAt ?_ (by decide) fun heq => by rw [heq]
    refine (Agree.nextLevelAt (by decide) rfl).bind fun _ => h.stmtList.bind fun stmts => ?_
    -- If the brace is missing, nothing matters any more.
    refine .cases .rbrace ?_ ?_
    · exact .hereLevel (settles_seeing (by decide)) fun rbrace => (Agree.want (by decide)).bind fun _ =>
        .done _
    · exact .here fun rbrace rbrace' => (Agree.wantOther fun _ _ hs => hs.1.2).bind fun _ => .ofLost (.done _)
  · refine (Agree.complain _ _).bind fun _ => .ofLost ((routine_recover _).bind fun _ =>
      routine_here.bind fun rbrace => (routine_got _).bind fun b => ?_)
    split
    · exact .done _
    · exact hr pos

/-- The rule for several statements agrees where the first one starts alike. -/
theorem agrees_stmts_succ : Agrees .level (stmts (budget + 1)) := by
  refine Agree.token.bind fun t => ?_
  split
  · exact .done _
  · refine (h.stmt?.weaken fun _ _ => And.left).bind fun s? => ?_
    split
    · exact .done _
    · next s =>
      refine .gotThen ?_ (Agree.token.bind fun t => ?_)
      · exact (Agree.nextLevelAt (by decide) rfl).bind fun _ => h.stmts.bind fun ss => .done _
      · split
        · next ht =>
          subst ht
          exact (h.stmts.mono (settles_seeing (by decide)) fun _ _ _ => id).bind fun ss => .done _
        · refine (Agree.complain _ _).bind fun _ => .ofLost ((routine_recover _).bind fun _ => ?_)
          exact ((routine_got _).bind fun _ => .done ()).bind fun _ =>
            (stmtRoutines budget).stmts.bind fun ss => .done _

/-- The rule for statements agrees where it starts at the same lexeme. An empty statement has the position of
its separator. -/
theorem agrees_stmt?_succ : Agrees .level (stmt? (budget + 1)) := by
  have simple (t : Token) : Agrees (Scene.level.seeing t) (do return some (← simpleStmt budget)) :=
    (agrees_simpleStmt budget).bind fun s => .done _
  refine .traced _ (.hereLevel settles_level fun pos => Agree.token.bind fun t => ?_)
  split
  iterate 6 exact simple _
  · exact (agrees_declStmt .varWord rfl _).bind fun s => .done _
  · exact (agrees_declStmt .typeWord rfl _).bind fun s => .done _
  · exact (h.block none).anywhere.bind fun b => .done _
  · exact (h.forStmt.weaken fun _ _ hs => ⟨trivial, hs.2⟩).bind fun s => .done _
  · exact (h.whileStmt.weaken fun _ _ hs => ⟨trivial, hs.2⟩).bind fun s => .done _
  · exact (h.ifStmt.weaken fun _ _ hs => ⟨trivial, hs.2⟩).bind fun s => .done _
  · refine (Agree.nextAt (by decide)).bind fun _ => Agree.token.bind fun t => ?_
    split
    · exact .done _
    · exact (agrees_expr _).bind fun x => .done _
  · exact (Agree.nextAt (by decide)).bind fun _ => .done _
  · exact .done _
  · exact .done _

/-- The rule for `if` agrees. -/
theorem agrees_ifStmt_succ : Agrees (Scene.seeing .any (.keyword .ifWord)) (ifStmt (budget + 1)) :=
  .traced _ (.hereLevel (settles_seeing (by decide)) fun pos => (agrees_clause _ _).bind fun clause =>
    (h.block _).bind fun thenBlock => h.elseBranch.bind fun else? => .done _)

/-- The rule for `else` agrees. -/
theorem agrees_elseBranch_succ : Agrees .any (elseBranch (budget + 1)) := by
  refine .gotThen ?_ (.done _)
  refine (Agree.nextAt (by decide)).bind fun _ => Agree.token.bind fun t => ?_
  split
  · exact (h.ifStmt.weaken fun _ _ hs => ⟨trivial, hs.2⟩).bind fun s => .done _
  · exact (h.block none).anywhere.bind fun b => .done _
  · exact (Agree.complain _ _).bind fun _ => .ofLost ((routine_recover _).bind fun _ => .done none)

/-- The rule for `while` agrees. -/
theorem agrees_whileStmt_succ :
    Agrees (Scene.seeing .any (.keyword .whileWord)) (whileStmt (budget + 1)) := by
  refine .traced _ (.hereLevel (settles_seeing (by decide)) fun pos => (Agree.nextAt (by decide)).bind fun _ =>
    Agree.token.bind fun t => ?_)
  split
  · exact (Agree.complain _ _).bind fun _ => .ofLost (routine_hole.bind fun cond =>
      ((stmtRoutines budget).block _).bind fun b => .done _)
  · exact (agrees_expr _).bind fun cond => (h.block _).bind fun b => .done _

/-- The rule for `for` agrees. -/
theorem agrees_forStmt_succ : Agrees (Scene.seeing .any (.keyword .forWord)) (forStmt (budget + 1)) :=
  .traced _ (.hereLevel (settles_seeing (by decide)) fun pos => (agrees_clause _ _).bind fun clause =>
    (h.block _).bind fun body => .done _)

end

/-- The rules for statements agree, whatever their budget. -/
theorem stmtsAgree (budget : Nat) : StmtsAgree budget := by
  induction budget with
  | zero => exact stmtsAgree_zero
  | succ budget ih =>
    constructor
    case block => exact agrees_block_succ ih
    case stmtList => exact .traced _ ih.stmts
    case stmts => exact agrees_stmts_succ ih
    case stmt? => exact agrees_stmt?_succ ih
    case ifStmt => exact agrees_ifStmt_succ ih
    case elseBranch => exact agrees_elseBranch_succ ih
    case whileStmt => exact agrees_whileStmt_succ ih
    case forStmt => exact agrees_forStmt_succ ih

/-! ## Files -/

/-- The rule for bodies of functions agrees. -/
theorem agrees_funcBody? (budget : Nat) : Agrees P (funcBody? budget) := by
  refine Agree.token.bind fun t => ?_
  split
  · have hbody : Agrees .any (funcBody budget) :=
      (Agree.keepBooks .enterFunction fun _ _ h => h.enterFunction).bind fun _ =>
        ((stmtsAgree budget).block none).bind fun body =>
          (Agree.keepBooks .leaveFunction fun _ _ h => h.leaveFunction).bind fun _ => .pure _ fun _ _ => id
    exact hbody.anywhere.bind fun body => .done _
  · exact .done _

/-- Giving up comes with a complaint, after which the run is lost. -/
theorem agrees_giveUp {α : Type} (complaint : Complaint) (follow : List Token) :
    Agrees P (giveUp complaint follow : ParseM (Option α)) :=
  (Agree.complain _ _).bind fun _ => .ofLost ((routine_recover _).bind fun _ => .done none)

/-- The rule for one parameter agrees. -/
theorem agrees_param? (what : Expected) (follow : List Token) (budget : Nat) :
    Agrees P (param? what follow budget) := by
  refine .here fun pos pos' => Agree.token.bind fun t => ?_
  split
  · next ht =>
    subst ht
    refine .sameAt ?_ (by decide) fun heq => by rw [heq]
    refine (agrees_ident (settles_seeing (by decide))).bind fun name => (agrees_type? _).bind fun type? => ?_
    split
    · exact .done _
    · exact agrees_giveUp _ _
  · exact agrees_giveUp _ _

/-- The rule for parameters agrees. -/
theorem agrees_params (budget : Nat) : Agrees P (params budget) := by
  refine .gotThen ?_ ?_
  · exact (Agree.nextLevelAt (by decide) rfl).bind fun _ =>
      (agrees_list _ (agrees_param? _ _ _) (routine_param? _ _ _) _).bind fun ps => .done _
  · exact (Agree.complain _ _).bind fun _ => .ofLost (.done [])

/-- The rule for a parameter of an operator agrees. -/
theorem agrees_operandParam? (what : Expected) (budget : Nat) : Agrees P (operandParam? what budget) := by
  refine .gotThen ?_ (agrees_giveUp _ _)
  refine (Agree.nextAt (by decide)).bind fun _ => (agrees_param? _ _ _).bind fun param? => ?_
  split
  · exact (Agree.want (by decide)).bind fun _ => .done _
  · exact .done _

/-- The rule for functions agrees. -/
theorem agrees_funcSpec (budget : Nat) : Agrees P (funcSpec budget) := by
  refine .traced _ (Agree.token.bind fun t => ?_)
  split
  · next ht =>
    subst ht
    exact (agrees_ident (settles_seeing (by decide))).bind fun name => (Agree.remark _).bind fun _ =>
      (agrees_params _).bind fun ps => (agrees_type? _).bind fun result? => (agrees_funcBody? _).bind
        fun body? => .done _
  · exact agrees_giveUp _ _

/-- The rule for the operator that is declared agrees. -/
theorem agrees_overload? : Agrees P overload? := by
  refine Agree.token.bind fun t => ?_
  split
  · next ht =>
    subst ht
    refine (agrees_ident (settles_seeing (by decide))).bind fun name => ?_
    split
    · exact (Agree.remark _).bind fun _ => .done _
    · exact (Agree.complainAt _ _ _ _).bind fun _ => .ofLost ((routine_recover _).bind fun _ => .done none)
  · exact agrees_giveUp _ _

/-- The rule for operators agrees. -/
theorem agrees_operSpec (budget : Nat) : Agrees P (operSpec budget) := by
  refine .traced _ ((agrees_operandParam? _ _).bind fun lhs? => ?_)
  split
  · exact .done _
  · refine agrees_overload?.bind fun overload? => ?_
    split
    · exact .done _
    · refine (agrees_operandParam? _ _).bind fun rhs? => ?_
      split
      · exact .done _
      · refine (agrees_type? _).bind fun result? => ?_
        split
        · refine (agrees_funcBody? _).bind fun body? => ?_
          split
          · exact .done _
          · exact (Agree.complain _ _).bind fun _ => .ofLost (.done _)
        · exact agrees_giveUp _ _

/-- Whatever a declaration at the top level starts with, its rule agrees. -/
theorem agrees_topLevelAt {t : Token} {budget : Nat} {action : ParseM (List Decl)}
    (h : topLevelAt t budget = some action) : Agrees (P.seeing t) action := by
  -- Two shapes of an item, with and without a group, compared once each.
  have group (k : Keyword) (hk : (Token.keyword k).endsStatement = false) {spec : ParseM (Option Spec)}
      (hs : Agrees .level spec) (hr : Routine spec) : Agrees (P.seeing (.keyword k)) (do
      let pos ← here
      next
      grouped k pos spec budget) :=
    .hereLevel (settles_seeing Token.noConfusion) fun pos =>
      (Agree.nextLevelAt Token.noConfusion hk).bind fun _ => agrees_grouped _ _ hs hr _
  have single (k : Keyword) {spec : ParseM (Option Spec)} (hs : Agrees .any spec) :
      Agrees (P.seeing (.keyword k)) (do
        let pos ← here
        next
        return ((← spec).map (Decl.mk pos none)).toList) :=
    .hereLevel (settles_seeing Token.noConfusion) fun pos =>
      (Agree.nextAt Token.noConfusion).bind fun _ => hs.bind fun spec? => .done _
  unfold topLevelAt at h
  split at h
  · unfold topLevel? at h
    split at h
    · exact Option.some.inj h ▸ group _ rfl agrees_importSpec routine_importSpec
    · exact Option.some.inj h ▸ group _ rfl (agrees_typeSpec _) (routine_typeSpec _)
    · exact Option.some.inj h ▸ group _ rfl (agrees_varSpec _) (routine_varSpec _)
    · exact Option.some.inj h ▸ single _ (agrees_funcSpec _)
    · exact Option.some.inj h ▸ single _ (agrees_operSpec _)
    · cases h
  · cases h

/-- With nothing said before, nothing has been said about the declaration. -/
theorem agrees_endTopLevel : Agrees P (endTopLevel 0) := by
  refine Agree.token.bind fun t => ?_
  split
  · exact .done _
  · refine .gotThen ((Agree.nextAt (by decide)).bind fun _ => .done _) ?_
    refine .count (fun p => ?_) fun p q hp hq => ?_
    · split
      · exact (routine_complain _).bind fun _ => routine_recover _
      · exact routine_recover _
    · rw [if_pos hp, if_pos hq]
      exact (Agree.complain _ _).bind fun _ => .ofLost (routine_recover _)

/-- The rule for the declarations of a file agrees: stray statements are complained about, and the run is
lost. -/
theorem agrees_topLevels (afterImport : Bool) (budget : Nat) : Agrees .any (topLevels afterImport budget) := by
  induction budget generalizing afterImport with
  | zero => exact Agree.starve.bind fun _ => .ofLost (.done [])
  | succ budget ih =>
    refine Agree.token.bind fun t => ?_
    split
    · exact .done _
    · split
      · next ht =>
        subst ht
        exact (Agree.nextAt (by decide)).bind fun _ => ih _
      · dsimp only
        cases ha : topLevelAt t budget with
        | none =>
          -- Behind a complaint the two runs need not agree, it is enough that the routine ends lost.
          have rest (isImport : Bool) : Routine (do
              complain .strayStatement
              recover strayFollow
              topLevels isImport budget) :=
            (routine_complain _).bind fun _ => (routine_recover _).bind fun _ => routine_topLevels _ _
          split
          · exact (Agree.complain _ _).bind fun _ => .ofLost (rest _)
          · exact (Agree.complain _ _).bind fun _ => .ofLost
              ((routine_recover _).bind fun _ => routine_topLevels _ _)
        | some action =>
          have after (before : Nat) (isImport : Bool) : Routine (do
              let decls ← action
              endTopLevel before
              return decls ++ (← topLevels isImport budget)) :=
            (routine_topLevelAt ha).bind fun ds => (routine_endTopLevel _).bind fun _ =>
              (routine_topLevels _ _).bind fun rest => .done _
          split
          · exact (Agree.complain _ _).bind fun _ => .ofLost (.ofGet _ (fun p => after _ _)
              fun p q hpq => by rw [Parser.count_of_view hpq])
          · -- The count of complaints read before the item is the same in both runs.
            refine .count (fun p => after _ _) fun p q hp hq => ?_
            rw [hp, hq]
            exact (agrees_topLevelAt ha).bind fun ds => agrees_endTopLevel.bind fun _ =>
              (ih _).bind fun rest => .done _

/-- Reading a file does the same from parsers that are together, at the same lexeme. -/
theorem agrees_file (budget : Nat) : Agrees .level (file budget) := by
  refine .traced _ (.hereLevel settles_level fun pos => .currentLevel settles_level fun lexeme => .gotThen ?_ ?_)
  · exact (Agree.nextLevelAt (by decide) rfl).bind fun _ => (agrees_ident settles_level).bind fun name =>
      (Agree.remark _).bind fun _ => (Agree.want (by decide)).bind fun _ => (agrees_topLevels _ _).bind
        fun ds => .done _
  · exact .done _

end ParseM

end FrontEnd
