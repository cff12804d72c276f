import FrontEnd.Proofs.Bases.Blind

/-!
# The rules of the grammar are blind to bases

One theorem for each rule, in the order of the grammar, up to `blind_file`. Positions are looked up, kept in
the tree and handed back for complaints, but nothing is decided by them.
-/

namespace FrontEnd

namespace ParseM

variable {α β : Type}

/-! ## Names and literals -/

/-- A hole has no other base than the position it stands at. -/
theorem blind_hole : Blind (Expr.mapPos .unbased) hole hole := .here fun _ => .done _

/-- The rule for identifiers is blind: what is missing is decided by the token, not by the position. -/
theorem blind_ident : Blind (Ident.mapPos .unbased) ident ident :=
  .here fun _ => .token fun _ => .ite (fun _ => .current fun _ => Blind.next.andThen (.done _))
    fun _ => (Blind.complain _).andThen ((Blind.recover _).andThen (.done _))

/-- The rule for literals is blind. -/
theorem blind_literal : Blind (Literal.mapPos .unbased) literal literal :=
  .here fun _ => .current fun _ => Blind.next.andThen (.done _)

/-- A list is blind if its element rule is, and yields the elements without bases. -/
theorem blind_list {g : α → β} {element : ParseM α} {element' : ParseM β} (kind : ListKind)
    (h : Blind g element element') (budget : Nat) :
    Blind (List.map g) (list kind element budget) (list kind element' budget) := by
  induction budget with
  | zero => exact Blind.starve.andThen (.done _)
  | succ budget ih =>
    have rest (x : α) : Blind (List.map g) (do return x :: (← list kind element budget))
        (do return g x :: (← list kind element' budget)) := ih.bind fun xs => .done _
    refine .token fun t => .ite (fun _ => (Blind.want _).andThen (.done _)) fun _ => h.bind fun x => ?_
    refine .got _ fun b => .ite (fun _ => rest x) fun _ => .token fun t => .ite (fun _ => rest x) fun _ => ?_
    exact (Blind.complain _).andThen ((Blind.recover _).andThen (.token fun t => .ite (fun _ => rest x) fun _ => .done _))

/-! ## Types -/

/-- The rules for types are blind with a given budget. -/
structure TypesBlind (budget : Nat) : Prop where
  type? : Blind (Option.map (Expr.mapPos .unbased)) (ParseM.type? budget) (ParseM.type? budget)
  sliceElem : Blind (Expr.mapPos .unbased) (ParseM.sliceElem budget) (ParseM.sliceElem budget)

/-- The rules for types are blind, whatever their budget. -/
theorem typesBlind (budget : Nat) : TypesBlind budget := by
  induction budget with
  | zero =>
    constructor
    case type? => exact Blind.starve.andThen (.done _)
    case sliceElem => exact Blind.starve.andThen blind_hole
  | succ budget ih =>
    constructor
    case type? =>
      refine .token fun t => ?_
      split
      · exact blind_ident.bind fun name => .done _
      · exact .here fun pos => ih.sliceElem.bind fun elem => .done _
      · exact .done _
    case sliceElem =>
      refine .traced _ (Blind.next.andThen ((Blind.want _).andThen (ih.type?.bind fun type? => ?_)))
      cases type? with
      | some elem => exact .done _
      | none => exact blind_hole.bind fun bad => (Blind.complain _).andThen (.done _)

/-! ## Expressions -/

/-- The rules for expressions are blind with a given budget. -/
structure ExprsBlind (budget : Nat) : Prop where
  expr : Blind (Expr.mapPos .unbased) (ParseM.expr budget) (ParseM.expr budget)
  binaryExpr : ∀ floor,
    Blind (Expr.mapPos .unbased) (ParseM.binaryExpr floor budget) (ParseM.binaryExpr floor budget)
  binaryRest : ∀ floor x, Blind (Expr.mapPos .unbased) (ParseM.binaryRest floor x budget)
    (ParseM.binaryRest floor (x.mapPos .unbased) budget)
  unaryExpr : Blind (Expr.mapPos .unbased) (ParseM.unaryExpr budget) (ParseM.unaryExpr budget)
  primaryExpr : Blind (Expr.mapPos .unbased) (ParseM.primaryExpr budget) (ParseM.primaryExpr budget)
  primaryRest : ∀ x, Blind (Expr.mapPos .unbased) (ParseM.primaryRest x budget)
    (ParseM.primaryRest (x.mapPos .unbased) budget)
  operand : Blind (Expr.mapPos .unbased) (ParseM.operand budget) (ParseM.operand budget)

/-- Without any budget the rules for expressions yield holes or what they have. -/
theorem exprsBlind_zero : ExprsBlind 0 where
  expr := Blind.starve.andThen blind_hole
  binaryExpr _ := Blind.starve.andThen blind_hole
  binaryRest _ _ := Blind.starve.andThen (.done _)
  unaryExpr := Blind.starve.andThen blind_hole
  primaryExpr := Blind.starve.andThen blind_hole
  primaryRest _ := Blind.starve.andThen (.done _)
  operand := Blind.starve.andThen blind_hole

section

variable {budget : Nat} (h : ExprsBlind budget)
include h

/-- The rule for what follows the left operand decides by the operator, which a parser without bases has as
well. -/
theorem blind_binaryRest_succ (floor : Nat) (x : Expr) : Blind (Expr.mapPos .unbased)
    (binaryRest floor x (budget + 1)) (binaryRest floor (x.mapPos .unbased) (budget + 1)) := by
  refine .get fun p => ?_
  rw [Parser.operator?_unbased]
  cases p.operator? with
  | none => exact .done _
  | some op =>
    refine .ite (fun _ => ?_) fun _ => .done _
    refine .here fun pos => (Blind.remark _).andThen (Blind.next.andThen ((h.binaryExpr _).bind fun y => ?_))
    exact .ite (fun _ => h.binaryRest floor (.binary pos .greater y x)) fun _ =>
      h.binaryRest floor (.binary pos op x y)

/-- The rule for unary operations decides by the operator. -/
theorem blind_unaryExpr_succ :
    Blind (Expr.mapPos .unbased) (unaryExpr (budget + 1)) (unaryExpr (budget + 1)) := by
  refine .traced _ (.get fun p => ?_)
  rw [Parser.operator?_unbased]
  cases p.operator?.filter Operator.isUnary with
  | none => exact h.primaryExpr
  | some op => exact .here fun pos => Blind.next.andThen (h.unaryExpr.bind fun x => .done _)

/-- The rule for what follows an operand is blind, with the operand read so far without bases as well. -/
theorem blind_primaryRest_succ (x : Expr) : Blind (Expr.mapPos .unbased)
    (primaryRest x (budget + 1)) (primaryRest (x.mapPos .unbased) (budget + 1)) := by
  refine .here fun pos => .token fun t => ?_
  split
  · refine Blind.next.andThen (.token fun t => .ite (fun _ => ?_) fun _ => ?_)
    · exact blind_ident.bind fun field => h.primaryRest (.selector pos x field)
    · exact (Blind.complain _).andThen ((Blind.recover _).andThen (h.primaryRest x))
  · exact Blind.next.andThen (h.expr.bind fun i => (Blind.want _).andThen (h.primaryRest (.index pos x i)))
  · refine Blind.next.andThen ((Blind.traced _ (blind_list _ h.expr _)).bind fun args => ?_)
    have hcall := h.primaryRest (.call pos x args)
    rwa [Expr.mapPos, Expr.mapPosEach_eq_map] at hcall
  · exact .done _

/-- The rule for operands is blind. -/
theorem blind_operand_succ :
    Blind (Expr.mapPos .unbased) (operand (budget + 1)) (operand (budget + 1)) := by
  refine .traced _ (.token fun t => ?_)
  split
  · exact blind_ident.bind fun name => (Blind.remark _).andThen (.done _)
  · exact blind_literal.bind fun literal => (Blind.remark _).andThen (.done _)
  · refine .here fun pos => (typesBlind budget).sliceElem.bind fun elem => .token fun t =>
      .ite (fun _ => ?_) fun _ => .done _
    refine Blind.next.andThen ((blind_list _ h.expr _).bind fun xs => .pure ?_)
    rw [Expr.mapPos, Expr.mapPosEach_eq_map]
  · exact .here fun pos => Blind.next.andThen (h.expr.bind fun x => (Blind.want _).andThen (.done _))
  · exact blind_hole.bind fun bad => (Blind.complain _).andThen ((Blind.recover _).andThen (.done _))

end

/-- The rules for expressions are blind, whatever their budget. -/
theorem exprsBlind (budget : Nat) : ExprsBlind budget := by
  induction budget with
  | zero => exact exprsBlind_zero
  | succ budget ih =>
    constructor
    case expr => exact .traced _ (ih.binaryExpr 0)
    case binaryExpr => exact fun floor => ih.unaryExpr.bind fun x => ih.binaryRest floor x
    case binaryRest => exact blind_binaryRest_succ ih
    case unaryExpr => exact blind_unaryExpr_succ ih
    case primaryExpr => exact .traced _ (ih.operand.bind fun x => ih.primaryRest x)
    case primaryRest => exact blind_primaryRest_succ ih
    case operand => exact blind_operand_succ ih

/-- The rule for expressions is blind. -/
theorem blind_expr (budget : Nat) : Blind (Expr.mapPos .unbased) (expr budget) (expr budget) :=
  (exprsBlind budget).expr

/-- The rule for types is blind. -/
theorem blind_type? (budget : Nat) :
    Blind (Option.map (Expr.mapPos .unbased)) (type? budget) (type? budget) := (typesBlind budget).type?

/-! ## Declarations that may be grouped -/

/-- The rule for what is imported is blind. The path that it looks back to keeps its place. -/
theorem blind_importSpec : Blind (Option.map (Spec.mapPos .unbased)) importSpec importSpec := by
  refine .traced _ (.token fun t => .ite (fun _ => blind_literal.bind fun path => ?_) fun _ => ?_)
  · refine .ite (fun _ => .done _) fun _ => ?_
    exact (Blind.complainAt _ _).andThen (.done _)
  · exact (Blind.complain _).andThen ((Blind.recover _).andThen (.done _))

/-- The rule for a declared type is blind. -/
theorem blind_typeSpec (budget : Nat) :
    Blind (Option.map (Spec.mapPos .unbased)) (typeSpec budget) (typeSpec budget) := by
  refine .traced _ (blind_ident.bind fun name => .gotAssign fun isAlias => ?_)
  refine (blind_type? budget).bind fun type? => ?_
  cases type? with
  | some type => exact (Blind.remark _).andThen (.done _)
  | none =>
    refine blind_hole.bind fun bad => (Blind.complain _).andThen ((Blind.recover _).andThen ?_)
    exact (Blind.remark _).andThen (.done _)

/-- The rule for declared variables is blind. -/
theorem blind_varSpec (budget : Nat) :
    Blind (Option.map (Spec.mapPos .unbased)) (varSpec budget) (varSpec budget) := by
  refine .traced _ (blind_ident.bind fun name => (Blind.remark _).andThen (.gotAssign fun _ => ?_))
  refine .ite (fun _ => (blind_expr budget).bind fun x => .done _) fun _ => ?_
  refine (blind_type? budget).bind fun type? => ?_
  cases type? with
  | some type =>
    refine .gotAssign fun _ => .ite (fun _ => ?_) fun _ => .done _
    exact (blind_expr budget).bind fun x => .done _
  | none => exact (Blind.complain _).andThen ((Blind.recover _).andThen (.done _))

/-- What is declared makes a declaration with or without bases. -/
theorem map_decl_mapPos (pos : Pos) (group? : Option Group) (spec? : Option Spec) :
    (spec?.map (Spec.mapPos .unbased)).map (Decl.mk pos.unbased (group?.map (Group.mapPos .unbased))) =
      (spec?.map (Decl.mk pos group?)).map (Decl.mapPos .unbased) := by
  cases spec? <;> rfl

/-- What is declared outside a group makes one declaration or none, with or without bases. -/
theorem toList_decl_mapPos (pos : Pos) (spec? : Option Spec) :
    ((spec?.map (Spec.mapPos .unbased)).map (Decl.mk pos.unbased none)).toList =
      (spec?.map (Decl.mk pos none)).toList.map (Decl.mapPos .unbased) := by
  cases spec? <;> rfl

/-- Mapping what is there is the same before and after the rest has been left out. -/
theorem filterMap_id_map {g : α → β} (xs : List (Option α)) :
    (xs.map (Option.map g)).filterMap id = (xs.filterMap id).map g := by
  rw [List.filterMap_map, List.map_filterMap]
  rfl

/-- A blind rule for something to be declared may be used in a group as well, whose parenthesis is handed on to
every member. -/
theorem blind_grouped (keyword : Keyword) (pos : Pos) {spec : ParseM (Option Spec)}
    (h : Blind (Option.map (Spec.mapPos .unbased)) spec spec) (budget : Nat) :
    Blind (List.map (Decl.mapPos .unbased)) (grouped keyword pos spec budget)
      (grouped keyword pos.unbased spec budget) := by
  refine .token fun t => .ite (fun _ => ?_) fun _ => ?_
  · refine .newGroup fun id => .here fun opening => Blind.next.andThen ?_
    have hmember : Blind (Option.map (Decl.mapPos .unbased))
        (do
          let pos ← here
          return (← spec).map (Decl.mk pos (some ⟨id, opening, keyword⟩)))
        (do
          let pos ← here
          return (← spec).map (Decl.mk pos (some ⟨id, opening.unbased, keyword⟩))) :=
      .here fun pos => h.bind fun spec? => .pure (map_decl_mapPos pos (some ⟨id, opening, keyword⟩) spec?)
    exact (blind_list _ hmember budget).bind fun ds => .pure (filterMap_id_map ds)
  · exact h.bind fun spec? => .pure (toList_decl_mapPos pos spec?)

/-! ## Clauses and simple statements -/

/-- The clause with its positions mapped. -/
def Clause.mapPos (f : Pos → Pos) (c : Clause) : Clause :=
  ⟨c.init?.map (Stmt.mapPos f), c.cond?.map (Expr.mapPos f), c.post?.map (Stmt.mapPos f)⟩

/-- The separator of a clause, given by its position and reason, without the base. -/
def unbasedSeparator : Option (Pos × String) → Option (Pos × String) :=
  Option.map fun (pos, reason) => (pos.unbased, reason)

/-- The rule for simple statements is blind. -/
theorem blind_simpleStmt (budget : Nat) :
    Blind (Stmt.mapPos .unbased) (simpleStmt budget) (simpleStmt budget) := by
  refine .traced _ ((blind_expr budget).bind fun lhs => .here fun pos => .current fun lexeme =>
    .token fun t => ?_)
  split
  · exact Blind.next.andThen ((blind_expr _).bind fun rhs => .done _)
  · exact Blind.next.andThen ((blind_expr _).bind fun rhs => .done _)
  · exact Blind.next.andThen (.done _)
  · exact Blind.next.andThen ((blind_expr _).bind fun rhs => .done _)
  · exact .done _

/-- Whether a statement serves as a condition is decided by its form. What is quoted of it and the reason that
is given do not depend on bases. -/
theorem blind_condition (c : Construct) (stmt? : Option Stmt) (separator? : Option (Pos × String)) :
    Blind (Option.map (Expr.mapPos .unbased)) (condition c stmt? separator?)
      (condition c (stmt?.map (Stmt.mapPos .unbased)) (unbasedSeparator separator?)) := by
  -- What is quoted of a statement does not depend on its positions.
  have quoted (s : Stmt) : Blind (Option.map (Expr.mapPos .unbased))
      (do
        complainAt s.pos (.notAValue s.text)
        return none)
      (do
        complainAt (s.mapPos .unbased).pos (.notAValue (s.mapPos .unbased).text)
        return none) := by
    rw [Stmt.pos_mapPos, Stmt.text_mapPos]
    exact (Blind.complainAt _ _).andThen (.done _)
  cases stmt? with
  | some s =>
    cases s with
    | expr x => exact .done _
    | block body => exact quoted (.block body)
    | ifStmt pos init? cond thenBlock else? => exact quoted (.ifStmt pos init? cond thenBlock else?)
    | whileStmt pos cond body => exact quoted (.whileStmt pos cond body)
    | forStmt pos init? cond? post? body => exact quoted (.forStmt pos init? cond? post? body)
    | returnStmt pos result? => exact quoted (.returnStmt pos result?)
    | breakStmt pos => exact quoted (.breakStmt pos)
    | empty pos => exact quoted (.empty pos)
    | assign pos op? lhs rhs => exact quoted (.assign pos op? lhs rhs)
    | incDec pos op x => exact quoted (.incDec pos op x)
    | define pos lhs rhs => exact quoted (.define pos lhs rhs)
    | decls pos ds => exact quoted (.decls pos ds)
  | none =>
    cases separator? with
    | none => exact .done _
    | some separator =>
      obtain ⟨pos, reason⟩ := separator
      refine .ite (fun _ => ?_) fun _ => .done _
      -- Both complaints about a missing condition leave the same bad operand behind.
      have blamed (complaint : Complaint) : Blind (Option.map (Expr.mapPos .unbased))
          (do
            complainAt pos complaint
            return some (.bad pos))
          (do
            complainAt pos.unbased complaint
            return some (.bad pos.unbased)) :=
        (Blind.complainAt _ _).andThen (.done _)
      exact .ite (fun _ => blamed _) fun _ => blamed _

/-- The rule for the separator in a clause is blind; its position is kept for complaints only. -/
theorem blind_clauseSeparator : Blind unbasedSeparator clauseSeparator clauseSeparator := by
  refine .token fun t => .ite (fun _ => ?_) fun _ => ?_
  · exact .here fun pos => .current fun lexeme => Blind.next.andThen (.done _)
  · refine (Blind.want _).andThen (.token fun t => .ite (fun _ => .done _) fun _ => ?_)
    exact (Blind.recover _).andThen (.done _)

/-- The rule for the statement behind each round is blind. -/
theorem blind_postStmt (budget : Nat) :
    Blind (Option.map (Stmt.mapPos .unbased)) (postStmt budget) (postStmt budget) := by
  refine (Blind.want _).andThen (.token fun t => .ite (fun _ => .done _) fun _ => ?_)
  refine (blind_simpleStmt budget).bind fun s => ?_
  cases s with
  | define pos lhs rhs => exact (Blind.complainAt _ _).andThen (.done _)
  | _ => exact .done _

/-- The rule for what follows the first separator of a `for` is blind. -/
theorem blind_forTail (budget : Nat) :
    Blind (Prod.map (Option.map (Stmt.mapPos .unbased)) (Option.map (Stmt.mapPos .unbased)))
      (forTail budget) (forTail budget) := by
  refine .token fun t => ?_
  split
  · exact (blind_postStmt budget).bind fun post? => .done _
  · exact (Blind.complain _).andThen (.done _)
  · exact (blind_simpleStmt budget).bind fun cond => (blind_postStmt budget).bind fun post? =>
      .done _

/-- The rule for what comes first in a clause is blind. -/
theorem blind_clauseInit (c : Construct) (budget : Nat) :
    Blind (Option.map (Stmt.mapPos .unbased)) (clauseInit c budget) (clauseInit c budget) := by
  have rest : Blind (Option.map (Stmt.mapPos .unbased)) (do return some (← simpleStmt budget))
      (do return some (← simpleStmt budget)) := (blind_simpleStmt budget).bind fun s => .done _
  refine .token fun t => .ite (fun _ => .done _) fun _ => .got _ fun b => ?_
  cases b with
  | true => exact (Blind.complain _).andThen rest
  | false => exact rest

/-- The rule for what stands before the block of a statement is blind. -/
theorem blind_clause (c : Construct) (budget : Nat) :
    Blind (Clause.mapPos .unbased) (clause c budget) (clause c budget) := by
  refine (Blind.want _).andThen (.token fun t => .ite (fun _ => ?_) fun _ => ?_)
  · refine .ite (fun _ => ?_) fun _ => .done _
    exact (Blind.complain _).andThen (blind_hole.bind fun bad => .done _)
  · refine (blind_clauseInit c budget).bind fun init? => .token fun t => .ite (fun _ => ?_) fun _ => ?_
    · exact (blind_condition c init? none).bind fun cond? => .done _
    · refine blind_clauseSeparator.bind fun separator? => .ite (fun _ => ?_) fun _ => ?_
      · refine (blind_forTail budget).bind fun (cond?, post?) => ?_
        exact (blind_condition c cond? separator?).bind fun cond? => .done _
      · refine .token fun t => .ite (fun _ => ?_) fun _ => ?_
        · exact (blind_condition c none separator?).bind fun cond? => .done _
        · exact (blind_simpleStmt budget).bind fun cond =>
            (blind_condition c (some cond) separator?).bind fun cond? => .done _

/-- The rule for declarations among statements is blind. -/
theorem blind_declStmt (keyword : Keyword) (budget : Nat) :
    Blind (Stmt.mapPos .unbased) (declStmt keyword budget) (declStmt keyword budget) := by
  have declared (pos : Pos) (ds : List Decl) : Stmt.decls pos.unbased (ds.map (Decl.mapPos .unbased)) =
      (Stmt.decls pos ds).mapPos .unbased := by
    rw [Stmt.mapPos, Decl.mapPosEach_eq_map]
  refine .traced _ (.here fun pos => Blind.next.andThen (.ite (fun _ => ?_) fun _ => ?_))
  · exact (blind_grouped _ _ (blind_typeSpec _) _).bind fun ds => .pure (declared pos ds)
  · exact (blind_grouped _ _ (blind_varSpec _) _).bind fun ds => .pure (declared pos ds)

/-! ## Statements -/

/-- The rules for statements are blind with a given budget. -/
structure StmtsBlind (budget : Nat) : Prop where
  block : ∀ after?, Blind (Block.mapPos .unbased) (ParseM.block after? budget) (ParseM.block after? budget)
  stmtList : Blind (List.map (Stmt.mapPos .unbased)) (ParseM.stmtList budget) (ParseM.stmtList budget)
  stmts : Blind (List.map (Stmt.mapPos .unbased)) (ParseM.stmts budget) (ParseM.stmts budget)
  stmt? : Blind (Option.map (Stmt.mapPos .unbased)) (ParseM.stmt? budget) (ParseM.stmt? budget)
  ifStmt : Blind (Stmt.mapPos .unbased) (ParseM.ifStmt budget) (ParseM.ifStmt budget)
  elseBranch : Blind (Option.map (Stmt.mapPos .unbased)) (ParseM.elseBranch budget) (ParseM.elseBranch budget)
  whileStmt : Blind (Stmt.mapPos .unbased) (ParseM.whileStmt budget) (ParseM.whileStmt budget)
  forStmt : Blind (Stmt.mapPos .unbased) (ParseM.forStmt budget) (ParseM.forStmt budget)

/-- An empty statement has the current position only. -/
theorem blind_nothing : Blind (Stmt.mapPos .unbased) (do return .empty (← here)) (do return .empty (← here)) :=
  .here fun _ => .done _

/-- Without any budget the rules for statements yield nothing, or what is empty. -/
theorem stmtsBlind_zero : StmtsBlind 0 where
  block _ := Blind.starve.andThen (.here fun _ => .here fun _ => .done _)
  stmtList := Blind.starve.andThen (.done _)
  stmts := Blind.starve.andThen (.done _)
  stmt? := Blind.starve.andThen (.done _)
  ifStmt := Blind.starve.andThen blind_nothing
  elseBranch := Blind.starve.andThen (.done _)
  whileStmt := Blind.starve.andThen blind_nothing
  forStmt := Blind.starve.andThen blind_nothing

section

variable {budget : Nat} (h : StmtsBlind budget)
include h

/-- The rule for blocks is blind, also where a brace is missing. -/
theorem blind_block_succ (after? : Option Construct) :
    Blind (Block.mapPos .unbased) (block after? (budget + 1)) (block after? (budget + 1)) := by
  have closed (pos : Pos) (stmts : List Stmt) (rbrace : Pos) :
      Block.mk pos.unbased (stmts.map (Stmt.mapPos .unbased)) rbrace.unbased =
        (Block.mk pos stmts rbrace).mapPos .unbased := by
    rw [Block.mapPos, Stmt.mapPosEach_eq_map]
  -- The block from its statements on, which the parser comes to with a brace or after recovery.
  have body (pos : Pos) : Blind (Block.mapPos .unbased)
      (do
        let stmts ← stmtList budget
        let rbrace ← here
        want .rbrace
        return .mk pos stmts rbrace)
      (do
        let stmts ← stmtList budget
        let rbrace ← here
        want .rbrace
        return .mk pos.unbased stmts rbrace) :=
    h.stmtList.bind fun stmts => .here fun rbrace => (Blind.want _).andThen (.pure (closed pos stmts rbrace))
  refine .traced _ (.here fun pos => .got _ fun _ => .ite (fun _ => body pos) fun _ => ?_)
  refine (Blind.complain _).andThen ((Blind.recover _).andThen (.here fun rbrace => .got _ fun _ => ?_))
  exact .ite (fun _ => .done _) fun _ => body pos

/-- The rule for several statements is blind. -/
theorem blind_stmts_succ :
    Blind (List.map (Stmt.mapPos .unbased)) (stmts (budget + 1)) (stmts (budget + 1)) := by
  refine .token fun t => .ite (fun _ => .done _) fun _ => h.stmt?.bind fun s? => ?_
  cases s? with
  | none => exact .done _
  | some s =>
    have rest : Blind (List.map (Stmt.mapPos .unbased)) (do return s :: (← stmts budget))
        (do return s.mapPos .unbased :: (← stmts budget)) := h.stmts.bind fun ss => .done _
    refine .got _ fun _ => .ite (fun _ => rest) fun _ => .token fun t => .ite (fun _ => rest) fun _ => ?_
    exact (Blind.complain _).andThen ((Blind.recover _).andThen
      ((show Blind id (discard (got .semi)) (discard (got .semi)) from .got _ fun _ => .done _).andThen rest))

/-- The rule for statements decides by the current lexeme. -/
theorem blind_stmt?_succ :
    Blind (Option.map (Stmt.mapPos .unbased)) (stmt? (budget + 1)) (stmt? (budget + 1)) := by
  have single {m : ParseM Stmt} (hm : Blind (Stmt.mapPos .unbased) m m) :
      Blind (Option.map (Stmt.mapPos .unbased)) (do return some (← m)) (do return some (← m)) :=
    hm.bind fun s => .done _
  refine .traced _ (.here fun pos => .token fun t => ?_)
  split
  iterate 6 exact single (blind_simpleStmt _)
  · exact single (blind_declStmt _ _)
  · exact single (blind_declStmt _ _)
  · exact (h.block none).bind fun b => .done _
  · exact single h.forStmt
  · exact single h.whileStmt
  · exact single h.ifStmt
  · refine Blind.next.andThen (.token fun t => .ite (fun _ => .done _) fun _ => ?_)
    exact (blind_expr _).bind fun x => .done _
  · exact Blind.next.andThen (.done _)
  · exact .done _
  · exact .done _

/-- The rule for `if` is blind. A condition that is missing is a hole at the statement. -/
theorem blind_ifStmt_succ : Blind (Stmt.mapPos .unbased) (ifStmt (budget + 1)) (ifStmt (budget + 1)) := by
  refine .traced _ (.here fun pos => (blind_clause _ _).bind fun clause =>
    (h.block _).bind fun thenBlock => h.elseBranch.bind fun else? => .pure ?_)
  have hcond : (clause.cond?.map (Expr.mapPos .unbased)).getD (.bad pos.unbased) =
      (clause.cond?.getD (.bad pos)).mapPos .unbased := by
    cases clause.cond? <;> rfl
  rw [Stmt.mapPos, Stmt.mapPos?_eq_map, Stmt.mapPos?_eq_map, ← hcond]
  rfl

/-- The rule for `else` is blind. -/
theorem blind_elseBranch_succ :
    Blind (Option.map (Stmt.mapPos .unbased)) (elseBranch (budget + 1)) (elseBranch (budget + 1)) := by
  refine .got _ fun _ => .ite (fun _ => .token fun t => ?_) fun _ => .done _
  split
  · exact h.ifStmt.bind fun s => .done _
  · exact (h.block none).bind fun b => .done _
  · exact (Blind.complain _).andThen ((Blind.recover _).andThen (.done _))

/-- The rule for `while` is blind. -/
theorem blind_whileStmt_succ :
    Blind (Stmt.mapPos .unbased) (whileStmt (budget + 1)) (whileStmt (budget + 1)) := by
  refine .traced _ (.here fun pos => Blind.next.andThen (.token fun t => .ite (fun _ => ?_) fun _ => ?_))
  · exact (Blind.complain _).andThen (blind_hole.bind fun cond => (h.block _).bind fun b =>
      .done _)
  · exact (blind_expr _).bind fun cond => (h.block _).bind fun b => .done _

/-- The rule for `for` is blind. -/
theorem blind_forStmt_succ : Blind (Stmt.mapPos .unbased) (forStmt (budget + 1)) (forStmt (budget + 1)) := by
  refine .traced _ (.here fun pos => (blind_clause _ _).bind fun clause => (h.block _).bind fun body =>
    .pure ?_)
  rw [Stmt.mapPos, Stmt.mapPos?_eq_map, Stmt.mapPos?_eq_map]
  rfl

end

/-- The rules for statements are blind, whatever their budget. -/
theorem stmtsBlind (budget : Nat) : StmtsBlind budget := by
  induction budget with
  | zero => exact stmtsBlind_zero
  | succ budget ih =>
    constructor
    case block => exact blind_block_succ ih
    case stmtList => exact .traced _ ih.stmts
    case stmts => exact blind_stmts_succ ih
    case stmt? => exact blind_stmt?_succ ih
    case ifStmt => exact blind_ifStmt_succ ih
    case elseBranch => exact blind_elseBranch_succ ih
    case whileStmt => exact blind_whileStmt_succ ih
    case forStmt => exact blind_forStmt_succ ih

/-! ## Declarations and files -/

/-- The rule for bodies of functions is blind. -/
theorem blind_funcBody? (budget : Nat) :
    Blind (Option.map (Block.mapPos .unbased)) (funcBody? budget) (funcBody? budget) := by
  have enter : Blind id (modify (Move.apply .enterFunction)) (modify (Move.apply .enterFunction)) := fun _ => rfl
  have leave : Blind id (modify (Move.apply .leaveFunction)) (modify (Move.apply .leaveFunction)) := fun _ => rfl
  have body : Blind (Block.mapPos .unbased) (funcBody budget) (funcBody budget) :=
    enter.andThen (((stmtsBlind budget).block none).bind fun b => leave.andThen (.done _))
  exact .token fun _ => .ite (fun _ => body.bind fun b => .done _) fun _ => .done _

/-- Giving up yields nothing, with or without bases. -/
theorem blind_giveUp (g : α → β) (complaint : Complaint) (follow : List Token) :
    Blind (Option.map g) (giveUp complaint follow) (giveUp complaint follow) :=
  (Blind.complain _).andThen ((Blind.recover _).andThen (.done _))

/-- The rule for one parameter is blind. -/
theorem blind_param? (what : Expected) (follow : List Token) (budget : Nat) :
    Blind (Option.map (Param.mapPos .unbased)) (param? what follow budget) (param? what follow budget) := by
  refine .here fun pos => .token fun t => .ite (fun _ => ?_) fun _ => blind_giveUp _ _ _
  refine blind_ident.bind fun name => (blind_type? _).bind fun type? => ?_
  cases type? with
  | some type => exact .done _
  | none => exact blind_giveUp _ _ _

/-- The rule for parameters is blind. -/
theorem blind_params (budget : Nat) :
    Blind (List.map (Param.mapPos .unbased)) (params budget) (params budget) := by
  refine .got _ fun _ => .ite (fun _ => ?_) fun _ => (Blind.complain _).andThen (.done _)
  exact (blind_list _ (blind_param? _ _ _) _).bind fun ps => .pure (filterMap_id_map ps)

/-- The rule for a parameter of an operator is blind. -/
theorem blind_operandParam? (what : Expected) (budget : Nat) :
    Blind (Option.map (Param.mapPos .unbased)) (operandParam? what budget) (operandParam? what budget) := by
  refine .got _ fun _ => .ite (fun _ => (blind_param? _ _ _).bind fun param? => ?_) fun _ => blind_giveUp _ _ _
  cases param? with
  | some param => exact (Blind.want _).andThen (.done _)
  | none => exact .done _

/-- The rule for functions is blind. -/
theorem blind_funcSpec (budget : Nat) :
    Blind (Option.map (Spec.mapPos .unbased)) (funcSpec budget) (funcSpec budget) := by
  refine .traced _ (.token fun t => .ite (fun _ => ?_) fun _ => blind_giveUp _ _ _)
  refine blind_ident.bind fun name => (Blind.remark _).andThen ((blind_params _).bind fun ps =>
    (blind_type? _).bind fun result? => (blind_funcBody? _).bind fun body? => .pure ?_)
  rw [Option.map_some, Spec.mapPos, Block.mapPos?_eq_map]

/-- The rule for the operator that is declared yields no positions. -/
theorem blind_overload? : Blind id overload? overload? := by
  refine .token fun t => .ite (fun _ => blind_ident.bind fun name => ?_) fun _ => ?_
  · have htext : (name.mapPos .unbased).text = name.text := rfl
    rw [htext]
    cases Overload.ofName? name.text with
    | some overload => exact (Blind.remark _).andThen (.done _)
    | none => exact (Blind.complainAt _ _).andThen ((Blind.recover _).andThen (.done _))
  · exact (Blind.complain _).andThen ((Blind.recover _).andThen (.done _))

/-- The rule for operators is blind. -/
theorem blind_operSpec (budget : Nat) :
    Blind (Option.map (Spec.mapPos .unbased)) (operSpec budget) (operSpec budget) := by
  -- Each part may be missing; then both runs give up at the same point.
  refine .traced _ ((blind_operandParam? _ _).bind fun lhs? => ?_)
  cases lhs? with
  | none => exact .done _
  | some lhs =>
    refine blind_overload?.bind fun overload? => ?_
    cases overload? with
    | none => exact .done _
    | some overload =>
      refine (blind_operandParam? _ _).bind fun rhs? => ?_
      cases rhs? with
      | none => exact .done _
      | some rhs =>
        refine (blind_type? _).bind fun result? => ?_
        cases result? with
        | none => exact blind_giveUp _ _ _
        | some result =>
          refine (blind_funcBody? _).bind fun body? => ?_
          cases body? with
          | some body => exact .done _
          | none => exact (Blind.complain _).andThen (.done _)

/-- Whatever a declaration at the top level starts with, its rule is blind. -/
theorem blind_topLevelAt {t : Token} {budget : Nat} {action : ParseM (List Decl)}
    (h : topLevelAt t budget = some action) : Blind (List.map (Decl.mapPos .unbased)) action action := by
  -- A keyword that may open a group in parentheses, and one that stands before a single specification.
  have group (k : Keyword) {spec : ParseM (Option Spec)}
      (hs : Blind (Option.map (Spec.mapPos .unbased)) spec spec) :
      Blind (List.map (Decl.mapPos .unbased))
        (do
          let pos ← here
          next
          grouped k pos spec budget)
        (do
          let pos ← here
          next
          grouped k pos spec budget) :=
    .here fun pos => Blind.next.andThen (blind_grouped k pos hs budget)
  have single {spec : ParseM (Option Spec)} (hs : Blind (Option.map (Spec.mapPos .unbased)) spec spec) :
      Blind (List.map (Decl.mapPos .unbased))
        (do
          let pos ← here
          next
          return ((← spec).map (.mk pos none)).toList)
        (do
          let pos ← here
          next
          return ((← spec).map (.mk pos none)).toList) :=
    .here fun pos => Blind.next.andThen (hs.bind fun spec? => .pure (toList_decl_mapPos pos spec?))
  -- Only keywords start an item; one case for each of the five.
  unfold topLevelAt at h
  split at h
  · unfold topLevel? at h
    split at h
    · exact Option.some.inj h ▸ group _ blind_importSpec
    · exact Option.some.inj h ▸ group _ (blind_typeSpec _)
    · exact Option.some.inj h ▸ group _ (blind_varSpec _)
    · exact Option.some.inj h ▸ single (blind_funcSpec _)
    · exact Option.some.inj h ▸ single (blind_operSpec _)
    · cases h
  · cases h

/-- What must follow a declaration is asked for depending on how many complaints there are, not on where. -/
theorem blind_endTopLevel (before : Nat) : Blind id (endTopLevel before) (endTopLevel before) := by
  refine .token fun t => .ite (fun _ => .done _) fun _ => .got _ fun _ => .ite (fun _ => .done _) fun _ => ?_
  refine .get fun p => .ite (fun _ => ?_) fun _ => Blind.recover _
  exact (Blind.complain _).andThen (Blind.recover _)

/-- The rule for the declarations of a file is blind, also past stray statements. -/
theorem blind_topLevels (afterImport : Bool) (budget : Nat) :
    Blind (List.map (Decl.mapPos .unbased)) (topLevels afterImport budget) (topLevels afterImport budget) := by
  induction budget generalizing afterImport with
  | zero => exact Blind.starve.andThen (.done _)
  | succ budget ih =>
    refine .token fun t => .ite (fun _ => .done _) fun _ => .ite (fun _ => Blind.next.andThen (ih _)) fun _ => ?_
    cases ha : topLevelAt t budget with
    | none =>
      have rest := (Blind.complain .strayStatement).andThen
        ((Blind.recover strayFollow).andThen (ih (t = .keyword .importWord)))
      exact .ite (fun _ => (Blind.complain _).andThen rest) fun _ => rest
    | some action =>
      refine .ite (fun _ => (Blind.complain _).andThen ?_) fun _ => ?_ <;>
      · refine .get fun p => (blind_topLevelAt ha).bind fun decls => (blind_endTopLevel _).andThen ?_
        exact (ih _).bind fun more => .pure List.map_append.symm

/-- Reading a file is blind to bases. -/
theorem blind_file (budget : Nat) : Blind (Failure.mapPosIn .unbased) (file budget) (file budget) := by
  refine .traced _ (.here fun pos => .current fun lexeme => .got _ fun _ => .ite (fun _ => ?_) fun _ => ?_)
  · refine blind_ident.bind fun moduleName => (Blind.remark _).andThen ((Blind.want _).andThen ?_)
    refine (blind_topLevels _ _).bind fun decls => .pure ?_
    rw [Failure.mapPosIn, File.mapPos, Decl.mapPosEach_eq_map]
  · exact .done _

end ParseM

end FrontEnd
