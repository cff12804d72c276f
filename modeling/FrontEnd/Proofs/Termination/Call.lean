import FrontEnd.Parser.File
import FrontEnd.Proofs.Termination.Alike

/-!
# Calls between grammar rules

The rules that may call themselves, directly or through others, and the loops: `Call` names a call of
one of them with its arguments, `Call.run` is what it does with a given budget, and `Call.body` is what
it does in terms of the calls that it makes in turn (`Call.run_succ`).

A call makes others only later in the input or, at the same token, further down a fixed order of the
rules (`Call.rank`). The rank of a rule depends on the token: a block that opens where it should, for
example, takes the brace first, and otherwise its statements start where it does.
-/

namespace FrontEnd

/-- A call of a rule that may recur, by the type of its result. -/
inductive Call : Type → Type 1 where
  | type? : Call (Option Expr)
  | sliceElem : Call Expr
  | expr : Call Expr
  | binaryExpr (floor : Nat) : Call Expr
  | binaryRest (floor : Nat) (x : Expr) : Call Expr
  | unaryExpr : Call Expr
  | primaryExpr : Call Expr
  | primaryRest (x : Expr) : Call Expr
  | operand : Call Expr
  | list {α : Type} (kind : ListKind) (element : ParseM α) : Call (List α)
  | block (after? : Option Construct) : Call Block
  | stmtList : Call (List Stmt)
  | stmts : Call (List Stmt)
  | stmt? : Call (Option Stmt)
  | ifStmt : Call Stmt
  | elseBranch : Call (Option Stmt)
  | whileStmt : Call Stmt
  | forStmt : Call Stmt
  | topLevels (afterImport : Bool) : Call (List Decl)

/-- What every call does. -/
abbrev Calls := ∀ α : Type, Call α → ParseM α

namespace Call

open ParseM

/-- What a call does with a budget. -/
def run : {α : Type} → Call α → Nat → ParseM α
  | _, .type?, budget => ParseM.type? budget
  | _, .sliceElem, budget => ParseM.sliceElem budget
  | _, .expr, budget => ParseM.expr budget
  | _, .binaryExpr floor, budget => ParseM.binaryExpr floor budget
  | _, .binaryRest floor x, budget => ParseM.binaryRest floor x budget
  | _, .unaryExpr, budget => ParseM.unaryExpr budget
  | _, .primaryExpr, budget => ParseM.primaryExpr budget
  | _, .primaryRest x, budget => ParseM.primaryRest x budget
  | _, .operand, budget => ParseM.operand budget
  | _, .list kind element, budget => ParseM.list kind element budget
  | _, .block after?, budget => ParseM.block after? budget
  | _, .stmtList, budget => ParseM.stmtList budget
  | _, .stmts, budget => ParseM.stmts budget
  | _, .stmt?, budget => ParseM.stmt? budget
  | _, .ifStmt, budget => ParseM.ifStmt budget
  | _, .elseBranch, budget => ParseM.elseBranch budget
  | _, .whileStmt, budget => ParseM.whileStmt budget
  | _, .forStmt, budget => ParseM.forStmt budget
  | _, .topLevels afterImport, budget => ParseM.topLevels afterImport budget

/-- What every call does with a budget. -/
def runs (budget : Nat) : Calls := fun _ c => c.run budget

/-- What a call does in terms of the calls that it makes. Rules that cannot lead back to it are called
with a budget. -/
def body (budget : Nat) (call : Calls) : {α : Type} → Call α → ParseM α
  | _, .type? => do
    match ← token with
    | .name => return some (.name (← ident))
    | .lbrack =>
      let pos ← here
      return some (.sliceType pos (← call _ .sliceElem))
    | _ => return none
  | _, .sliceElem => traced .sliceType do
    next
    want .rbrack
    match ← call _ .type? with
    | some elem => return elem
    | none =>
      let bad ← hole
      complain (.expecting .type)
      return bad
  | _, .expr => traced .expr (call _ (.binaryExpr 0))
  | _, .binaryExpr floor => do
    let x ← call _ .unaryExpr
    call _ (.binaryRest floor x)
  | _, .binaryRest floor x => do
    match (← get).operator? with
    | some op =>
      if floor < op.precedence then
        let pos ← here
        remark ("operator(" ++ op.spelling ++ ")")
        next
        let y ← call _ (.binaryExpr op.precedence)
        if op = .less then call _ (.binaryRest floor (.binary pos .greater y x))
        else call _ (.binaryRest floor (.binary pos op x y))
      else return x
    | none => return x
  | _, .unaryExpr => traced .unaryExpr do
    match (← get).operator?.filter Operator.isUnary with
    | some op =>
      let pos ← here
      next
      return .unary pos op (← call _ .unaryExpr)
    | none => call _ .primaryExpr
  | _, .primaryExpr => traced .primaryExpr do
    let x ← call _ .operand
    call _ (.primaryRest x)
  | _, .primaryRest x => do
    let pos ← here
    match ← token with
    | .dot =>
      next
      if (← token) = .name then
        let field ← ident
        call _ (.primaryRest (.selector pos x field))
      else
        complain (.expecting .nameOrParen)
        recover [.semi, .rparen]
        call _ (.primaryRest x)
    | .lbrack =>
      next
      let i ← call _ .expr
      want .rbrack
      call _ (.primaryRest (.index pos x i))
    | .lparen =>
      next
      let args ← traced .argList (call _ (.list .arguments (call _ .expr)))
      call _ (.primaryRest (.call pos x args))
    | _ => return x
  | _, .operand => traced .operand do
    match ← token with
    | .name =>
      let name ← ident
      remark ("name(" ++ name.text ++ ")")
      return .name name
    | .literal =>
      let literal ← literal
      remark ("literal(" ++ literal.text ++ ")")
      return .literal literal
    | .lbrack =>
      let pos ← here
      let elem ← call _ .sliceElem
      if (← token) = .lbrace then
        next
        return .sliceLit pos elem (← call _ (.list .elements (call _ .expr)))
      else return .sliceType pos elem
    | .lparen =>
      let pos ← here
      next
      let x ← call _ .expr
      want .rparen
      return .paren pos x
    | _ =>
      let bad ← hole
      complain (.expecting .expression)
      recover operandFollow
      return bad
  | _, .list kind element => do
    let t ← token
    if t = .eof ∨ t = kind.closer then
      want kind.closer
      return []
    else
      let x ← element
      if ← got kind.separator then return x :: (← call _ (.list kind element))
      else if (← token) = kind.closer then return x :: (← call _ (.list kind element))
      else
        complain (.inList kind)
        recover [.rparen, .rbrack, .rbrace]
        if (← token) = kind.closer then return x :: (← call _ (.list kind element))
        else return [x]
  | _, .block after? => traced .blockStmt do
    let pos ← here
    if ← got .lbrace then
      let stmts ← call _ .stmtList
      let rbrace ← here
      want .rbrace
      return .mk pos stmts rbrace
    else
      complain (.expecting (after?.elim (.token .lbrace) .blockAfter))
      recover blockFollow
      let rbrace ← here
      if ← got .rbrace then return .mk pos [] rbrace
      else
        let stmts ← call _ .stmtList
        let rbrace ← here
        want .rbrace
        return .mk pos stmts rbrace
  | _, .stmtList => traced .stmtList (call _ .stmts)
  | _, .stmts => do
    let t ← token
    if t = .eof ∨ t = .rbrace then return []
    else
      match ← call _ .stmt? with
      | none => return []
      | some s =>
        if ← got .semi then return s :: (← call _ .stmts)
        else if (← token) = .rbrace then return s :: (← call _ .stmts)
        else
          complain .atEndOfStatement
          recover [.semi, .rbrace]
          discard (got .semi)
          return s :: (← call _ .stmts)
  | _, .stmt? => traced .stmt do
    let pos ← here
    match ← token with
    | .name | .literal | .lparen | .lbrack | .op | .star => return some (← simpleStmt budget)
    | .keyword .varWord => return some (← declStmt .varWord budget)
    | .keyword .typeWord => return some (← declStmt .typeWord budget)
    | .lbrace => return some (.block (← call _ (.block none)))
    | .keyword .forWord => return some (← call _ .forStmt)
    | .keyword .whileWord => return some (← call _ .whileStmt)
    | .keyword .ifWord => return some (← call _ .ifStmt)
    | .keyword .returnWord =>
      next
      let t ← token
      if t = .semi ∨ t = .rbrace then return some (.returnStmt pos none)
      else return some (.returnStmt pos (some (← ParseM.expr budget)))
    | .keyword .breakWord =>
      next
      return some (.breakStmt pos)
    | .semi => return some (.empty pos)
    | _ => return none
  | _, .ifStmt => traced .ifStmt do
    let pos ← here
    let clause ← clause .ifClause budget
    let thenBlock ← call _ (.block (some .ifClause))
    let else? ← call _ .elseBranch
    return .ifStmt pos clause.init? (clause.cond?.getD (.bad pos)) thenBlock else?
  | _, .elseBranch => do
    if ← got (.keyword .elseWord) then
      match ← token with
      | .keyword .ifWord => return some (← call _ .ifStmt)
      | .lbrace => return some (.block (← call _ (.block none)))
      | _ =>
        complain .strayElse
        recover blockFollow
        return none
    else return none
  | _, .whileStmt => traced .whileStmt do
    let pos ← here
    next
    if (← token) = .lbrace then
      complain (.missingCondition .whileClause)
      let cond ← hole
      return .whileStmt pos cond (← call _ (.block (some .whileClause)))
    else
      let cond ← ParseM.expr budget
      return .whileStmt pos cond (← call _ (.block (some .whileClause)))
  | _, .forStmt => traced .forStmt do
    let pos ← here
    let clause ← clause .forClause budget
    let body ← call _ (.block (some .forClause))
    return .forStmt pos clause.init? clause.cond? clause.post? body
  | _, .topLevels afterImport => do
    let t ← token
    if t = .eof then return []
    else if t = .semi then
      next
      call _ (.topLevels afterImport)
    else
      let isImport := t = .keyword .importWord
      if isImport && !afterImport then complain .lateImport
      match topLevelAt t budget with
      | some action =>
        let before := (← get).count
        let decls ← action
        endTopLevel before
        return decls ++ (← call _ (.topLevels isImport))
      | none =>
        complain .strayStatement
        recover strayFollow
        call _ (.topLevels isImport)

/-- A rule hands on a budget of one less. -/
theorem run_succ {α : Type} (c : Call α) (budget : Nat) :
    c.run (budget + 1) = c.body budget (runs budget) := by
  cases c <;> rfl

/-! ## The order of calls -/

/-- The place of a call in the order in which rules call each other at one token. -/
def rank : {α : Type} → Call α → Token → Nat
  | _, .sliceElem, t => if t = .eof then 3 else 1
  | _, .binaryRest .., _ | _, .primaryRest _, _ | _, .list .., _ | _, .elseBranch, _
  | _, .topLevels _, _ => 1
  | _, .type?, _ | _, .operand, _ => 2
  | _, .primaryExpr, _ => 3
  | _, .unaryExpr, _ => 4
  | _, .binaryExpr _, _ => 5
  | _, .expr, _ => 6
  | _, .stmt?, _ => 8
  | _, .stmts, _ => 9
  | _, .stmtList, _ => 10
  | _, .block _, t => if t = .lbrace then 7 else 11
  | _, .ifStmt, t => if t = .keyword .ifWord then 7 else 12
  | _, .whileStmt, t => if t = .eof then 12 else 7
  | _, .forStmt, t => if t = .keyword .forWord then 7 else 12

/-- A call at `q` comes after all calls of rank `r` at `p`: it is later in the input, or it is at the
same token and of a lower rank. -/
def Below {α : Type} (c : Call α) (q : Parser) (r : Nat) (p : Parser) : Prop :=
  q.left < p.left ∨ q.left = p.left ∧ q.token = p.token ∧ c.rank q.token < r

/-- The budget that a call needs: that of the lexemes left, and the calls that may come before one of
them is taken. -/
def need {α : Type} (c : Call α) (p : Parser) : Nat := 16 * p.left + c.rank p.token

/-- What must be the case before a call. The elements of a list must not lead back, and declarations
stand at top level outside of functions. -/
def Ready (p : Parser) : {α : Type} → Call α → Prop
  | _, .list _ element => ∀ q : Parser, q.Ends → p.OnFrom q → q.Reaches (element.run q).2
  | _, .topLevels _ => p.functions = 0
  | _, _ => True

/-- Where a call that starts at `p` takes at least one lexeme. The last two arguments are the token that
it reaches and the number of lexemes left. -/
def Takes (p : Parser) : {α : Type} → Call α → α → Token → Nat → Prop
  | _, .expr, _, _, n | _, .binaryExpr _, _, _, n | _, .unaryExpr, _, _, n
  | _, .primaryExpr, _, _, n | _, .operand, _, _, n => p.isStop operandFollow = false → n < p.left
  | _, .sliceElem, _, _, n | _, .whileStmt, _, _, n => p.token ≠ .eof → n < p.left
  | _, .block _, _, _, n => p.token = .lbrace → n < p.left
  | _, .stmt?, s?, t, n => s?.isSome → n < p.left ∨ t = .semi
  | _, .ifStmt, _, _, n => p.token = .keyword .ifWord → n < p.left
  | _, .forStmt, _, _, n => p.token = .keyword .forWord → n < p.left
  | _, _, _, _, _ => True

section

variable {α : Type} {c : Call α}

/-- Every rule has a place in the order. -/
theorem rank_pos (c : Call α) (t : Token) : 0 < c.rank t := by
  cases c <;> simp only [rank] <;> (try split) <;> decide

/-- An `if` comes before the expressions of its clause. -/
theorem le_rank_ifStmt (t : Token) : 7 ≤ Call.ifStmt.rank t := by
  simp only [rank]
  split <;> decide

/-- A `while` comes before its condition. -/
theorem le_rank_whileStmt (t : Token) : 7 ≤ Call.whileStmt.rank t := by
  simp only [rank]
  split <;> decide

/-- A `for` comes before the expressions of its clause. -/
theorem le_rank_forStmt (t : Token) : 7 ≤ Call.forStmt.rank t := by
  simp only [rank]
  split <;> decide

/-- The order has twelve places. -/
theorem rank_le (c : Call α) (t : Token) : c.rank t ≤ 12 := by
  cases c <;> simp only [rank] <;> (try split) <;> decide

/-- A call that comes after others needs less budget. -/
theorem Below.need_lt {q : Parser} {r : Nat} {p : Parser} (h : c.Below q r p) (hr : 0 < r) :
    c.need q < 16 * p.left + r := by
  have hrank := c.rank_le q.token
  unfold need
  rcases h with hlt | ⟨heq, -, hlt⟩ <;> omega

/-- What a call takes depends on the token, the functions around it and the number of lexemes left. -/
theorem takes_congr {p q : Parser} (ht : q.token = p.token) (hl : q.left = p.left)
    (hf : q.functions = p.functions) : c.Takes q = c.Takes p := by
  funext x t n
  cases c <;> simp only [Takes, Parser.isStop_congr ht hf, ht, hl]

end

end Call

namespace ParseM

/-- To enter and leave a rule changes nothing in what a call takes. -/
theorem Alike.tracedCall {α : Type} {c : Call α} {m m' : ParseM α} {p : Parser} (rule : Rule)
    (hp : p.Ends) (hm : ∀ q, p.Reaches q → q.token = p.token → Alike m m' q (c.Takes q)) :
    Alike (ParseM.traced rule m) (ParseM.traced rule m') p (c.Takes p) :=
  .traced rule hp fun q hq ht hl => Call.takes_congr ht hl hq.functions ▸ hm q hq ht

/-- Two ways of making calls do the same to every call that comes after those of rank `r` at `p`. -/
def AlikeBelow (r : Nat) (p : Parser) (call call' : Calls) : Prop :=
  ∀ ⦃α : Type⦄ (c : Call α) ⦃q : Parser⦄, q.Ends → c.Ready q → c.Below q r p →
    Alike (call α c) (call' α c) q (c.Takes q)

namespace AlikeBelow

variable {r s : Nat} {p q : Parser} {call call' : Calls}

/-- What comes after a later call comes after an earlier one. -/
theorem mono (h : AlikeBelow r p call call') (hq : p.OnFrom q) (hs : s ≤ r) :
    AlikeBelow s q call call' := by
  intro α c q' hends hready hbelow
  refine h c hends hready ?_
  rcases hbelow with hlt | ⟨heq, ht, hrank⟩
  · exact .inl (Nat.lt_of_lt_of_le hlt hq.left_le)
  · rcases hq with hlt' | ⟨heq', ht'⟩
    · exact .inl (by omega)
    · exact .inr ⟨heq.trans heq', ht.trans ht', Nat.lt_of_lt_of_le hrank hs⟩

/-- Once a lexeme has been taken, the rank does not matter. -/
theorem later (h : AlikeBelow r p call call') (hq : q.left < p.left) (s : Nat) :
    AlikeBelow s q call call' := by
  intro α c q' hends hready hbelow
  refine h c hends hready (.inl ?_)
  rcases hbelow with hlt | ⟨heq, -⟩ <;> omega

/-- A call of lower rank, wherever it starts. -/
theorem atFrom (h : AlikeBelow r p call call') {α : Type} (c : Call α) (hq : p.Reaches q)
    (hready : c.Ready q) (hrank : c.rank q.token < r) :
    Alike (call α c) (call' α c) q (c.Takes q) := by
  refine h c hq.ends hready ?_
  rcases hq.onFrom with hlt | ⟨heq, ht⟩
  · exact .inl hlt
  · exact .inr ⟨heq, ht, hrank⟩

/-- Any call, once a lexeme has been taken. -/
theorem atLater (h : AlikeBelow r p call call') {α : Type} (c : Call α) (hq : p.Reaches q)
    (hready : c.Ready q) (hlt : q.left < p.left) :
    Alike (call α c) (call' α c) q (c.Takes q) :=
  h c hq.ends hready (.inl hlt)

end AlikeBelow

end ParseM

end FrontEnd
