import FrontEnd.Parser.Expr
import FrontEnd.Tree.Layout

/-!
# Statements, and the declarations among them

    Block      = "{" { Stmt ";" } [ Stmt ] "}" .
    Stmt       = Simple | DeclStmt | Block | If | While | For | Return | "break" | .
    Simple     = Expr [ "++" | "--" | ( "=" | op "=" | ":=" ) Expr ] .
    DeclStmt   = ( "var" | "type" ) Group .
    If         = "if" Clause Block [ "else" ( If | Block ) ] .
    While      = "while" Expr Block .
    For        = "for" Clause Block .
    Return     = "return" [ Expr ] .
    Group      = Spec | "(" [ Spec { ";" Spec } [ ";" ] ] ")" .
    ImportSpec = string .
    TypeSpec   = name [ "=" ] Type .
    VarSpec    = name ( "=" Expr | Type [ "=" Expr ] ) .

The clause of an `if` is a condition, perhaps with a statement and a semicolon before it. The clause
of a `for` is empty, a condition, or a statement, a condition and a statement, each of which may be
absent, with semicolons between them.
-/

namespace FrontEnd

namespace ParseM

/-! ## Declarations that may be grouped -/

/-- Where reading goes on after a specification that could not be read. -/
def specFollow : List Token := [.semi, .rparen]

/-- The path of an import. -/
def importSpec : ParseM (Option Spec) := traced .importDecl do
  if (← token) = .literal then
    let path ← literal
    if path.bad || path.kind = .string then return some (.importSpec (some path))
    else
      complainAt path.pos .importPathNotString
      return some (.importSpec (some { path with bad := true }))
  else
    complain .missingImportPath
    recover specFollow
    return some (.importSpec none)

/-- The name and definition of a type. -/
def typeSpec (budget : Nat) : ParseM (Option Spec) := traced .typeDecl do
  let name ← ident
  let isAlias ← gotAssign
  let type ←
    match ← type? budget with
    | some type => pure type
    | none =>
      let bad ← hole
      complain .inTypeDeclaration
      recover specFollow
      pure bad
  remark ("id: " ++ name.text)
  return some (.typeSpec name isAlias type)

/-- The name of a variable with its type, its value or both. -/
def varSpec (budget : Nat) : ParseM (Option Spec) := traced .varDecl do
  let name ← ident
  remark ("id: " ++ name.text)
  if ← gotAssign then return some (.varSpec name none (some (← expr budget)))
  else
    match ← type? budget with
    | some type =>
      if ← gotAssign then return some (.varSpec name (some type) (some (← expr budget)))
      else return some (.varSpec name (some type) none)
    | none =>
      -- A name alone declares nothing, so no declaration comes of it.
      complain (.expecting .type)
      recover specFollow
      return none

/-- One declaration whose keyword, at `pos`, has been passed, or a group of them. -/
def grouped (keyword : Keyword) (pos : Pos) (spec : ParseM (Option Spec)) (budget : Nat) :
    ParseM (List Decl) := do
  if (← token) = .lparen then
    let group : Group := ⟨← newGroup, ← here, keyword⟩
    next
    let member : ParseM (Option Decl) := do
      let pos ← here
      return (← spec).map (.mk pos (some group))
    return (← list .declarations member budget).filterMap id
  else return ((← spec).map (.mk pos none)).toList

/-! ## Statements -/

/-- What a clause consists of. -/
structure Clause where
  init? : Option Stmt
  cond? : Option Expr
  post? : Option Stmt
deriving Inhabited

/-- An expression, by itself or as part of an assignment, a definition or an increment. -/
def simpleStmt (budget : Nat) : ParseM Stmt := traced .simpleStmt do
  let lhs ← expr budget
  let pos ← here
  let lexeme ← current
  match ← token with
  | .assign =>
    next
    return .assign pos none lhs (← expr budget)
  | .assignOp =>
    next
    return .assign pos lexeme.op? lhs (← expr budget)
  | .incOp =>
    next
    return .incDec pos (lexeme.op?.getD .add) lhs
  | .define =>
    next
    return .define pos lhs (← expr budget)
  | _ => return .expr lhs

/-- The condition that a statement in its place amounts to. In place of a missing one in an `if`, the
separator before it is to blame, given by its position and reason. -/
def condition (c : Construct) (stmt? : Option Stmt) (separator? : Option (Pos × String)) :
    ParseM (Option Expr) := do
  match stmt? with
  | some (.expr x) => return some x
  | some s =>
    complainAt s.pos (.notAValue s.text)
    return none
  | none =>
    match separator? with
    | some (pos, reason) =>
      if c = .ifClause then
        if reason = Lexeme.semicolonReason then complainAt pos (.missingCondition c)
        else complainAt pos (.separatorBeforeBlock reason)
        return some (.bad pos)
      else return none
    | none => return none

/-- The first separator of a clause, given by its position and reason. Anything else is complained
about as if the block had been expected, which is the likelier meaning. -/
def clauseSeparator : ParseM (Option (Pos × String)) := do
  if (← token) = .semi then
    let pos ← here
    let lexeme ← current
    next
    return some (pos, lexeme.literal)
  else
    -- The clause ends as it stands, with the block wherever it opens.
    want .lbrace
    if (← token) = .lbrace then return none
    else
      recover [.lbrace, .rbrace]
      return none

/-- The last part of the clause of a `for`, with the separator before it. -/
def postStmt (budget : Nat) : ParseM (Option Stmt) := do
  want .semi
  if (← token) = .lbrace then return none
  else
    let s ← simpleStmt budget
    match s with
    | .define pos _ _ =>
      complainAt pos .declarationInPost
      return some s
    | _ => return some s

/-- The condition and the last part of the clause of a `for`, after the first separator. -/
def forTail (budget : Nat) : ParseM (Option Stmt × Option Stmt) := do
  match ← token with
  | .semi => return (none, ← postStmt budget)
  | .lbrace =>
    complain (.expecting .loopCondition)
    return (none, none)
  | _ =>
    let cond ← simpleStmt budget
    return (some cond, ← postStmt budget)

/-- The first statement of a clause, if there is one. A declaration is complained about and read
without its keyword. -/
def clauseInit (c : Construct) (budget : Nat) : ParseM (Option Stmt) := do
  if (← token) = .semi then return none
  else
    if ← got (.keyword .varWord) then complain (.declarationInClause c)
    return some (← simpleStmt budget)

/-- The clause of an `if` or `for` with the keyword before it, up to the block. -/
def clause (c : Construct) (budget : Nat) : ParseM Clause := do
  want (.keyword c.keyword)
  if (← token) = .lbrace then
    if c = .ifClause then
      complain (.missingCondition c)
      return ⟨none, some (← hole), none⟩
    else return ⟨none, none, none⟩
  else
    let init? ← clauseInit c budget
    if (← token) = .lbrace then return ⟨none, ← condition c init? none, none⟩
    else
      let separator? ← clauseSeparator
      if c = .forClause then
        let (cond?, post?) ← forTail budget
        return ⟨init?, ← condition c cond? separator?, post?⟩
      else if (← token) = .lbrace then
        return ⟨init?, ← condition c none separator?, none⟩
      else
        let cond ← simpleStmt budget
        return ⟨init?, ← condition c (some cond) separator?, none⟩

/-- A declaration as a statement. -/
def declStmt (keyword : Keyword) (budget : Nat) : ParseM Stmt := traced .declStmt do
  let pos ← here
  next
  if keyword = .typeWord then
    return .decls pos (← grouped keyword pos (typeSpec budget) budget)
  else return .decls pos (← grouped keyword pos (varSpec budget) budget)

/-- Where reading goes on when a block does not open. -/
def blockFollow : List Token := [.name, .rbrace]

mutual

/-- A block, which is expected after the given clause or by itself. -/
def block (after? : Option Construct) : Nat → ParseM Block
  | 0 => do
    starve
    return .mk (← here) [] (← here)
  | budget + 1 => traced .blockStmt do
    let pos ← here
    if ← got .lbrace then
      let stmts ← stmtList budget
      let rbrace ← here
      want .rbrace
      return .mk pos stmts rbrace
    else
      complain (.expecting (after?.elim (.token .lbrace) .blockAfter))
      recover blockFollow
      let rbrace ← here
      if ← got .rbrace then return .mk pos [] rbrace
      else
        let stmts ← stmtList budget
        let rbrace ← here
        want .rbrace
        return .mk pos stmts rbrace

/-- The statements of a block, up to its closing brace. -/
def stmtList : Nat → ParseM (List Stmt)
  | 0 => do
    starve
    return []
  | budget + 1 => traced .stmtList (stmts budget)

/-- Statements with separators between them, up to a closing brace. -/
def stmts : Nat → ParseM (List Stmt)
  | 0 => do
    starve
    return []
  | budget + 1 => do
    let t ← token
    if t = .eof ∨ t = .rbrace then return []
    else
      match ← stmt? budget with
      | none => return []
      | some s =>
        if ← got .semi then return s :: (← stmts budget)
        else if (← token) = .rbrace then return s :: (← stmts budget)
        else
          complain .atEndOfStatement
          recover [.semi, .rbrace]
          discard (got .semi)
          return s :: (← stmts budget)

/-- A statement, if one starts at the current token. -/
def stmt? : Nat → ParseM (Option Stmt)
  | 0 => do
    starve
    return none
  | budget + 1 => traced .stmt do
    let pos ← here
    match ← token with
    | .name | .literal | .lparen | .lbrack | .op | .star => return some (← simpleStmt budget)
    | .keyword .varWord => return some (← declStmt .varWord budget)
    | .keyword .typeWord => return some (← declStmt .typeWord budget)
    | .lbrace => return some (.block (← block none budget))
    | .keyword .forWord => return some (← forStmt budget)
    | .keyword .whileWord => return some (← whileStmt budget)
    | .keyword .ifWord => return some (← ifStmt budget)
    | .keyword .returnWord =>
      next
      let t ← token
      if t = .semi ∨ t = .rbrace then return some (.returnStmt pos none)
      else return some (.returnStmt pos (some (← expr budget)))
    | .keyword .breakWord =>
      next
      return some (.breakStmt pos)
    -- The separator is left to the list of statements.
    | .semi => return some (.empty pos)
    | _ => return none

/-- An `if` with what belongs to it. -/
def ifStmt : Nat → ParseM Stmt
  | 0 => do
    starve
    return .empty (← here)
  | budget + 1 => traced .ifStmt do
    let pos ← here
    let clause ← clause .ifClause budget
    let thenBlock ← block (some .ifClause) budget
    let else? ← elseBranch budget
    return .ifStmt pos clause.init? (clause.cond?.getD (.bad pos)) thenBlock else?

/-- What follows the block of an `if`, if it is for the other case. -/
def elseBranch : Nat → ParseM (Option Stmt)
  | 0 => do
    starve
    return none
  | budget + 1 => do
    if ← got (.keyword .elseWord) then
      match ← token with
      | .keyword .ifWord => return some (← ifStmt budget)
      | .lbrace => return some (.block (← block none budget))
      | _ =>
        complain .strayElse
        recover blockFollow
        return none
    else return none

/-- A `while` with its block. -/
def whileStmt : Nat → ParseM Stmt
  | 0 => do
    starve
    return .empty (← here)
  | budget + 1 => traced .whileStmt do
    let pos ← here
    next
    if (← token) = .lbrace then
      complain (.missingCondition .whileClause)
      let cond ← hole
      return .whileStmt pos cond (← block (some .whileClause) budget)
    else
      let cond ← expr budget
      return .whileStmt pos cond (← block (some .whileClause) budget)

/-- A `for` with its block. -/
def forStmt : Nat → ParseM Stmt
  | 0 => do
    starve
    return .empty (← here)
  | budget + 1 => traced .forStmt do
    let pos ← here
    let clause ← clause .forClause budget
    let body ← block (some .forClause) budget
    return .forStmt pos clause.init? clause.cond? clause.post? body

end

end ParseM

end FrontEnd
