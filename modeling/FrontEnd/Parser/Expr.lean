import FrontEnd.Parser.Basic

/-!
# Types and expressions

    Type        = name | SliceType .
    SliceType   = "[" "]" Type .
    Expr        = UnaryExpr | Expr binary_op Expr .
    UnaryExpr   = PrimaryExpr | ( "*" | "+" | "-" | "!" ) UnaryExpr .
    PrimaryExpr = Operand | PrimaryExpr ( "." name | "[" Expr "]" | "(" Args ) .
    Operand     = name | literal | SliceType [ "{" Elems ] | "(" Expr ")" .
    Args        = [ Expr { "," Expr } [ "," ] ] ")" .
    Elems       = [ Expr { "," Expr } [ "," ] ] "}" .

Binary operators associate to the left and are read by climbing: an operand is extended by every
operator that binds more strongly than the one before it. A comparison `a < b` is kept as `b > a`.
-/

namespace FrontEnd

namespace ParseM

mutual

/-- A type, if one starts at the current token. -/
def type? : Nat → ParseM (Option Expr)
  | 0 => do
    starve
    return none
  | budget + 1 => do
    match ← token with
    | .name => return some (.name (← ident))
    | .lbrack =>
      let pos ← here
      return some (.sliceType pos (← sliceElem budget))
    | _ => return none

/-- The element type of a slice type whose bracket is the current token. -/
def sliceElem : Nat → ParseM Expr
  | 0 => do
    starve
    hole
  | budget + 1 => traced .sliceType do
    next
    want .rbrack
    match ← type? budget with
    | some elem => return elem
    | none =>
      let bad ← hole
      complain (.expecting .type)
      return bad

end

/-- Where reading goes on after an expression that could not be read. -/
def operandFollow : List Token := [.rparen, .rbrack, .rbrace, .semi, .comma]

mutual

/-- An expression. -/
def expr : Nat → ParseM Expr
  | 0 => do
    starve
    hole
  | budget + 1 => traced .expr (binaryExpr 0 budget)

/-- An expression of operators that bind more strongly than `floor`. -/
def binaryExpr (floor : Nat) : Nat → ParseM Expr
  | 0 => do
    starve
    hole
  | budget + 1 => do
    let x ← unaryExpr budget
    binaryRest floor x budget

/-- The rest of an expression of operators that bind more strongly than `floor`, after `x`. -/
def binaryRest (floor : Nat) (x : Expr) : Nat → ParseM Expr
  | 0 => do
    starve
    return x
  | budget + 1 => do
    match (← get).operator? with
    | some op =>
      if floor < op.precedence then
        let pos ← here
        remark ("operator(" ++ op.spelling ++ ")")
        next
        -- An operator that binds as strongly is left to the loop: operators associate to the left.
        let y ← binaryExpr op.precedence budget
        if op = .less then binaryRest floor (.binary pos .greater y x) budget
        else binaryRest floor (.binary pos op x y) budget
      else return x
    | none => return x

/-- A primary expression with any number of operators before it. -/
def unaryExpr : Nat → ParseM Expr
  | 0 => do
    starve
    hole
  | budget + 1 => traced .unaryExpr do
    match (← get).operator?.filter Operator.isUnary with
    | some op =>
      let pos ← here
      next
      return .unary pos op (← unaryExpr budget)
    | none => primaryExpr budget

/-- An operand with any number of selectors, indices and calls after it. -/
def primaryExpr : Nat → ParseM Expr
  | 0 => do
    starve
    hole
  | budget + 1 => traced .primaryExpr do
    let x ← operand budget
    primaryRest x budget

/-- The rest of a primary expression after `x`. -/
def primaryRest (x : Expr) : Nat → ParseM Expr
  | 0 => do
    starve
    return x
  | budget + 1 => do
    let pos ← here
    match ← token with
    | .dot =>
      next
      if (← token) = .name then
        let field ← ident
        primaryRest (.selector pos x field) budget
      else
        complain (.expecting .nameOrParen)
        recover [.semi, .rparen]
        primaryRest x budget
    | .lbrack =>
      next
      let i ← expr budget
      want .rbrack
      primaryRest (.index pos x i) budget
    | .lparen =>
      next
      let args ← traced .argList (list .arguments (expr budget) budget)
      primaryRest (.call pos x args) budget
    | _ => return x

/-- A name, a literal, a slice, or an expression in parentheses. -/
def operand : Nat → ParseM Expr
  | 0 => do
    starve
    hole
  | budget + 1 => traced .operand do
    match ← token with
    | .name =>
      let name ← ident
      remark ("name(" ++ name.text ++ ")")
      return .name name
    | .literal =>
      let literal ← literal
      remark ("literal(" ++ literal.text ++ ")")
      return .literal literal
    | .lbrack =>
      let pos ← here
      let elem ← sliceElem budget
      if (← token) = .lbrace then
        next
        return .sliceLit pos elem (← list .elements (expr budget) budget)
      else return .sliceType pos elem
    | .lparen =>
      let pos ← here
      next
      let x ← expr budget
      want .rparen
      return .paren pos x
    | _ =>
      let bad ← hole
      complain (.expecting .expression)
      recover operandFollow
      return bad

end

end ParseM

end FrontEnd
