import FrontEnd.Operator
import FrontEnd.Position
import FrontEnd.Token

/-!
# Syntax trees

What a source means as a program, before names are resolved: a `File` is a module name and a list of
declarations, whose bodies are blocks of statements over expressions. Every node has the position of
its first token, and every operation that of its operator; a statement that is only an expression
takes its position from it.

Declarations can stand in a group, `var ( ... )`. A group has no node of its own: its members are
consecutive declarations that carry the same `Group`, told apart from others by its number.

A tree can have holes where the source was malformed: bad expressions, an import without a path, an
operator declaration without a body.
-/

namespace FrontEnd

/-- An identifier. -/
structure Ident where
  pos : Pos
  text : String
deriving DecidableEq, Repr, Inhabited

/-- A literal as it is written, quotes and all, malformed or not. -/
structure Literal where
  pos : Pos
  text : String
  kind : LitKind
  bad : Bool
deriving DecidableEq, Repr, Inhabited

/-- Expressions, and the types among them. -/
inductive Expr where
  | name (name : Ident)
  | literal (literal : Literal)
  | unary (pos : Pos) (op : Operator) (x : Expr)
  | binary (pos : Pos) (op : Operator) (x y : Expr)
  | selector (pos : Pos) (x : Expr) (field : Ident)
  | index (pos : Pos) (x i : Expr)
  | call (pos : Pos) (callee : Expr) (args : List Expr)
  | sliceType (pos : Pos) (elem : Expr)
  | sliceLit (pos : Pos) (elem : Expr) (elems : List Expr)
  | paren (pos : Pos) (x : Expr)
  /-- the place of an expression that could not be read -/
  | bad (pos : Pos)
deriving Repr, Inhabited

namespace Expr

/-- The position of an expression. -/
def pos : Expr → Pos
  | .name n => n.pos
  | .literal l => l.pos
  | .unary pos _ _ | .binary pos _ _ _ | .selector pos _ _ | .index pos _ _ | .call pos _ _
  | .sliceType pos _ | .sliceLit pos _ _ | .paren pos _ | .bad pos => pos

/-- The expression inside any number of parentheses. -/
def unparen : Expr → Expr
  | .paren _ x => x.unparen
  | x => x

/-- Whether the expression could not be read. -/
def isBad : Expr → Bool
  | .bad _ => true
  | _ => false

/-- The operator of a binary operation. -/
def binaryOp? : Expr → Option Operator
  | .binary _ op _ _ => some op
  | _ => none

/-- Whether the expression is a unary or binary operation. -/
def isOperation : Expr → Bool
  | .unary .. | .binary .. => true
  | _ => false

end Expr

/-- A name and its type, for a parameter or an operand. -/
structure Param where
  pos : Pos
  name : Ident
  type : Expr
deriving Repr, Inhabited

/-- Declarations in one pair of parentheses: where it opens, the keyword before it, and a number that
no other group of the file has. -/
structure Group where
  id : Nat
  pos : Pos
  keyword : Keyword
deriving DecidableEq, Repr, Inhabited

mutual

/-- Statements between braces. -/
inductive Block where
  | mk (pos : Pos) (stmts : List Stmt) (rbrace : Pos)

/-- Statements. -/
inductive Stmt where
  | block (body : Block)
  | ifStmt (pos : Pos) (init? : Option Stmt) (cond : Expr) (thenBlock : Block)
      (else? : Option Stmt)
  | whileStmt (pos : Pos) (cond : Expr) (body : Block)
  | forStmt (pos : Pos) (init? : Option Stmt) (cond? : Option Expr) (post? : Option Stmt)
      (body : Block)
  | returnStmt (pos : Pos) (result? : Option Expr)
  | breakStmt (pos : Pos)
  | empty (pos : Pos)
  | expr (x : Expr)
  | assign (pos : Pos) (op? : Option Operator) (lhs rhs : Expr)
  | incDec (pos : Pos) (op : Operator) (x : Expr)
  | define (pos : Pos) (lhs rhs : Expr)
  | decls (pos : Pos) (decls : List Decl)

/-- What a declaration declares. -/
inductive Spec where
  | importSpec (path? : Option Literal)
  | typeSpec (name : Ident) (isAlias : Bool) (type : Expr)
  | varSpec (name : Ident) (type? : Option Expr) (value? : Option Expr)
  | funcSpec (name : Ident) (params : List Param) (result? : Option Expr) (body? : Option Block)
  | operSpec (lhs : Param) (overload : Overload) (rhs : Param) (result : Expr)
      (body? : Option Block)

/-- Declarations. -/
inductive Decl where
  | mk (pos : Pos) (group? : Option Group) (spec : Spec)

end

deriving instance Repr, Inhabited for Block, Stmt, Spec, Decl

namespace Block

/-- Where a block opens. -/
def pos : Block → Pos
  | .mk pos _ _ => pos

/-- The statements of a block. -/
def stmts : Block → List Stmt
  | .mk _ stmts _ => stmts

/-- Where a block closes. -/
def rbrace : Block → Pos
  | .mk _ _ rbrace => rbrace

end Block

/-- The position of a statement. -/
def Stmt.pos : Stmt → Pos
  | .block body => body.pos
  | .expr x => x.pos
  | .ifStmt pos _ _ _ _ | .whileStmt pos _ _ | .forStmt pos _ _ _ _ | .returnStmt pos _
  | .breakStmt pos | .empty pos | .assign pos _ _ _ | .incDec pos _ _ | .define pos _ _
  | .decls pos _ => pos

/-- The keyword that introduces what is declared. -/
def Spec.keyword : Spec → Keyword
  | .importSpec .. => .importWord
  | .typeSpec .. => .typeWord
  | .varSpec .. => .varWord
  | .funcSpec .. => .funcWord
  | .operSpec .. => .operWord

namespace Decl

/-- The position of a declaration. -/
def pos : Decl → Pos
  | .mk pos _ _ => pos

/-- The group that a declaration stands in. -/
def group? : Decl → Option Group
  | .mk _ group? _ => group?

/-- What a declaration declares. -/
def spec : Decl → Spec
  | .mk _ _ spec => spec

end Decl

/-- A source file. -/
structure File where
  pos : Pos
  moduleName : Ident
  decls : List Decl
deriving Repr, Inhabited

end FrontEnd
