import FrontEnd.Tree

/-!
# Layout of trees

The canonical text of a tree. It is laid out as a list of pieces, the words of the text and the gaps
between them, so that what is written can be compared token by token with what is read; the text is
the pieces put together. Blocks are indented by tabs, declarations are set apart by blank lines, and
an operand stands in parentheses exactly if it binds less strongly than its place requires, besides
the parentheses that are in the tree.

A sign is never written right before another one, where the two would read as one token.
-/

namespace FrontEnd

/-- A part of a text: a word, or the gap between two. -/
inductive Piece where
  | word (text : String)
  | gap (text : String)
deriving DecidableEq, Repr, Inhabited

namespace Piece

/-- The text of a piece. -/
def text : Piece → String
  | .word text | .gap text => text

/-- A single blank. -/
def space : Piece := .gap " "

/-- The end of a line. -/
def newline : Piece := .gap "\n"

/-- The blanks at the start of a line. -/
def indent (depth : Nat) : Piece := .gap ("".pushn '\t' depth)

/-- The text of some pieces. -/
def render (pieces : List Piece) : String := String.join (pieces.map text)

/-- The first character of the text of some pieces. -/
def firstChar? (pieces : List Piece) : Option Char :=
  pieces.findSome? fun piece => piece.text.toList.head?

/-- Pieces in parentheses. -/
def parenthesized (pieces : List Piece) : List Piece := [.word "("] ++ pieces ++ [.word ")"]

/-- Pieces in parentheses if they need them. -/
def parenthesizedIf (needed : Bool) (pieces : List Piece) : List Piece :=
  if needed then parenthesized pieces else pieces

/-- Items with commas between them. -/
def commaSeparated (items : List (List Piece)) : List Piece :=
  List.intercalate [.word ",", space] items

end Piece

open Piece

namespace Expr

/-- How strongly a binary operation binds; none for an expression that is not one. -/
def binding? (x : Expr) : Option Nat := x.binaryOp?.map Operator.precedence

/-- Whether the expression needs parentheses as a left operand of `op`. -/
def bindsLooser (x : Expr) (op : Operator) : Bool := x.binding?.any (· < op.precedence)

/-- Whether the expression needs parentheses as a right operand of `op`. -/
def bindsNoTighter (x : Expr) (op : Operator) : Bool := x.binding?.any (· ≤ op.precedence)

/-- Whether a blank keeps the operator from growing together with what follows it. -/
def needsSpace (op : Operator) (operand : List Piece) : Bool :=
  (op = .add || op = .sub) && (firstChar? operand).any fun c => c = '+' || c = '-'

mutual

/-- The pieces of an expression. -/
def pieces : Expr → List Piece
  | .name n => [.word n.text]
  | .literal l => [.word l.text]
  | .unary _ op x =>
    let operand := x.pieces
    [.word op.spelling] ++ (if needsSpace op operand then [space] else []) ++
      parenthesizedIf x.binding?.isSome operand
  | .binary _ op x y =>
    parenthesizedIf (x.bindsLooser op) x.pieces ++ [space, .word op.spelling, space] ++
      parenthesizedIf (y.bindsNoTighter op) y.pieces
  | .selector _ x field => parenthesizedIf x.isOperation x.pieces ++ [.word ".", .word field.text]
  | .index _ x i =>
    parenthesizedIf x.isOperation x.pieces ++ [.word "["] ++ i.pieces ++ [.word "]"]
  | .call _ callee args =>
    parenthesizedIf callee.isOperation callee.pieces ++ parenthesized (commaSeparated (piecesEach args))
  | .sliceType _ elem => [.word "[", .word "]"] ++ elem.pieces
  | .sliceLit _ elem elems =>
    [.word "[", .word "]"] ++ elem.pieces ++ [.word "\x7b"] ++ commaSeparated (piecesEach elems) ++
      [.word "\x7d"]
  | .paren _ x => parenthesized x.pieces
  | .bad _ => [.word "BadExpr"]

/-- The pieces of each of some expressions. -/
def piecesEach : List Expr → List (List Piece)
  | [] => []
  | x :: xs => x.pieces :: piecesEach xs

end

/-- The text of an expression. -/
def text (x : Expr) : String := render x.pieces

end Expr

/-- The pieces of a parameter. -/
def Param.pieces (p : Param) : List Piece := [.word p.name.text, space] ++ p.type.pieces

/-- A declaration on its way into a text: its group, the keyword it would have on its own, and the
pieces after the keyword. -/
structure LaidDecl where
  group? : Option Group
  keyword : Keyword
  pieces : List Piece
deriving Inhabited

namespace LaidDecl

/-- Whether two consecutive declarations stand in one group. -/
def sameGroup (a b : LaidDecl) : Bool :=
  match a.group?, b.group? with
  | some g, some h => g.id = h.id
  | _, _ => false

/-- The depth at which the members of a group are laid out. -/
def memberDepth (group? : Option Group) (depth : Nat) : Nat :=
  if group?.isSome then depth + 1 else depth

/-- A declaration on its own, or all of a group. -/
def clusterPieces (depth : Nat) : List LaidDecl → List Piece
  | [] => []
  | d :: ds =>
    match d.group? with
    | none => [.word d.keyword.spelling, space] ++ d.pieces
    | some g =>
      [.word g.keyword.spelling, space, .word "(", newline] ++
        (d :: ds).flatMap (fun m => [indent (depth + 1)] ++ m.pieces ++ [newline]) ++
        [indent depth, .word ")"]

/-- Declarations gathered into single ones and groups. -/
def clusters (depth : Nat) (ds : List LaidDecl) : List (List Piece) :=
  (ds.splitBy sameGroup).map (clusterPieces depth)

end LaidDecl

mutual

/-- The pieces of a block whose last line is indented to `depth`. -/
def Block.pieces (depth : Nat) : Block → List Piece
  | .mk _ stmts _ =>
    [.word "\x7b", newline] ++ Stmt.piecesOfLines (depth + 1) stmts ++ [indent depth, .word "\x7d"]

/-- The pieces of statements on lines of their own. -/
def Stmt.piecesOfLines (depth : Nat) : List Stmt → List Piece
  | [] => []
  | s :: rest =>
    [indent depth] ++ Stmt.pieces depth s ++ [newline] ++ Stmt.piecesOfLines depth rest

/-- The pieces of a statement that may be absent. -/
def Stmt.pieces? (depth : Nat) : Option Stmt → Option (List Piece)
  | none => none
  | some s => some (Stmt.pieces depth s)

/-- The pieces of a statement whose further lines are indented to `depth`. -/
def Stmt.pieces (depth : Nat) : Stmt → List Piece
  | .block body => body.pieces depth
  | .ifStmt _ init? cond thenBlock else? =>
    [.word "if", space] ++
      (match Stmt.pieces? depth init? with
        | some init => init ++ [.word ";", space]
        | none => []) ++
      cond.pieces ++ [space] ++ thenBlock.pieces depth ++
      (match Stmt.pieces? depth else? with
        | some els => [space, .word "else", space] ++ els
        | none => [])
  | .whileStmt _ cond body =>
    [.word "while", space] ++ cond.pieces ++ [space] ++ body.pieces depth
  | .forStmt _ init? cond? post? body =>
    [.word "for", space] ++
      (match Stmt.pieces? depth init?, cond?, Stmt.pieces? depth post? with
        | none, none, none => []
        -- A condition alone is written like that of a `while`, without semicolons.
        | none, some cond, none => cond.pieces ++ [space]
        | init?, cond?, post? =>
          init?.getD [] ++ [.word ";"] ++ cond?.elim [] (fun cond => [space] ++ cond.pieces) ++
            [.word ";"] ++ post?.elim [] (fun post => [space] ++ post) ++ [space]) ++
      body.pieces depth
  | .returnStmt _ result? =>
    [.word "return"] ++ result?.elim [] (fun x => [space] ++ x.pieces)
  | .breakStmt _ => [.word "break"]
  | .empty _ => [.word ";"]
  | .expr x => x.pieces
  | .assign _ op? lhs rhs =>
    lhs.pieces ++ [space, .word (op?.elim "" Operator.spelling ++ "="), space] ++ rhs.pieces
  | .incDec _ op x => x.pieces ++ [.word (op.spelling ++ op.spelling)]
  | .define _ lhs rhs => lhs.pieces ++ [space, .word ":=", space] ++ rhs.pieces
  | .decls _ [] => [.word "var", space, .word "(", .word ")"]
  | .decls _ (d :: ds) =>
    List.intercalate [.word ";", space]
      (LaidDecl.clusters depth (Decl.laid depth d :: Decl.laidEach depth ds))

/-- The pieces of a block after a blank, if there is a block. -/
def Block.piecesAfter (depth : Nat) : Option Block → List Piece
  | none => []
  | some body => [space] ++ body.pieces depth

/-- The pieces of what is declared, without the keyword. -/
def Spec.pieces (depth : Nat) : Spec → List Piece
  | .importSpec path? => [.word (path?.elim "\"\"" Literal.text)]
  | .typeSpec name isAlias type =>
    [.word name.text] ++ (if isAlias then [space, .word "=", space] else [space]) ++ type.pieces
  | .varSpec name type? value? =>
    [.word name.text] ++ type?.elim [] (fun type => [space] ++ type.pieces) ++
      value?.elim [] (fun value => [space, .word "=", space] ++ value.pieces)
  | .funcSpec name params result? body? =>
    [.word name.text] ++ parenthesized (commaSeparated (params.map Param.pieces)) ++
      result?.elim [] (fun result => [space] ++ result.pieces) ++ Block.piecesAfter depth body?
  | .operSpec lhs overload rhs result body? =>
    parenthesized lhs.pieces ++ [space, .word overload.name, space] ++ parenthesized rhs.pieces ++
      [space] ++ result.pieces ++ Block.piecesAfter depth body?

/-- A declaration laid out. -/
def Decl.laid (depth : Nat) : Decl → LaidDecl
  | .mk _ group? spec =>
    ⟨group?, spec.keyword, spec.pieces (LaidDecl.memberDepth group? depth)⟩

/-- Declarations laid out. -/
def Decl.laidEach (depth : Nat) : List Decl → List LaidDecl
  | [] => []
  | d :: ds => Decl.laid depth d :: Decl.laidEach depth ds

end

/-- The text of a statement. -/
def Stmt.text (s : Stmt) : String := render (s.pieces 0)

/-- The pieces of a file. -/
def File.pieces (f : File) : List Piece :=
  [.word "module", space, .word f.moduleName.text, newline] ++
    (LaidDecl.clusters 0 (Decl.laidEach 0 f.decls)).flatMap
      fun cluster => [newline] ++ cluster ++ [newline]

/-- The text of a file. -/
def File.text (f : File) : String := render f.pieces

end FrontEnd
