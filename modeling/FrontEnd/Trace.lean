import FrontEnd.Operator

/-!
# Grammar traces

A trace tells how a parser applied its grammar: which rules it entered and left, and what it noted in
between. Every line is indented by the rules that are open, and names the source line where that
differs from the trace line before.
-/

namespace FrontEnd

/-- The grammar rules that are traced. -/
inductive Rule where
  | file
  | importDecl
  | typeDecl
  | varDecl
  | funcDecl
  | operDecl
  | blockStmt
  | stmtList
  | stmt
  | simpleStmt
  | declStmt
  | ifStmt
  | whileStmt
  | forStmt
  | expr
  | unaryExpr
  | primaryExpr
  | operand
  | argList
  | sliceType
deriving DecidableEq, Repr, Inhabited

/-- The rule's name in a trace. -/
def Rule.name : Rule → String
  | .file => "file"
  | .importDecl => "importDecl"
  | .typeDecl => "typeDecl"
  | .varDecl => "varDecl"
  | .funcDecl => "funcDecl"
  | .operDecl => "operDecl"
  | .blockStmt => "blockStmt"
  | .stmtList => "stmtList"
  | .stmt => "stmt"
  | .simpleStmt => "simpleStmt"
  | .declStmt => "declStmt"
  | .ifStmt => "ifStmt"
  | .whileStmt => "whileStmt"
  | .forStmt => "forStmt"
  | .expr => "expr"
  | .unaryExpr => "unaryExpr"
  | .primaryExpr => "pexpr"
  | .operand => "operand"
  | .argList => "argList"
  | .sliceType => "sliceType"

/-- What a trace line tells. -/
inductive TraceNote where
  | enter (rule : Rule)
  | leave
  | remark (text : String)
deriving DecidableEq, Repr, Inhabited

/-- The note as it is written. -/
def TraceNote.text : TraceNote → String
  | .enter rule => rule.name ++ " ("
  | .leave => ")"
  | .remark text => text

/-- A line of a trace. -/
structure TraceLine where
  /-- the source line, unless the trace line before had the same -/
  line? : Option Nat
  /-- the number of open rules -/
  depth : Nat
  note : TraceNote
deriving DecidableEq, Repr, Inhabited

namespace TraceLine

/-- What stands before the indentation, always as wide unless the line number has five digits. -/
def margin (line? : Option Nat) : String :=
  match line? with
  | some line =>
    let digits := toString line
    "line " ++ digits.pushn ' ' (4 - digits.length)
  | none => "".pushn ' ' 9

/-- The indentation below some open rules. -/
def indentation (depth : Nat) : String := String.join (List.replicate depth ". ")

/-- The line as it is written. -/
def text (t : TraceLine) : String := margin t.line? ++ indentation t.depth ++ t.note.text

end TraceLine

end FrontEnd
