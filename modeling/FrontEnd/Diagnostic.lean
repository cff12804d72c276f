import FrontEnd.LexError
import FrontEnd.Token

/-!
# Diagnostics

What a parser complains about, with the position of the complaint. A `Cause` is a lexical fault, a
line directive with an impossible number, or a complaint about the syntax.

A complaint about the syntax is worded in one of three ways. Most say what is unexpected where they
arise, and then either what was expected instead or in what surroundings it came; the others stand by
themselves.
-/

namespace FrontEnd

/-- The statements with a clause in front of their block. -/
inductive Construct where
  | ifClause
  | whileClause
  | forClause
deriving DecidableEq, Repr, Inhabited

namespace Construct

/-- The keyword of the statement. -/
def keyword : Construct → Keyword
  | .ifClause => .ifWord
  | .whileClause => .whileWord
  | .forClause => .forWord

/-- The statement in words. -/
def name (c : Construct) : String := c.keyword.spelling

end Construct

/-- The lists with separators between their elements. -/
inductive ListKind where
  | declarations
  | parameters
  | arguments
  | elements
deriving DecidableEq, Repr, Inhabited

namespace ListKind

/-- The list in words. -/
def name : ListKind → String
  | .declarations => "grouped declaration"
  | .parameters => "parameter list"
  | .arguments => "argument list"
  | .elements => "slice literal"

/-- The token between two elements. -/
def separator : ListKind → Token
  | .declarations => .semi
  | .parameters | .arguments | .elements => .comma

/-- The token after the list. -/
def closer : ListKind → Token
  | .declarations | .parameters | .arguments => .rparen
  | .elements => .rbrace

end ListKind

/-- What could have come instead of an unexpected token. -/
inductive Expected where
  | token (t : Token)
  | type
  | name
  | expression
  | parameter
  | receiver
  | operand
  | operatorName
  | nameOrParen
  | loopCondition
  /-- the block after a clause -/
  | blockAfter (c : Construct)
deriving DecidableEq, Repr, Inhabited

/-- What was expected, in words. -/
def Expected.describe : Expected → String
  | .token t => t.describe
  | .type => "type"
  | .name => "name"
  | .expression => "expression"
  | .parameter => "parameter"
  | .receiver => "receiver"
  | .operand => "operand"
  | .operatorName => "operator name"
  | .nameOrParen => "name or ("
  | .loopCondition => "for loop condition"
  | .blockAfter c => "\x7b after " ++ c.name ++ " clause"

/-- Complaints about the syntax. -/
inductive Complaint where
  | expecting (what : Expected)
  /-- neither separator nor closer after an element -/
  | inList (kind : ListKind)
  | inTypeDeclaration
  | afterTopLevel
  | atEndOfStatement
  /-- an import after other declarations -/
  | lateImport
  /-- a statement outside of any function -/
  | strayStatement
  | missingImportPath
  | importPathNotString
  | unknownOverload (name : String)
  | strayElse
  | missingCondition (c : Construct)
  /-- a declaration where a clause has its initializer -/
  | declarationInClause (c : Construct)
  | declarationInPost
  /-- an inserted separator, with its reason, in place of a block -/
  | separatorBeforeBlock (reason : String)
  /-- a statement, as it is written, where a condition should be -/
  | notAValue (statement : String)
deriving DecidableEq, Repr, Inhabited

/-- How the words of a complaint are joined to the unexpected token. -/
inductive Wording where
  /-- not at all -/
  | alone
  /-- as the surroundings of the token -/
  | surroundings
  /-- as what was expected instead -/
  | expectation
deriving DecidableEq, Repr, Inhabited

namespace Complaint

/-- The words of a complaint. -/
def words : Complaint → String
  | .expecting what => "expecting " ++ what.describe
  | .inList kind =>
    "in " ++ kind.name ++ "; possibly missing " ++ kind.separator.describe ++ " or " ++
      kind.closer.describe
  | .inTypeDeclaration => "in type declaration"
  | .afterTopLevel => "after top level declaration"
  | .atEndOfStatement => "at end of statement"
  | .lateImport => "imports must appear before other declarations"
  | .strayStatement => "non-declaration statement outside function body"
  | .missingImportPath => "missing import path"
  | .importPathNotString => "import path must be a string"
  | .unknownOverload name => "invalid operator name " ++ name
  | .strayElse => "else must be followed by if or statement block"
  | .missingCondition c => "missing condition in " ++ c.name ++ " statement"
  | .declarationInClause c => "var declaration not allowed in " ++ c.name ++ " initializer"
  | .declarationInPost => "cannot declare in post statement of for loop"
  | .separatorBeforeBlock reason => "unexpected " ++ reason ++ ", expecting \x7b after if clause"
  | .notAValue statement => "cannot use " ++ statement ++ " as value"

/-- How the complaint is worded. -/
def wording : Complaint → Wording
  | .expecting _ => .expectation
  | .inList _ | .inTypeDeclaration | .afterTopLevel | .atEndOfStatement => .surroundings
  | _ => .alone

/-- The complaint in full, about a token that is described as `found`. -/
def message (c : Complaint) (found : String) : String :=
  match c.wording with
  | .alone => "syntax error: " ++ c.words
  | .surroundings => "syntax error: unexpected " ++ found ++ " " ++ c.words
  | .expectation => "syntax error: unexpected " ++ found ++ ", " ++ c.words

end Complaint

/-- What a diagnostic is about. -/
inductive Cause where
  | lexical (fault : LexFault)
  /-- the text in place of a line number in a directive -/
  | badLine (text : String)
  /-- the text in place of a column number in a directive -/
  | badColumn (text : String)
  /-- a complaint, and the token where it arose -/
  | syntactic (complaint : Complaint) (found : String)
deriving DecidableEq, Repr, Inhabited

/-- The cause in words. -/
def Cause.message : Cause → String
  | .lexical fault => fault.message
  | .badLine text => "invalid line number: " ++ text
  | .badColumn text => "invalid column number: " ++ text
  | .syntactic complaint found => complaint.message found

/-- A cause at its position. -/
structure Diagnostic where
  pos : Pos
  cause : Cause
deriving DecidableEq, Repr, Inhabited

namespace Diagnostic

/-- What the diagnostic says. -/
def message (d : Diagnostic) : String := d.cause.message

/-- What the diagnostic says, and where. -/
def display (d : Diagnostic) : String := d.pos.display ++ ": " ++ d.message

end Diagnostic

end FrontEnd
