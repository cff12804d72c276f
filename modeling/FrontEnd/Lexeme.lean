import FrontEnd.Operator
import FrontEnd.Position
import FrontEnd.Token
import FrontEnd.Unicode.Alphabetic
import FrontEnd.Unicode.Numeric

/-!
# Lexemes

A `Lexeme` is a token as it was found: its class, what goes with the class, and where it starts. The
literal of a separator says why it is there: a semicolon, a newline, or the end of the input. A token
that carries no literal keeps that of the token before it, and likewise the kind of literal. The rest is
cleared before every token (`Lexeme.cleared`), and set again by the tokens that it goes with: the
operator and its precedence, whether the token is malformed, and whether a statement may end with it.
That these go with the class of the token is not built into the record.
-/

namespace FrontEnd

/-- A token with what it carries and the place of its first byte. -/
structure Lexeme where
  token : Token
  /-- the text of a name, keyword or literal, or the reason of a separator -/
  literal : String
  kind : LitKind
  /-- whether the token is a malformed literal -/
  bad : Bool
  op? : Option Operator
  /-- how strongly the token binds as a binary operator, zero without an operator -/
  precedence : Nat
  /-- whether a newline or the end of the input behind the token ends a statement -/
  endsStatement : Bool
  place : Place
deriving DecidableEq, Repr, Inhabited

namespace Lexeme

/-- What stands before the first token. -/
def beforeAll : Lexeme := ⟨.eof, "", .int, false, none, 0, false, ⟨0, 0⟩⟩

/-- What is left of a lexeme for the one after it. -/
def cleared (l : Lexeme) : Lexeme :=
  { l with bad := false, op? := none, precedence := 0, endsStatement := false }

/-- The reason of a separator that is written. -/
def semicolonReason : String := "semicolon"

/-- The reason of a separator that a newline stands for. -/
def newlineReason : String := "newline"

/-- The reason of a separator that the end of the input stands for. -/
def endReason : String := "EOF"

/-- The spelling of the operator that the token carries. -/
def opSpelling (l : Lexeme) : String := l.op?.elim "" Operator.spelling

/-- The lexeme in a list of tokens. -/
def text (l : Lexeme) : String :=
  match l.token with
  | .name | .literal | .semi => l.literal
  | .op | .star => l.opSpelling
  | .assignOp => l.opSpelling ++ "="
  | .incOp => l.opSpelling ++ l.opSpelling
  | t => t.spelling

/-- The lexeme in a diagnostic. -/
def describe (l : Lexeme) : String :=
  match l.token with
  | .name | .semi => l.literal
  | .literal => "gotLiteral " ++ l.literal
  | .op => l.opSpelling
  | .assignOp => l.opSpelling ++ "="
  | .incOp => l.opSpelling ++ l.opSpelling
  | t => t.describe

/-- The same lexeme as a token that is always written the same. A statement may end with one that closes
what another one opens. -/
def withToken (l : Lexeme) (token : Token) : Lexeme :=
  { l with token, endsStatement := token.isClosing || l.endsStatement }

/-- The same lexeme as a token that a statement may end with. -/
def ending (l : Lexeme) : Lexeme := { l with endsStatement := true }

/-- The same lexeme as an operator token. -/
def withOp (l : Lexeme) (token : Token) (op : Operator) : Lexeme :=
  { l with token, op? := some op, precedence := op.precedence }

/-- The same lexeme as a separator. -/
def withReason (l : Lexeme) (reason : String) : Lexeme := { l with token := .semi, literal := reason }

/-- The same lexeme as the end of the input. -/
def atEnd (l : Lexeme) : Lexeme := { l with token := .eof, literal := "" }

/-- The same lexeme as a keyword or name with the given text. A statement may end with a name. -/
def withWord (l : Lexeme) (word : String) : Lexeme :=
  { l with
    token := (Keyword.ofSpelling? word).elim .name .keyword
    literal := word
    endsStatement := (Keyword.ofSpelling? word).elim true Keyword.endsStatement }

/-- The same lexeme as a literal with the given text. A statement may end with it. -/
def withLiteral (l : Lexeme) (text : String) (kind : LitKind) (bad : Bool) : Lexeme :=
  { l with token := .literal, literal := text, kind, bad, endsStatement := true }

end Lexeme

/-! ## Characters of names -/

/-- Whether a name may start with the character. -/
def isNameStart (c : Char) : Bool :=
  c.isAlpha || c = '_' || (127 < c.toNat && Unicode.alphabetic.has c)

/-- Whether the character may stand in a name after its start. -/
def isNamePart (c : Char) : Bool :=
  c.isAlpha || c = '_' || c.isDigit ||
    (127 < c.toNat && (Unicode.alphabetic.has c || Unicode.numeric.has c))

end FrontEnd
