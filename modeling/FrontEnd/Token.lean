/-!
# Tokens

The classes of token that a source is divided into. A class says nothing about a token's text: the
name, the literal or the operator that it carries is recorded beside it, in a `Lexeme`. A class is
shown to the user in three ways: as its own word in token listings (`className`), as it is written
(`spelling`), and in the phrases of diagnostics (`describe`), which put words to the separators.

Statements end at a newline wherever the token before it could end one (`endsStatement`).
-/

namespace FrontEnd

/-- The reserved words. -/
inductive Keyword where
  | breakWord
  | elseWord
  | forWord
  | funcWord
  | ifWord
  | importWord
  | moduleWord
  | operWord
  | returnWord
  | typeWord
  | varWord
  | whileWord
deriving DecidableEq, Repr, Inhabited

namespace Keyword

/-- The keyword as it is written. -/
def spelling : Keyword → String
  | .breakWord => "break"
  | .elseWord => "else"
  | .forWord => "for"
  | .funcWord => "func"
  | .ifWord => "if"
  | .importWord => "import"
  | .moduleWord => "module"
  | .operWord => "oper"
  | .returnWord => "return"
  | .typeWord => "type"
  | .varWord => "var"
  | .whileWord => "while"

/-- The keyword's name in token listings. -/
def className : Keyword → String
  | .breakWord => "Break"
  | .elseWord => "Else"
  | .forWord => "For"
  | .funcWord => "Func"
  | .ifWord => "If"
  | .importWord => "Import"
  | .moduleWord => "Module"
  | .operWord => "Oper"
  | .returnWord => "Return"
  | .typeWord => "Type"
  | .varWord => "Var"
  | .whileWord => "While"

/-- Every keyword once. -/
def all : List Keyword :=
  [.breakWord, .elseWord, .forWord, .funcWord, .ifWord, .importWord, .moduleWord, .operWord,
    .returnWord, .typeWord, .varWord, .whileWord]

/-- The keyword with the given spelling. -/
def ofSpelling? (text : String) : Option Keyword :=
  all.find? (·.spelling = text)

/-- The spelling of a keyword stands for it. -/
theorem ofSpelling?_spelling (k : Keyword) : ofSpelling? k.spelling = some k := by
  cases k <;> decide

/-- Whether a newline or the end of the input right after the keyword ends a statement. -/
def endsStatement : Keyword → Bool
  | .breakWord | .returnWord => true
  | _ => false

end Keyword

/-- The classes of tokens. `assignOp` is an operator followed by an equals sign, `incOp` a doubled
plus or minus, and `star` stands apart from `op` because it is also written before types and
operands. -/
inductive Token where
  | eof
  | name
  | literal
  | op
  | assignOp
  | incOp
  | assign
  | define
  | star
  | lparen
  | lbrack
  | lbrace
  | rparen
  | rbrack
  | rbrace
  | comma
  | semi
  | colon
  | dot
  | dotDotDot
  | keyword (k : Keyword)
deriving DecidableEq, Repr, Inhabited

namespace Token

/-- The token as it is written, or a word for a class with many spellings. -/
def spelling : Token → String
  | .eof => "EOF"
  | .name => "name"
  | .literal => "literal"
  | .op => "op"
  | .assignOp => "op="
  | .incOp => "opop"
  | .assign => "="
  | .define => ":="
  | .star => "*"
  | .lparen => "("
  | .lbrack => "["
  | .lbrace => "\x7b"
  | .rparen => ")"
  | .rbrack => "]"
  | .rbrace => "\x7d"
  | .comma => ","
  | .semi => ";"
  | .colon => ":"
  | .dot => "."
  | .dotDotDot => "..."
  | .keyword k => k.spelling

/-- The token in a diagnostic, where the separators are given in words. -/
def describe : Token → String
  | .comma => "comma"
  | .semi => "semicolon or newline"
  | t => t.spelling

/-- The token's name in token listings. -/
def className : Token → String
  | .eof => "Eof"
  | .name => "Name"
  | .literal => "Literal"
  | .op => "Op"
  | .assignOp => "AssignOp"
  | .incOp => "IncOp"
  | .assign => "Assign"
  | .define => "Define"
  | .star => "Star"
  | .lparen => "Lparen"
  | .lbrack => "Lbrack"
  | .lbrace => "Lbrace"
  | .rparen => "Rparen"
  | .rbrack => "Rbrack"
  | .rbrace => "Rbrace"
  | .comma => "Comma"
  | .semi => "Semi"
  | .colon => "Colon"
  | .dot => "Dot"
  | .dotDotDot => "DotDotDot"
  | .keyword k => k.className

/-- Whether the token closes what another one opens. -/
def isClosing : Token → Bool
  | .rparen | .rbrack | .rbrace => true
  | _ => false

/-- Whether a newline or the end of the input right after the token ends a statement. -/
def endsStatement : Token → Bool
  | .name | .literal | .rparen | .rbrack | .rbrace | .incOp => true
  | .keyword .breakWord | .keyword .returnWord => true
  | _ => false

end Token

/-- The kinds of literal. -/
inductive LitKind where
  | int
  | float
  | rune
  | string
deriving DecidableEq, Repr, Inhabited

end FrontEnd
