import FrontEnd.Proofs.Grammar.Spelling

/-!
# The productions

The grammar as it is documented: for each nonterminal the right side of its production, in an extended
Backus-Naur form. It says which lexemes are a file, but nothing about the tree of the file, and its
expressions are ambiguous, because precedence only matters for trees. `Derives` is the least relation
that fits the productions.

Before a block, a brace could belong to a slice type at the end of an expression or to the block. The
parser takes it for the slice, so that `if []T { }` lacks a block. The expressions directly before a
block are therefore a nonterminal of their own, whose `Ending` says whether they may end in a slice
type that has no elements.
-/

namespace FrontEnd

/-- What an expression may end in. -/
inductive Ending where
  /-- anything that an expression may end in -/
  | free
  /-- not a slice type without elements -/
  | closed
deriving DecidableEq

/-- What the grammar has productions for. -/
inductive Nonterminal where
  | file
  | importDecl
  | decl
  | param
  | params
  | type
  | importSpec
  | typeSpec
  | varSpec
  | block
  | stmt
  | ifStmt
  | simple
  /-- a simple statement that is no definition -/
  | post (e : Ending)
  | expr (e : Ending)
  | unary (e : Ending)
  | primary (e : Ending)
  | operand (e : Ending)

/-- The right side of a production. -/
inductive Rhs where
  /-- one lexeme of the given kind -/
  | lexeme (accept : Lexeme → Prop)
  | ref (n : Nonterminal)
  | seq (a b : Rhs)
  | alt (a b : Rhs)
  /-- what may be absent -/
  | opt (a : Rhs)
  /-- any number of times -/
  | many (a : Rhs)

namespace Rhs

instance : Append Rhs := ⟨seq⟩

instance : OrElse Rhs := ⟨fun a b => alt a (b ())⟩

/-- One lexeme with the given token. -/
def tok (t : Token) : Rhs := lexeme fun l => l.token = t

/-- The lexeme of a keyword. -/
def word (k : Keyword) : Rhs := tok (.keyword k)

/-- Things with separators between them, and perhaps one after the last. -/
def list (a : Rhs) (separator : Token) : Rhs :=
  opt (a ++ many (tok separator ++ a) ++ opt (tok separator))

/-- Things of which some may be absent, with semicolons between them. -/
def terminated (a : Rhs) : Rhs := many (opt a ++ tok .semi) ++ opt a

/-- A thing, or any number of them in parentheses. -/
def group (a : Rhs) : Rhs := a <|> tok .lparen ++ list a .semi ++ tok .rparen

/-- An operator between expressions. -/
def binaryOp : Rhs := lexeme fun l => ∃ op, l.operator? = some op ∧ 0 < op.precedence

/-- An operator before an expression. -/
def unaryOp : Rhs := lexeme fun l => ∃ op, l.operator? = some op ∧ op.isUnary

/-- The name of an operator that may be declared. -/
def operatorName : Rhs :=
  lexeme fun l => l.token = .name ∧ ∃ overload, Overload.ofName? l.literal = some overload

/-- The path of an import. -/
def path : Rhs := lexeme fun l => l.token = .literal ∧ l.kind = .string

end Rhs

open Rhs

/-- The productions, given how an expression may end directly before a block. -/
def production (head : Ending) : Nonterminal → Rhs
  | .file => word .moduleWord ++ tok .name ++ tok .semi ++ many (opt (ref .importDecl) ++ tok .semi) ++
      (ref .importDecl <|> terminated (ref .decl))
  | .importDecl => word .importWord ++ group (ref .importSpec)
  | .decl =>
      word .typeWord ++ group (ref .typeSpec) <|>
      word .varWord ++ group (ref .varSpec) <|>
      word .funcWord ++ tok .name ++ ref .params ++ opt (ref .type) ++ opt (ref .block) <|>
      word .operWord ++ tok .lparen ++ ref .param ++ tok .rparen ++ operatorName ++
        tok .lparen ++ ref .param ++ tok .rparen ++ ref .type ++ ref .block
  | .params => tok .lparen ++ list (ref .param) .comma ++ tok .rparen
  | .param => tok .name ++ ref .type
  | .type => tok .name <|> tok .lbrack ++ tok .rbrack ++ ref .type
  | .importSpec => path
  | .typeSpec => tok .name ++ opt (tok .assign) ++ ref .type
  | .varSpec => tok .name ++
      (tok .assign ++ ref (.expr .free) <|> ref .type ++ opt (tok .assign ++ ref (.expr .free)))
  | .block => tok .lbrace ++ terminated (ref .stmt) ++ tok .rbrace
  | .stmt =>
      ref .simple <|>
      word .varWord ++ group (ref .varSpec) <|>
      word .typeWord ++ group (ref .typeSpec) <|>
      ref .block <|>
      ref .ifStmt <|>
      word .whileWord ++ ref (.expr head) ++ ref .block <|>
      word .forWord ++ (opt (ref (.expr head)) <|>
        opt (ref .simple) ++ tok .semi ++ opt (ref (.expr .free)) ++ tok .semi ++
          opt (ref (.post head))) ++ ref .block <|>
      word .returnWord ++ opt (ref (.expr .free)) <|>
      word .breakWord
  | .ifStmt => word .ifWord ++
      (ref (.expr head) <|> opt (ref .simple) ++ tok .semi ++ ref (.expr head)) ++ ref .block ++
      opt (word .elseWord ++ (ref .ifStmt <|> ref .block))
  | .simple => ref (.post .free) <|> ref (.expr .free) ++ tok .define ++ ref (.expr .free)
  | .post e =>
      ref (.expr e) <|>
      ref (.expr .free) ++ tok .incOp <|>
      ref (.expr .free) ++ (tok .assign <|> tok .assignOp) ++ ref (.expr e)
  | .expr e => ref (.unary e) <|> ref (.expr .free) ++ binaryOp ++ ref (.expr e)
  | .unary e => ref (.primary e) <|> unaryOp ++ ref (.unary e)
  | .primary e =>
      ref (.operand e) <|>
      ref (.primary .free) ++ (tok .dot ++ tok .name <|>
        tok .lbrack ++ ref (.expr .free) ++ tok .rbrack <|>
        tok .lparen ++ list (ref (.expr .free)) .comma ++ tok .rparen)
  | .operand e =>
      let slice := tok .lbrack ++ tok .rbrack ++ ref .type
      let elems := tok .lbrace ++ list (ref (.expr .free)) .comma ++ tok .rbrace
      tok .name <|> tok .literal <|>
      slice ++ (match e with
        | .free => opt elems
        | .closed => elems) <|>
      tok .lparen ++ ref (.expr .free) ++ tok .rparen

/-- The lexemes start with something of the given form, and others are left of them after it. -/
inductive Derives (head : Ending) : Rhs → List Lexeme → List Lexeme → Prop
  | lexeme {accept l ts} : accept l → Derives head (.lexeme accept) (l :: ts) ts
  | ref {n ts us} : Derives head (production head n) ts us → Derives head (.ref n) ts us
  | seq {a b ts us vs} : Derives head a ts us → Derives head b us vs → Derives head (.seq a b) ts vs
  | left {a b ts us} : Derives head a ts us → Derives head (.alt a b) ts us
  | right {a b ts us} : Derives head b ts us → Derives head (.alt a b) ts us
  | skip {a ts} : Derives head (.opt a) ts ts
  | take {a ts us} : Derives head a ts us → Derives head (.opt a) ts us
  | nil {a ts} : Derives head (.many a) ts ts
  | cons {a ts us vs} : Derives head a ts us → Derives head (.many a) us vs →
      Derives head (.many a) ts vs

end FrontEnd
