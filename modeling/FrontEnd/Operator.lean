/-!
# Operators

The operators of the language with their spellings and binding strengths, and the names under which
a program may overload the arithmetic ones. `Operator.not` is never binary and therefore binds with
strength zero; the other strengths run from one (`||`) to five (`*` and its peers).
-/

namespace FrontEnd

/-- The unary and binary operators. -/
inductive Operator where
  | not
  | orOr
  | andAnd
  | equal
  | notEqual
  | less
  | lessEqual
  | greater
  | greaterEqual
  | add
  | sub
  | or
  | xor
  | mul
  | div
  | rem
  | and
  | andNot
  | shiftLeft
  | shiftRight
deriving DecidableEq, Repr, Inhabited

namespace Operator

/-- How strongly a binary use binds; zero for an operator that has none. -/
def precedence : Operator → Nat
  | .not => 0
  | .orOr => 1
  | .andAnd => 2
  | .equal | .notEqual | .less | .lessEqual | .greater | .greaterEqual => 3
  | .add | .sub | .or | .xor => 4
  | .mul | .div | .rem | .and | .andNot | .shiftLeft | .shiftRight => 5

/-- The operator as it is written. -/
def spelling : Operator → String
  | .not => "!"
  | .orOr => "||"
  | .andAnd => "&&"
  | .equal => "=="
  | .notEqual => "!="
  | .less => "<"
  | .lessEqual => "<="
  | .greater => ">"
  | .greaterEqual => ">="
  | .add => "+"
  | .sub => "-"
  | .or => "|"
  | .xor => "^"
  | .mul => "*"
  | .div => "/"
  | .rem => "%"
  | .and => "&"
  | .andNot => "&^"
  | .shiftLeft => "<<"
  | .shiftRight => ">>"

/-- Every operator once, from the weakest to the strongest. -/
def all : List Operator :=
  [.not, .orOr, .andAnd, .equal, .notEqual, .less, .lessEqual, .greater, .greaterEqual, .add, .sub,
    .or, .xor, .mul, .div, .rem, .and, .andNot, .shiftLeft, .shiftRight]

/-- The operator with the given spelling. -/
def ofSpelling? (text : String) : Option Operator :=
  all.find? (·.spelling = text)

/-- An operator is found by its spelling. -/
theorem ofSpelling?_spelling (op : Operator) : ofSpelling? op.spelling = some op := by
  cases op <;> decide

/-- No two operators are written alike. -/
theorem eq_of_spelling_eq {op op' : Operator} (h : op.spelling = op'.spelling) : op = op' := by
  have hfound := ofSpelling?_spelling op
  rw [h, ofSpelling?_spelling] at hfound
  exact (Option.some.inj hfound).symm

/-- Whether the operator may stand before its operand. -/
def isUnary : Operator → Bool
  | .mul | .add | .sub | .not => true
  | _ => false

end Operator

/-- The arithmetic that a program can define for its own types. -/
inductive Arithmetic where
  | add
  | sub
  | mul
  | div
  | mod
deriving DecidableEq, Repr, Inhabited

/-- The operator that computes with it. -/
def Arithmetic.operator : Arithmetic → Operator
  | .add => .add
  | .sub => .sub
  | .mul => .mul
  | .div => .div
  | .mod => .rem

/-- An operator computes with one arithmetic only. -/
theorem Arithmetic.eq_of_operator_eq {a b : Arithmetic} (h : a.operator = b.operator) : a = b := by
  cases a <;> cases b <;> first | rfl | cases h

/-- The word for it in an operator declaration. -/
def Arithmetic.word : Arithmetic → String
  | .add => "add"
  | .sub => "sub"
  | .mul => "mul"
  | .div => "div"
  | .mod => "mod"

/-- What an operator declaration defines: an arithmetic, for a left operand of the declared type or
(`reversed`) for a right one. -/
structure Overload where
  arithmetic : Arithmetic
  reversed : Bool
deriving DecidableEq, Repr, Inhabited

namespace Overload

/-- The declared name: the arithmetic's word, with an `r` in front for the reversed form. -/
def name (o : Overload) : String :=
  if o.reversed then "r" ++ o.arithmetic.word else o.arithmetic.word

/-- Every overload once. -/
def all : List Overload :=
  [false, true].flatMap fun reversed =>
    [Arithmetic.add, .sub, .mul, .div, .mod].map (⟨·, reversed⟩)

/-- The overload with the given name. -/
def ofName? (text : String) : Option Overload :=
  all.find? (·.name = text)

/-- The name of an overload stands for it. -/
theorem ofName?_name (o : Overload) : ofName? o.name = some o := by
  obtain ⟨a, r⟩ := o
  cases a <;> cases r <;> decide

end Overload

end FrontEnd
