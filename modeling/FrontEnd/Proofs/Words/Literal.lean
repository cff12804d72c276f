import FrontEnd.Lexeme.Quoted

/-!
# How literals are written

The grammar of literals, by itself: it knows nothing of streams and of what a scanner does.

    int      = digit { digit | "_" } | "0" letter marked_digits .
    float    = digit { digit | "_" } "." { digit | "_" } [ exponent ]
             | "." digit { digit | "_" } [ exponent ]
             | digit { digit | "_" } exponent .
    exponent = ( "e" | "E" ) [ "+" | "-" ] exponent_digits .
    rune     = "'" item "'" .
    string   = '"' { item } '"' | "`" { any character but "`" } "`" .

The letter of a marked integer says which digits it has; among these and those of an exponent, underscores
may stand anywhere, but there is at least one digit. An item is an escape, or a character that is neither
the quote nor a backslash nor a newline.
-/

namespace FrontEnd

/-! ## Characters in a list

What holds of the characters in a list is tried out on these alone, also where all characters can be
enumerated. -/

section
variable {p : Char → Prop} [DecidablePred p]

instance (priority := 2000) decidableForallChars (cs : List Char) : Decidable (∀ c ∈ cs, p c) :=
  cs.decidableBAll p

instance (priority := 2000) decidableExistsChar (cs : List Char) : Decidable (∃ c ∈ cs, p c) :=
  cs.decidableBEx p

end

/-! ## Numbers -/

/-- Whether the character is a digit of the notation. -/
def Radix.isDigit (radix : Radix) (c : Char) : Bool := (hexDigit? c).any (· < radix.base)

/-- The characters are digits of the notation, with underscores among them. -/
def IsDigits (radix : Radix) (cs : List Char) : Prop := ∀ c ∈ cs, c = '_' ∨ radix.isDigit c

/-- There are digits of the notation, with underscores among them. -/
def HasDigits (radix : Radix) (cs : List Char) : Prop := IsDigits radix cs ∧ ∃ c ∈ cs, radix.isDigit c

instance (radix : Radix) (cs : List Char) : Decidable (IsDigits radix cs) :=
  inferInstanceAs (Decidable (∀ c ∈ cs, c = '_' ∨ radix.isDigit c))

instance (radix : Radix) (cs : List Char) : Decidable (HasDigits radix cs) :=
  inferInstanceAs (Decidable (IsDigits radix cs ∧ ∃ c ∈ cs, radix.isDigit c))

/-- The signs of an exponent, and none. -/
def exponentSigns : List (List Char) := [[], ['+'], ['-']]

/-- The characters are an exponent. -/
inductive IsExponent : List Char → Prop
  | mk {letter : Char} {sign cs : List Char} : letter = 'e' ∨ letter = 'E' → sign ∈ exponentSigns →
      HasDigits .decimal cs → IsExponent (letter :: (sign ++ cs))

/-- The characters are an integer. -/
inductive IsInt : List Char → Prop
  | plain {c : Char} {cs : List Char} : c.isDigit → IsDigits .decimal cs → IsInt (c :: cs)
  | marked {letter : Char} {radix : Radix} {cs : List Char} : Radix.ofLetter? letter = some radix →
      HasDigits radix cs → IsInt ('0' :: letter :: cs)

/-- The characters are a floating-point number. -/
inductive IsFloat : List Char → Prop
  | pointed {c : Char} {cs fraction exponent : List Char} : c.isDigit → IsDigits .decimal cs →
      IsDigits .decimal fraction → exponent = [] ∨ IsExponent exponent →
      IsFloat (c :: (cs ++ '.' :: (fraction ++ exponent)))
  | fraction {c : Char} {cs exponent : List Char} : c.isDigit → IsDigits .decimal cs →
      exponent = [] ∨ IsExponent exponent → IsFloat ('.' :: c :: (cs ++ exponent))
  | scaled {c : Char} {cs exponent : List Char} : c.isDigit → IsDigits .decimal cs → IsExponent exponent →
      IsFloat (c :: (cs ++ exponent))

/-! ## Escapes -/

/-- The number that some digits stand for after `value`. -/
def digitsValue (base : Nat) (value : Nat) (ds : List Char) : Nat :=
  ds.foldl (fun value d => value * base + (hexDigit? d).getD 0) value

/-- The characters are an escape, between the given quotes. -/
inductive IsEscape (quote : Char) : List Char → Prop
  | plain {c : Char} : c = quote ∨ c ∈ ['a', 'b', 'f', 'n', 'r', 't', 'v', '\\'] → IsEscape quote ['\\', c]
  | octal {ds : List Char} : ds.length = 3 → (∀ d ∈ ds, Radix.octal.isDigit d) →
      digitsValue 8 0 ds ≤ 255 → IsEscape quote ('\\' :: ds)
  | hexadecimal {ds : List Char} : ds.length = 2 → (∀ d ∈ ds, Radix.hexadecimal.isDigit d) →
      IsEscape quote ('\\' :: 'x' :: ds)
  | unicode {letter : Char} {ds : List Char} : letter = 'u' ∧ ds.length = 4 ∨ letter = 'U' ∧ ds.length = 8 →
      (∀ d ∈ ds, Radix.hexadecimal.isDigit d) → (digitsValue 16 0 ds).isValidChar →
      IsEscape quote ('\\' :: letter :: ds)

/-- The characters are what may stand between the given quotes for one character. -/
inductive IsItem (quote : Char) : List Char → Prop
  | char {c : Char} : c ≠ quote → c ≠ '\\' → c ≠ '\n' → IsItem quote [c]
  | escape {cs : List Char} : IsEscape quote cs → IsItem quote cs

/-! ## Literals -/

/-- The characters are a rune. -/
inductive IsRune : List Char → Prop
  | mk {item : List Char} : IsItem '\'' item → IsRune ('\'' :: (item ++ ['\'']))

/-- The characters are a string. -/
inductive IsString : List Char → Prop
  | items {items : List (List Char)} : (∀ item ∈ items, IsItem '"' item) →
      IsString ('"' :: (items.flatten ++ ['"']))
  | raw {cs : List Char} : '\x60' ∉ cs → IsString ('\x60' :: (cs ++ ['\x60']))

/-- The characters are a literal of the given kind. -/
def IsLiteral : LitKind → List Char → Prop
  | .int => IsInt
  | .float => IsFloat
  | .rune => IsRune
  | .string => IsString

end FrontEnd
