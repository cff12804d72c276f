import FrontEnd.Bytes.Window
import FrontEnd.Position
import FrontEnd.Text.Quoted

/-!
# Lexical errors

What can be wrong with a source before its tokens form anything: bytes that are not text, a reader
that fails, characters that start no token, and literals and comments that are malformed. A
`LexError` is such a fault with its place. A `Report` is what a scanner has to tell besides its
tokens: an error, or a comment that may be a line directive, whose meaning is for the parser to find.
-/

namespace FrontEnd

/-- The notations for integers. -/
inductive Radix where
  | binary
  | octal
  | decimal
  | hexadecimal
deriving DecidableEq, Repr, Inhabited

namespace Radix

/-- The number of digits that the notation has. -/
def base : Radix → Nat
  | .binary => 2
  | .octal => 8
  | .decimal => 10
  | .hexadecimal => 16

/-- The notation in words. -/
def name : Radix → String
  | .binary => "binary"
  | .octal => "octal"
  | .decimal => "decimal"
  | .hexadecimal => "hexadecimal"

/-- The notation that a letter after a leading zero asks for. -/
def ofLetter? (c : Char) : Option Radix :=
  if c = 'x' || c = 'X' then some .hexadecimal
  else if c = 'o' || c = 'O' then some .octal
  else if c = 'b' || c = 'B' then some .binary
  else none

end Radix

/-- The numeric escapes in literals. -/
inductive NumericEscape where
  /-- three octal digits -/
  | octal
  /-- an `x` and two hexadecimal digits -/
  | hexadecimal
  /-- a `u` and four hexadecimal digits, or a `U` and eight -/
  | unicode
deriving DecidableEq, Repr, Inhabited

namespace NumericEscape

/-- The escape in words. -/
def name : NumericEscape → String
  | .octal => "octal"
  | .hexadecimal => "hexadecimal"
  | .unicode => "Unicode"

/-- The base of the escape's digits. -/
def base : NumericEscape → Nat
  | .octal => 8
  | .hexadecimal | .unicode => 16

/-- The largest value of the escape. -/
def largest : NumericEscape → Nat
  | .octal | .hexadecimal => 255
  | .unicode => 0x10ffff

/-- Whether the value may be written with the escape. A hexadecimal value must not be a surrogate. -/
def admits (e : NumericEscape) (value : Nat) : Bool :=
  value ≤ e.largest && !(e.base = 16 && 0xd800 ≤ value && value < 0xe000)

end NumericEscape

/-- What is wrong at some place of a source. -/
inductive LexFault where
  | nulCharacter
  | malformedText
  | strayByteOrderMark
  | reading (failure : ReadFailure)
  /-- a character that no token starts with -/
  | unexpectedCharacter (c : Char)
  | newlineInString
  | unterminatedString
  | unterminatedRawString
  | newlineInRune
  | unterminatedRune
  | emptyRune
  | crowdedRune
  | unknownEscape
  | badEscapeDigit (found : Char) (escape : NumericEscape)
  | escapeOutOfRange
  /-- a number in a marked notation that has no digits -/
  | noDigits (radix : Radix)
  | badDigit (digit : Char) (radix : Radix)
  | noExponentDigits
  | unterminatedComment
deriving DecidableEq, Repr, Inhabited

/-- The fault in words. -/
def LexFault.message : LexFault → String
  | .nulCharacter => "invalid NUL character"
  | .malformedText => "invalid UTF-8 encoding"
  | .strayByteOrderMark => "invalid BOM in the middle of the file"
  | .reading (.failed message) => "I/O error: " ++ message
  | .reading .noProgress => "I/O error: multiple Read calls return no data or error"
  | .unexpectedCharacter c =>
    "invalid character U+" ++ Quoted.upperHex c.toNat ++ " " ++ Quoted.char c
  | .newlineInString => "newline in string"
  | .unterminatedString => "string not terminated"
  | .unterminatedRawString => "raw string literal not terminated"
  | .newlineInRune => "newline in rune literal"
  | .unterminatedRune => "rune literal not terminated"
  | .emptyRune => "empty rune literal or unescaped ' in rune literal"
  | .crowdedRune => "more than one character in rune literal"
  | .unknownEscape => "unknown escape"
  | .badEscapeDigit found escape =>
    "invalid character " ++ Quoted.char found ++ " in " ++ escape.name ++ " escape"
  | .escapeOutOfRange => "escape is invalid Unicode code point"
  | .noDigits radix => radix.name ++ " literal has no digits"
  | .badDigit digit radix =>
    "invalid digit " ++ Quoted.char digit ++ " in " ++ radix.name ++ " literal"
  | .noExponentDigits => "exponent has no digits"
  | .unterminatedComment => "comment not terminated"

/-- A fault at its place. -/
structure LexError where
  fault : LexFault
  place : Place
deriving DecidableEq, Repr, Inhabited

/-- The error in words, with its place. -/
def LexError.display (e : LexError) : String :=
  s!"{e.fault.message} at line {e.place.line}, column {e.place.column}"

/-- What a scanner tells besides its tokens. -/
inductive Report where
  | error (e : LexError)
  /-- a comment that may be a line directive, with its markers -/
  | directive (place : Place) (text : String)
deriving DecidableEq, Repr, Inhabited

/-- The error in a report, if it is one. -/
def Report.error? : Report → Option LexError
  | .error e => some e
  | .directive .. => none

end FrontEnd
