import FrontEnd.Unicode.DefaultIgnorable
import FrontEnd.Unicode.GraphemeExtend
import FrontEnd.Unicode.Unprintable

/-!
# Characters in messages

A message shows a character between single quotes, in a form that can be read off the page: the
quote, the backslash and the common controls are escaped, and any other character that would not
show by itself is given by its code point. Everything else, double quotes included, stands for itself.
-/

namespace FrontEnd.Quoted

/-- The digits of a number in base sixteen, letters in lower case. -/
def hex (n : Nat) : String := String.ofList (Nat.toDigits 16 n)

/-- The digits of a number in base sixteen, letters in upper case, four at least. -/
def upperHex (n : Nat) : String :=
  let digits := (Nat.toDigits 16 n).map Char.toUpper
  String.ofList (List.replicate (4 - digits.length) '0' ++ digits)

/-- The halfwidth sound marks of katakana. They extend the character before them, but are letters
with a cell of their own. -/
def standaloneMarks : Unicode.Ranges := [(0xff9e, 0xff9f)]

/-- Whether the character would show only with the one before it. -/
def isJoining (c : Char) : Bool :=
  Unicode.graphemeExtend.has c && !standaloneMarks.has c

/-- Whether the character would not show, or would not show by itself. -/
def isHidden (c : Char) : Bool :=
  isJoining c || Unicode.defaultIgnorable.has c || Unicode.unprintable.has c

/-- A character as it stands between the quotes. -/
def escape (c : Char) : String :=
  match c with
  | '\x00' => "\\0"
  | '\t' => "\\t"
  | '\r' => "\\r"
  | '\n' => "\\n"
  | '\'' => "\\'"
  | '\\' => "\\\\"
  | c => if isHidden c then "\\u\x7b" ++ hex c.toNat ++ "\x7d" else String.singleton c

/-- A character between single quotes. -/
def char (c : Char) : String := "'" ++ escape c ++ "'"

end FrontEnd.Quoted
