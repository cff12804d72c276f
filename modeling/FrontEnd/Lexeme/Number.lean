import FrontEnd.CharStream
import FrontEnd.Token

/-!
# Numbers

An integer is a run of digits, or a zero and a letter for the notation and digits of that notation.
A floating-point number has a point, an exponent, or both, and is always decimal. Underscores may
stand anywhere among digits. In a notation below ten every decimal digit is taken along, so that
`0b12` is one malformed number and not two numbers.
-/

namespace FrontEnd

/-- The value of a decimal digit. -/
def decimalDigit? (c : Char) : Option Nat :=
  if c.isDigit then some (c.toNat - '0'.toNat) else none

/-- The value of a digit in base sixteen, in either case. -/
def hexDigit? (c : Char) : Option Nat :=
  if c.isDigit then some (c.toNat - '0'.toNat)
  else if 'a' ≤ c && c ≤ 'f' then some (c.toNat - 'a'.toNat + 10)
  else if 'A' ≤ c && c ≤ 'F' then some (c.toNat - 'A'.toNat + 10)
  else none

/-- The value of a character that is taken for a digit in the given notation. -/
def Radix.digit? (r : Radix) (c : Char) : Option Nat :=
  if r.base ≤ 10 then decimalDigit? c else hexDigit? c

/-- What a run of digits came to: their number, and the first that the notation does not have. -/
structure DigitRun where
  count : Nat
  stray? : Option Char
deriving DecidableEq, Repr, Inhabited

/-- The run with no digits. -/
def DigitRun.none : DigitRun := ⟨0, Option.none⟩

/-- The run with one more digit, of the given value. -/
def DigitRun.push (run : DigitRun) (radix : Radix) (c : Char) (value : Nat) : DigitRun :=
  ⟨run.count + 1,
    run.stray?.or (if radix.base ≤ value then some c else Option.none)⟩

/-- The kind of a literal and whether it is malformed. -/
structure LiteralShape where
  kind : LitKind
  bad : Bool
deriving DecidableEq, Repr, Inhabited

namespace CharStream

variable {ω : Type} [ByteWindow ω]

/-- Pass over digits and underscores. -/
def digits (radix : Radix) (run : DigitRun) (s : CharStream ω) : DigitRun × CharStream ω :=
  match _h : s.char? with
  | none => (run, s)
  | some c =>
    if c = '_' then digits radix run s.advance
    else
      match radix.digit? c with
      | none => (run, s)
      | some value => digits radix (run.push radix c value) s.advance
termination_by s.remaining
decreasing_by all_goals exact s.remaining_advance_lt (by rw [_h]; rfl)

/-- A run of digits, by its next character. -/
theorem digits_eq (radix : Radix) (run : DigitRun) (s : CharStream ω) :
    s.digits radix run =
      match s.char? with
      | none => (run, s)
      | some c =>
        if c = '_' then digits radix run s.advance
        else
          match radix.digit? c with
          | none => (run, s)
          | some value => digits radix (run.push radix c value) s.advance := by
  rw [digits.eq_def]
  split <;> next h => rw [h]

/-- Pass over an exponent, if one comes next, in a number of the given kind up to here that starts at
`start`. -/
def exponent (start : Place) (kind : LitKind) (s : CharStream ω) : LiteralShape × CharStream ω :=
  if s.char? = some 'e' ∨ s.char? = some 'E' then
    let s := s.advance
    let s := if s.char? = some '+' ∨ s.char? = some '-' then s.advance else s
    let (run, s) := s.digits .decimal .none
    if run.count = 0 then (⟨.float, true⟩, s.complainAt start .noExponentDigits)
    else (⟨.float, false⟩, s)
  else (⟨kind, false⟩, s)

/-- Pass over the rest of a number whose point has been passed. -/
def fraction (start : Place) (s : CharStream ω) : LiteralShape × CharStream ω :=
  (s.digits .decimal .none).2.exponent start .float

/-- Pass over a number in plain notation. -/
def decimal (start : Place) (s : CharStream ω) : LiteralShape × CharStream ω :=
  let s := (s.digits .decimal .none).2
  if s.char? = some '.' then s.advance.fraction start
  else s.exponent start .int

/-- Pass over the digits of an integer that is marked as being in the given notation. -/
def markedInteger (start : Place) (radix : Radix) (s : CharStream ω) :
    LiteralShape × CharStream ω :=
  let (run, s) := s.digits radix .none
  if run.count = 0 then (⟨.int, true⟩, s.complainAt start (.noDigits radix))
  else
    match run.stray? with
    | some c => (⟨.int, true⟩, s.complainAt start (.badDigit c radix))
    | none => (⟨.int, false⟩, s)

/-- Pass over a number that starts with the current digit. -/
def number (start : Place) (s : CharStream ω) : LiteralShape × CharStream ω :=
  if s.char? = some '0' then
    match s.advance.char?.bind Radix.ofLetter? with
    | some radix => s.advance.advance.markedInteger start radix
    -- Without such a letter the zero is a digit like any other.
    | none => s.advance.decimal start
  else s.decimal start

end CharStream

end FrontEnd
