import FrontEnd.CharStream
import FrontEnd.Lexeme.Number

/-!
# Strings and runes

A string stands between double quotes on one line and may hold escapes; a raw string stands between
backquotes, on any number of lines, and holds what it holds. A rune is one character or escape
between single quotes. A fault in an escape is reported where it is and the literal goes on after it;
the faults of a whole literal are reported at its start. Where the end of the input cuts an escape
short, the literal around it is the fault, and the escape is not reported.
-/

namespace FrontEnd

/-- Whether the character after a backslash is the whole escape, between the given quotes. -/
def isPlainEscape (quote c : Char) : Bool :=
  c = quote || ['a', 'b', 'f', 'n', 'r', 't', 'v', '\\'].contains c

/-- The digit of a numeric escape. -/
def NumericEscape.digit? (e : NumericEscape) (c : Char) : Option Nat :=
  (hexDigit? c).filter (· < e.base)

namespace CharStream

variable {ω : Type} [ByteWindow ω]

/-- Pass over `n` more digits of an escape that has come to `value` so far; whether nothing is wrong
with it. -/
def escapeDigits (e : NumericEscape) : Nat → Nat → CharStream ω → Bool × CharStream ω
  | 0, value, s => if e.admits value then (true, s) else (false, s.complain .escapeOutOfRange)
  | n + 1, value, s =>
    match s.char? with
    -- The literal itself will report that the input has ended.
    | none => (true, s)
    | some c =>
      match e.digit? c with
      | none => (false, s.complain (.badEscapeDigit c e))
      | some d => escapeDigits e n (value * e.base + d) s.advance

/-- Pass over an escape whose backslash has been passed; whether nothing is wrong with it. -/
def escape (quote : Char) (s : CharStream ω) : Bool × CharStream ω :=
  match s.char? with
  | none => (true, s)
  | some c =>
    if isPlainEscape quote c then (true, s.advance)
    else if '0' ≤ c && c ≤ '7' then s.escapeDigits .octal 3 0
    else if c = 'x' then s.advance.escapeDigits .hexadecimal 2 0
    else if c = 'u' then s.advance.escapeDigits .unicode 4 0
    else if c = 'U' then s.advance.escapeDigits .unicode 8 0
    else (false, s.complain .unknownEscape)

/-- At the end of the input there is nothing to escape. -/
theorem escape_of_end (quote : Char) {s : CharStream ω} (h : s.char? = none) : s.escape quote = (true, s) := by
  unfold escape
  rw [h]

variable (ω) in
/-- What an escape is goes by its first character: this alone, digits from it on, digits behind it, or
nothing that is known. -/
theorem escape_cases (quote c : Char) :
    (∀ s : CharStream ω, s.char? = some c → s.escape quote = (true, s.advance)) ∨
    (∃ e n, ∀ s : CharStream ω, s.char? = some c → s.escape quote = s.escapeDigits e n 0) ∨
    (∃ e n, ∀ s : CharStream ω, s.char? = some c → s.escape quote = s.advance.escapeDigits e n 0) ∨
    ∀ s : CharStream ω, s.char? = some c → s.escape quote = (false, s.complain .unknownEscape) := by
  -- The alternatives say which way `escape` goes for every stream standing at `c`, so each test on `c` is
  -- settled before a stream is named.
  by_cases hplain : isPlainEscape quote c
  · refine .inl fun s hs => ?_
    rw [escape, hs]
    exact if_pos hplain
  by_cases hoctal : '0' ≤ c && c ≤ '7'
  · refine .inr (.inl ⟨.octal, 3, fun s hs => ?_⟩)
    rw [escape, hs]
    exact (if_neg hplain).trans (if_pos hoctal)
  by_cases hx : c = 'x'
  · refine .inr (.inr (.inl ⟨.hexadecimal, 2, fun s hs => ?_⟩))
    rw [escape, hs]
    exact (if_neg hplain).trans ((if_neg hoctal).trans (if_pos hx))
  by_cases hu : c = 'u'
  · refine .inr (.inr (.inl ⟨.unicode, 4, fun s hs => ?_⟩))
    rw [escape, hs]
    exact (if_neg hplain).trans ((if_neg hoctal).trans ((if_neg hx).trans (if_pos hu)))
  by_cases hU : c = 'U'
  · refine .inr (.inr (.inl ⟨.unicode, 8, fun s hs => ?_⟩))
    rw [escape, hs]
    exact (if_neg hplain).trans ((if_neg hoctal).trans ((if_neg hx).trans ((if_neg hu).trans (if_pos hU))))
  · refine .inr (.inr (.inr fun s hs => ?_))
    rw [escape, hs]
    exact (if_neg hplain).trans ((if_neg hoctal).trans ((if_neg hx).trans ((if_neg hu).trans (if_neg hU))))

/-- The digits of an escape bring nothing back. -/
theorem remaining_escapeDigits_le (e : NumericEscape) (n value : Nat) (s : CharStream ω) :
    (escapeDigits e n value s).2.remaining ≤ s.remaining := by
  induction n generalizing value s with
  | zero =>
    unfold escapeDigits
    split <;> exact Nat.le_refl _
  | succ n ih =>
    unfold escapeDigits
    split
    · exact Nat.le_refl _
    · split
      · exact Nat.le_refl _
      · exact Nat.le_trans (ih _ _) s.remaining_advance_le

/-- An escape brings nothing back. -/
theorem remaining_escape_le (quote : Char) (s : CharStream ω) :
    (s.escape quote).2.remaining ≤ s.remaining := by
  have hs := s.remaining_advance_le
  cases hc : s.char? with
  | none => exact Nat.le_of_eq (by rw [escape_of_end quote hc])
  | some c =>
    rcases escape_cases ω quote c with hplain | ⟨e, n, hdigits⟩ | ⟨e, n, hdigits⟩ | hunknown
    · rw [hplain s hc]
      exact hs
    · rw [hdigits s hc]
      exact remaining_escapeDigits_le ..
    · rw [hdigits s hc]
      exact Nat.le_trans (remaining_escapeDigits_le ..) hs
    · rw [hunknown s hc]
      exact Nat.le_refl _

/-- An escape and the backslash before it are passed over. -/
theorem remaining_escape_advance_lt (s : CharStream ω) (quote : Char) (h : s.char?.isSome) :
    (s.advance.escape quote).2.remaining < s.remaining :=
  Nat.lt_of_le_of_lt (remaining_escape_le ..) (s.remaining_advance_lt h)

/-- Pass over the rest of a string that starts at `start`, and was fine up to here or not; whether
it is fine altogether. -/
def stringRest (start : Place) (fine : Bool) (s : CharStream ω) : Bool × CharStream ω :=
  match _h : s.char? with
  | none => (false, s.complainAt start .unterminatedString)
  | some c =>
    if c = '"' then (fine, s.advance)
    else if c = '\\' then
      let escaped := s.advance.escape '"'
      stringRest start (fine && escaped.1) escaped.2
    else if c = '\n' then (false, s.complainAt start .newlineInString)
    else stringRest start fine s.advance
termination_by s.remaining
decreasing_by
  · exact s.remaining_escape_advance_lt _ (by rw [_h]; rfl)
  · exact s.remaining_advance_lt (by rw [_h]; rfl)

/-- The rest of a string, by its next character. -/
theorem stringRest_eq (start : Place) (fine : Bool) (s : CharStream ω) :
    s.stringRest start fine =
      match s.char? with
      | none => (false, s.complainAt start .unterminatedString)
      | some c =>
        if c = '"' then (fine, s.advance)
        else if c = '\\' then
          let escaped := s.advance.escape '"'
          stringRest start (fine && escaped.1) escaped.2
        else if c = '\n' then (false, s.complainAt start .newlineInString)
        else stringRest start fine s.advance := by
  rw [stringRest.eq_def]
  split <;> next h => rw [h]

/-- Pass over the rest of a raw string that starts at `start`; whether it is fine. -/
def rawStringRest (start : Place) (s : CharStream ω) : Bool × CharStream ω :=
  let s := s.skipWhile (· ≠ '\x60')
  if s.char?.isSome then (true, s.advance) else (false, s.complainAt start .unterminatedRawString)

/-- Report a fault of a whole rune, unless something was wrong with it before. -/
def complainOnce (start : Place) (fine : Bool) (fault : LexFault) (s : CharStream ω) :
    CharStream ω :=
  if fine then s.complainAt start fault else s

/-- Pass over the rest of a rune that starts at `start`, has `n` characters so far and was fine up to
here or not; whether it is fine altogether. -/
def runeRest (start : Place) (fine : Bool) (n : Nat) (s : CharStream ω) : Bool × CharStream ω :=
  match _h : s.char? with
  | none => (false, s.complainOnce start fine .unterminatedRune)
  | some c =>
    if c = '\'' then
      if n = 1 then (fine, s.advance)
      else if n = 0 then (false, (s.complainOnce start fine .emptyRune).advance)
      else (false, (s.complainOnce start fine .crowdedRune).advance)
    else if c = '\\' then
      let escaped := s.advance.escape '\''
      runeRest start (fine && escaped.1) (n + 1) escaped.2
    else if c = '\n' then (false, s.complainOnce start fine .newlineInRune)
    else runeRest start fine (n + 1) s.advance
termination_by s.remaining
decreasing_by
  · exact s.remaining_escape_advance_lt _ (by rw [_h]; rfl)
  · exact s.remaining_advance_lt (by rw [_h]; rfl)

/-- The rest of a rune, by its next character. -/
theorem runeRest_eq (start : Place) (fine : Bool) (n : Nat) (s : CharStream ω) :
    s.runeRest start fine n =
      match s.char? with
      | none => (false, s.complainOnce start fine .unterminatedRune)
      | some c =>
        if c = '\'' then
          if n = 1 then (fine, s.advance)
          else if n = 0 then (false, (s.complainOnce start fine .emptyRune).advance)
          else (false, (s.complainOnce start fine .crowdedRune).advance)
        else if c = '\\' then
          let escaped := s.advance.escape '\''
          runeRest start (fine && escaped.1) (n + 1) escaped.2
        else if c = '\n' then (false, s.complainOnce start fine .newlineInRune)
        else runeRest start fine (n + 1) s.advance := by
  rw [runeRest.eq_def]
  split <;> next h => rw [h]

end CharStream

end FrontEnd
