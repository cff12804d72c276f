import FrontEnd.Bytes.Window
import FrontEnd.LexError
import FrontEnd.Text.Utf8

/-!
# Character streams

A `CharStream` is a byte window seen one character at a time. It holds the current character, none at
the end of the input, and knows its line and column, both counted from zero here. Bytes that are not
text, NUL bytes and byte order marks (but for one at the very start) are reported and passed over, so
they never become current; they count for the columns all the same.

Lines and columns are natural numbers. A program counts them in 32 bits, and these do not start over
as long as they can count the bytes of the reader, and one more (`Reader.fits_after`).

The stream can mark the current character and cut out the text since then, or go back to it. Going
back does not undo a change of line, so it is for stretches without a newline. On such a stretch the
column gets back to where it was, and never below (`column_add_sinceMark_le`).

Advancing from a character leaves less to come (`remaining_advance_lt`). Advancing at the end of the
input stays there, unless the end was a failure that the reader has recovered from.
-/

namespace FrontEnd

/-- A byte window seen one character at a time. -/
structure CharStream (ω : Type) where
  window : ω
  /-- the number of lines before the current character -/
  line : Nat
  /-- the number of bytes before the current character in its line -/
  column : Nat
  /-- the current character, none at the end -/
  char? : Option Char
  /-- the number of bytes of the current character -/
  width : Nat
  /-- what is to be told, oldest first -/
  reports : Array Report
deriving Inhabited

namespace CharStream

/-- The mark that a source may start with, to say that it is UTF-8. -/
def byteOrderMark : Char := '\uFEFF'

variable {ω : Type}

/-- The place of the current character. -/
def place (s : CharStream ω) : Place := ⟨s.line + 1, s.column + 1⟩

/-- The stream with one more thing to tell. -/
def report (s : CharStream ω) (r : Report) : CharStream ω :=
  { s with reports := s.reports.push r }

/-- Report a fault at the given place. -/
def complainAt (s : CharStream ω) (place : Place) (fault : LexFault) : CharStream ω :=
  s.report (.error ⟨fault, place⟩)

/-- Report a fault at the current character. -/
def complain (s : CharStream ω) (fault : LexFault) : CharStream ω :=
  s.complainAt s.place fault

/-- The stream with everything told. -/
def dropReports (s : CharStream ω) : CharStream ω :=
  { s with reports := #[] }

/-- Move the line and column past the current character. -/
def passChar (s : CharStream ω) : CharStream ω :=
  if s.char? = some '\n' then { s with line := s.line + 1, column := 0 }
  else { s with column := s.column + s.width }

/-- Whether what was fetched never becomes a current character. -/
def passedOver : Fetched → Bool
  | .char c => c = byteOrderMark
  | .nul | .malformed => true
  | .finished _ => false

/-- What is wrong with what was fetched next to the stream's last character. -/
def fault? (s : CharStream ω) : Fetched → Option LexFault
  | .char c =>
    if c = byteOrderMark && (0 < s.line || 0 < s.column) then some .strayByteOrderMark else none
  | .nul => some .nulCharacter
  | .malformed => some .malformedText
  | .finished failure? => failure?.map .reading

/-- The stream with a fetched character as its current one, and what is wrong with it reported. -/
def receive (s : CharStream ω) (fetched : Fetched × ω) : CharStream ω :=
  let received :=
    match fetched.1 with
    | .char c => { s with window := fetched.2, char? := some c, width := c.utf8Size }
    | .nul => { s with window := fetched.2, char? := some '\x00', width := 1 }
    | .malformed => { s with window := fetched.2, char? := some Utf8.replacement, width := 1 }
    | .finished _ => { s with window := fetched.2, char? := none, width := 0 }
  match s.fault? fetched.1 with
  | some fault => received.complain fault
  | none => received

/-- Counting a character does not fetch. -/
@[simp] theorem window_passChar (s : CharStream ω) : s.passChar.window = s.window := by
  unfold passChar
  split <;> rfl

/-- Counting a character tells nothing. -/
theorem reports_passChar (s : CharStream ω) : s.passChar.reports = s.reports := by
  unfold passChar
  split <;> rfl

/-- What is received comes with the window behind it. -/
@[simp] theorem window_receive (s : CharStream ω) (fetched : Fetched × ω) :
    (s.receive fetched).window = fetched.2 := by
  unfold receive
  rcases fetched with ⟨_ | _ | _ | _, _⟩ <;> dsimp only <;> split <;> rfl

/-- There is a current character exactly if the fetch found one. -/
@[simp] theorem isSome_char?_receive (s : CharStream ω) (fetched : Fetched × ω) :
    (s.receive fetched).char?.isSome = fetched.1.found := by
  unfold receive
  rcases fetched with ⟨_ | _ | _ | _, _⟩ <;> dsimp only <;> split <;> rfl

/-- What is passed over is something. -/
theorem found_of_passedOver {f : Fetched} (h : passedOver f) : f.found := by
  cases f <;> simp_all [passedOver, Fetched.found]

variable [ByteWindow ω]

/-- A bound on the number of characters to come, the current one included. -/
def remaining (s : CharStream ω) : Nat :=
  ByteWindow.remaining s.window + s.char?.isSome.toNat

/-- Fetch the next character that is one, passing over what is not. The line and column are those of
the next byte. -/
def seek (s : CharStream ω) : CharStream ω :=
  if passedOver (ByteWindow.fetch s.window).1 then
    -- What is passed over still moves the column on.
    seek (s.receive (ByteWindow.fetch s.window)).passChar
  else s.receive (ByteWindow.fetch s.window)
termination_by ByteWindow.remaining s.window
decreasing_by
  next h => simpa using ByteWindow.remaining_fetch_lt s.window (found_of_passedOver h)

/-- The stream at the first character of a window. -/
def ofWindow (window : ω) : CharStream ω :=
  seek { window, line := 0, column := 0, char? := none, width := 0, reports := #[] }

/-- Go to the next character. -/
def advance (s : CharStream ω) : CharStream ω := s.passChar.seek

/-- Mark the current character. -/
def setMark (s : CharStream ω) : CharStream ω :=
  { s with window := ByteWindow.setMark s.width s.window }

/-- Drop the mark. -/
def clearMark (s : CharStream ω) : CharStream ω :=
  { s with window := ByteWindow.clearMark s.window }

/-- The bytes from the mark up to the current character, none without a mark. -/
def marked (s : CharStream ω) : ByteArray :=
  ByteWindow.marked s.width s.window

/-- The bytes since the mark as text, without the NUL characters that were passed over. -/
def markedText (s : CharStream ω) : String :=
  String.ofList ((Utf8.lossyChars s.marked 0).filter (· ≠ '\x00'))

/-- Go back to the mark. There must be no newline since then. -/
def rewind (s : CharStream ω) : CharStream ω :=
  advance
    { s with
      window := ByteWindow.rewind s.window
      -- The bytes since the mark include the current character, whose width is not counted yet.
      column := s.column + s.width - ByteWindow.sinceMark s.window
      width := 0 }

/-! ## What remains -/

/-- A character that has been fetched was among those to come. -/
theorem remaining_receive_le (s : CharStream ω) :
    (s.receive (ByteWindow.fetch s.window)).remaining ≤ ByteWindow.remaining s.window := by
  simp only [remaining, window_receive, isSome_char?_receive]
  cases h : (ByteWindow.fetch s.window).1.found
  · exact ByteWindow.remaining_fetch_le s.window
  · exact ByteWindow.remaining_fetch_lt s.window h

/-- Fetching the next character leaves no more to come. -/
theorem remaining_seek_le (s : CharStream ω) :
    s.seek.remaining ≤ ByteWindow.remaining s.window := by
  fun_induction seek s with
  | case1 s h ih =>
    have := ByteWindow.remaining_fetch_le s.window
    rw [window_passChar, window_receive] at ih
    omega
  | case2 s h => exact s.remaining_receive_le

/-- Going on leaves no more to come, also at the end. -/
theorem remaining_advance_le (s : CharStream ω) : s.advance.remaining ≤ s.remaining := by
  have := s.passChar.remaining_seek_le
  rw [window_passChar] at this
  exact Nat.le_trans this (Nat.le_add_right ..)

/-- Advancing from a character leaves less to come. -/
theorem remaining_advance_lt (s : CharStream ω) (h : s.char?.isSome) :
    s.advance.remaining < s.remaining := by
  have := s.passChar.remaining_seek_le
  rw [window_passChar] at this
  simp only [advance, remaining, h, Bool.toNat_true] at this ⊢
  omega

/-- A complaint takes no character. -/
@[simp] theorem remaining_complainAt (s : CharStream ω) (place : Place) (fault : LexFault) :
    (s.complainAt place fault).remaining = s.remaining := rfl

/-- A complaint at the current character takes none. -/
@[simp] theorem remaining_complain (s : CharStream ω) (fault : LexFault) :
    (s.complain fault).remaining = s.remaining := rfl

/-- A report takes no character. -/
@[simp] theorem remaining_report (s : CharStream ω) (r : Report) :
    (s.report r).remaining = s.remaining := rfl

/-- Setting the mark takes no character. -/
@[simp] theorem remaining_setMark (s : CharStream ω) : s.setMark.remaining = s.remaining := by
  simp [setMark, remaining, ByteWindow.remaining_setMark]

/-- Dropping the mark takes no character. -/
@[simp] theorem remaining_clearMark (s : CharStream ω) : s.clearMark.remaining = s.remaining := by
  simp [clearMark, remaining, ByteWindow.remaining_clearMark]

/-! ## Runs of characters -/

/-- Go to the first character that is not in `p`. -/
def skipWhile (p : Char → Bool) (s : CharStream ω) : CharStream ω :=
  if s.char?.any p then skipWhile p s.advance else s
termination_by s.remaining
decreasing_by
  next h => exact s.remaining_advance_lt (Option.isSome_of_any h)

/-- Skipping leaves no more to come. -/
theorem remaining_skipWhile_le (p : Char → Bool) (s : CharStream ω) :
    (s.skipWhile p).remaining ≤ s.remaining := by
  fun_induction skipWhile p s with
  | case1 s _ ih => exact Nat.le_trans ih s.remaining_advance_le
  | case2 => exact Nat.le_refl _

/-- Pass over `word` as far as it comes next; whether all of it did. -/
def accept : List Char → CharStream ω → Bool × CharStream ω
  | [], s => (true, s)
  | c :: word, s => if s.char? = some c then accept word s.advance else (false, s)

/-- Passing over a word leaves no more to come. -/
theorem remaining_accept_le (word : List Char) (s : CharStream ω) :
    (accept word s).2.remaining ≤ s.remaining := by
  induction word generalizing s with
  | nil => exact Nat.le_refl _
  | cons c word ih =>
    unfold accept
    split
    · exact Nat.le_trans (ih _) s.remaining_advance_le
    · exact Nat.le_refl _

end CharStream

end FrontEnd
