/-!
# UTF-8 at the edges of well-formed text

Well-formed text is decoded by the standard library. This module is about bytes that may not be text
at all, or not all of it yet. `announcedWidth` is what a leading byte promises. `settled` says of
some bytes, with more perhaps to come, whether the first character is decided: it is complete, or it
is beyond repair. `decodeLossy` reads any bytes as text and puts one replacement character for every
maximal run that begins a character and breaks off.
-/

namespace FrontEnd.Utf8

/-- The most bytes that one character takes. -/
def maxWidth : Nat := 4

/-- The character that stands for bytes that are not text. -/
def replacement : Char := '\uFFFD'

/-- The number of bytes in a character that starts with `lead`, zero if none does. -/
def announcedWidth (lead : UInt8) : Nat :=
  if lead < 0x80 then 1
  else if lead < 0xc2 then 0
  else if lead < 0xe0 then 2
  else if lead < 0xf0 then 3
  else if lead < 0xf5 then 4
  else 0

/-- Whether a byte may stand inside a character, after its first byte. -/
def isContinuation (b : UInt8) : Bool :=
  b &&& 0xc0 == 0x80

/-- Whether the first of `bytes` begin a complete character, or an error that no further byte could
repair. -/
def settled (bytes : ByteArray) : Bool :=
  match bytes.data.toList with
  | [] => false
  | lead :: tail =>
    announcedWidth lead = 0 || announcedWidth lead ≤ tail.length + 1 ||
      tail.any (!isContinuation ·)

/-- Whether `second` may follow `lead`: the leads at the ends of a range of code points leave out
the overlong forms, the surrogates and the values past the last code point. -/
def admitsSecond (lead second : UInt8) : Bool :=
  let low := if lead = 0xe0 then 0xa0 else if lead = 0xf0 then 0x90 else 0x80
  let high := if lead = 0xed then 0x9f else if lead = 0xf4 then 0x8f else 0xbf
  low ≤ second && second ≤ high

/-- The length of the longest run at `i` that begins a character, where no whole character stands:
one at least. -/
def brokenWidth (bytes : ByteArray) (i : Nat) : Nat :=
  let lead := bytes[i]?.getD 0
  let second := bytes[i + 1]?.getD 0
  let third := bytes[i + 2]?.getD 0
  if announcedWidth lead < 2 || !admitsSecond lead second then 1
  else if announcedWidth lead = 4 && isContinuation third then 3
  else 2

/-- What is no character takes a byte at least. -/
theorem brokenWidth_pos (bytes : ByteArray) (i : Nat) : 0 < brokenWidth bytes i := by
  unfold brokenWidth
  dsimp only
  split
  · exact Nat.one_pos
  · split <;> exact Nat.succ_pos _

/-- The characters of `bytes` from offset `i` on, with a replacement for every broken run. -/
def lossyChars (bytes : ByteArray) (i : Nat) : List Char :=
  if i < bytes.size then
    match bytes.utf8DecodeChar? i with
    | some c => c :: lossyChars bytes (i + c.utf8Size)
    | none => replacement :: lossyChars bytes (i + brokenWidth bytes i)
  else []
termination_by bytes.size - i
decreasing_by
  · have := c.utf8Size_pos
    omega
  · have := brokenWidth_pos bytes i
    omega

/-- All of `bytes` as text, with a replacement for every broken run. -/
def decodeLossy (bytes : ByteArray) : String :=
  String.ofList (lossyChars bytes 0)

end FrontEnd.Utf8
