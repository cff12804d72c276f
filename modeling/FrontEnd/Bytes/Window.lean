/-!
# Windows on a byte string

A scanner looks at a byte string through a window: it fetches one character after another, and may
set a mark to come back to or to cut the bytes since then out of. What stands behind the window, the
whole byte string or a small buffer that follows a reader, must not matter to it. `ByteWindow` is
that interface.

Its laws bound every loop over characters: a fetch that finds something leaves fewer bytes to come,
and nothing but a rewind brings any back.
-/

namespace FrontEnd

/-- Why the bytes ended before their end. -/
inductive ReadFailure where
  /-- the reader kept asking for patience -/
  | noProgress
  /-- the reader failed with this message -/
  | failed (message : String)
deriving DecidableEq, Repr, Inhabited

/-- What a fetch finds. -/
inductive Fetched where
  | char (c : Char)
  /-- a NUL byte, recognised for what it is -/
  | nul
  /-- one byte that does not start a well-formed character -/
  | malformed
  /-- no byte, because the input is at its end or because a failure has just become known -/
  | finished (failure? : Option ReadFailure)
deriving DecidableEq, Repr, Inhabited

/-- Whether a fetch passed over at least one byte. -/
def Fetched.found : Fetched → Bool
  | .char _ | .nul | .malformed => true
  | .finished _ => false

/-- A position in a byte string, from which characters are fetched in order. -/
class ByteWindow (ω : Type) where
  /-- decode the next character and step over it -/
  fetch : ω → Fetched × ω
  /-- set the mark `back` bytes before the position -/
  setMark : Nat → ω → ω
  /-- drop the mark -/
  clearMark : ω → ω
  /-- the bytes from the mark up to `back` bytes before the position, none without a mark -/
  marked : Nat → ω → ByteArray
  /-- the number of bytes from the mark to the position -/
  sinceMark : ω → Nat
  /-- move the position back to the mark -/
  rewind : ω → ω
  /-- the number of bytes after the position -/
  remaining : ω → Nat
  remaining_fetch_le : ∀ w, remaining (fetch w).2 ≤ remaining w
  remaining_fetch_lt : ∀ w, (fetch w).1.found → remaining (fetch w).2 < remaining w
  remaining_setMark : ∀ back w, remaining (setMark back w) = remaining w
  remaining_clearMark : ∀ w, remaining (clearMark w) = remaining w

end FrontEnd
