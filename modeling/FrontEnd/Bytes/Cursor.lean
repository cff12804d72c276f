import FrontEnd.Bytes.Window

/-!
# Cursors

The plainest window: the whole byte string, an offset into it, and perhaps a mark.
-/

namespace FrontEnd

/-- An offset into a byte string that is there as a whole. -/
structure Cursor where
  bytes : ByteArray
  offset : Nat
  mark? : Option Nat
deriving Inhabited

namespace Cursor

/-- The cursor at the start of `bytes`. -/
def ofBytes (bytes : ByteArray) : Cursor := ⟨bytes, 0, none⟩

/-- What a character found in the bytes counts as. -/
def ofChar (c : Char) : Fetched := if c = '\x00' then .nul else .char c

/-- Decode the character at the offset and step over it, or over one byte if there is none. -/
def fetch (c : Cursor) : Fetched × Cursor :=
  if c.offset < c.bytes.size then
    match c.bytes.utf8DecodeChar? c.offset with
    | some ch => (ofChar ch, { c with offset := c.offset + ch.utf8Size })
    | none => (.malformed, { c with offset := c.offset + 1 })
  else (.finished none, c)

/-- The number of bytes after the offset. -/
def remaining (c : Cursor) : Nat := c.bytes.size - c.offset

/-- What is fetched was among what was to come. -/
theorem remaining_fetch_lt (c : Cursor) (h : c.fetch.1.found) :
    c.fetch.2.remaining < c.remaining := by
  unfold fetch at h ⊢
  split
  · split
    · next ch _ =>
      have := ch.utf8Size_pos
      simp only [remaining]
      omega
    · simp only [remaining]
      omega
  · simp_all [Fetched.found]

/-- Fetching brings nothing back. -/
theorem remaining_fetch_le (c : Cursor) : c.fetch.2.remaining ≤ c.remaining := by
  unfold fetch
  split
  · split <;> simp only [remaining] <;> omega
  · exact Nat.le_refl _

instance : ByteWindow Cursor where
  fetch := fetch
  setMark back c := { c with mark? := some (c.offset - back) }
  clearMark c := { c with mark? := none }
  marked back c :=
    match c.mark? with
    | some m => c.bytes.extract m (c.offset - back)
    | none => .empty
  sinceMark c := c.offset - c.mark?.getD c.offset
  rewind c := { c with offset := c.mark?.getD c.offset }
  remaining := remaining
  remaining_fetch_le := remaining_fetch_le
  remaining_fetch_lt := remaining_fetch_lt
  remaining_setMark _ _ := rfl
  remaining_clearMark _ := rfl

end Cursor

end FrontEnd
