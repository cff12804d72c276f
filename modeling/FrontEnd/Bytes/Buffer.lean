import FrontEnd.Bytes.Growth
import FrontEnd.Bytes.Reader
import FrontEnd.Bytes.Window
import FrontEnd.Text.Utf8

/-!
# Buffers

A `Buffer` is a window on what a reader delivers. It holds a stretch of the bytes in its cells, with
room for more up to its capacity:

    | ... | marked ... | next ... | sentinel | free ... |
            mark?        next       stop                 capacity

When the bytes after `next` do not settle the next character, the buffer is filled: whatever is
still needed, from the mark or else from `next` on, moves to the front, the capacity grows if that
takes up more than half of it, and the reader is asked for as much as fits behind. The byte at `stop`
is a sentinel that no character starts with, so that a plain look at the cell at `next` is enough to
recognise a character of one byte, and a NUL among them. When that look does not settle it, the bytes
after `next` are decoded; a NUL that the buffer had to be filled for is then decoded as a character
like any other.

A request may have to be repeated; ten in a row without an answer count as a failure. A failure, like
the end of the input, stays pending until the bytes before it are used up. The end of the input then
stays; a failure is told once, and the next fetch asks the reader again.
-/

namespace FrontEnd

/-- What is known to come after the bytes in a buffer. -/
inductive Pending where
  | endOfInput
  | failure (f : ReadFailure)
deriving DecidableEq, Repr, Inhabited

/-- A stretch of the bytes that a reader delivers. -/
structure Buffer where
  reader : Reader
  /-- the cells in use, the last of them with the sentinel -/
  cells : ByteArray
  /-- the number of all cells -/
  capacity : Nat
  pending? : Option Pending
  mark? : Option Nat
  next : Nat
  stop : Nat
deriving Inhabited

namespace Buffer

/-- The byte that ends the bytes in use. It never starts a character. -/
def sentinel : UInt8 := 0x80

/-- The number of requests for one filling. -/
def requestsPerFill : Nat := 10

/-- The buffer that has asked its reader for nothing yet. -/
def ofReader (reader : Reader) : Buffer where
  reader
  cells := ByteArray.empty.push sentinel
  capacity := Growth.nextSize 0
  pending? := none
  mark? := none
  next := 0
  stop := 0

/-- Ask for up to `space` bytes until there is an answer, `n` times at most. -/
def request (space : Nat) : Nat → Reader → ReadAnswer × Reader
  | 0, r => (.stalled, r)
  | n + 1, r =>
    match r.read space with
    | (.stalled, r) => request space n r
    | (.delivered bytes, r) => (.delivered bytes, r)
    | (.failed message, r) => (.failed message, r)

/-- The bytes that an answer brings. -/
def answerData : ReadAnswer → ByteArray
  | .delivered bytes => bytes
  | _ => .empty

/-- What an answer tells about the input after its bytes. -/
def answerPending? : ReadAnswer → Option Pending
  | .delivered bytes => if bytes.size = 0 then some .endOfInput else none
  | .stalled => some (.failure .noProgress)
  | .failed message => some (.failure (.failed message))

/-- Where the bytes start that a filling has to keep. -/
def keepFrom (b : Buffer) : Nat := b.mark?.getD b.next

/-- The capacity of a buffer that has to keep some bytes. -/
def roomFor (b : Buffer) (kept : Nat) : Nat :=
  if 2 * kept > b.capacity then Growth.nextSize b.capacity else b.capacity

/-- Move what is needed to the front and ask the reader for more, which must leave a cell for the
sentinel. -/
def fill (b : Buffer) : Buffer :=
  let kept := b.cells.extract b.keepFrom b.stop
  let capacity := b.roomFor kept.size
  -- One cell is for the sentinel. The bytes that are kept fill at most half of the capacity, or it
  -- has just grown, so there is always some space to ask for.
  let (answer, reader) := request (capacity - 1 - kept.size) requestsPerFill b.reader
  let inUse := kept ++ answerData answer
  { reader
    cells := inUse.push sentinel
    capacity
    pending? := answerPending? answer
    mark? := b.mark?.map fun _ => 0
    next := b.next - b.keepFrom
    stop := inUse.size }

/-- The number of bytes after `next`, in the cells and still with the reader. -/
def remaining (b : Buffer) : Nat := b.stop - b.next + b.reader.bytesLeft

/-- What a request brings and what is left make up what there was. -/
theorem bytesLeft_request (space n : Nat) (r : Reader) :
    (answerData (request space n r).1).size + (request space n r).2.bytesLeft = r.bytesLeft := by
  induction n generalizing r with
  | zero => simp [request, answerData]
  | succ n ih =>
    have hsum : Reader.answerBytes (r.read space).1 + (r.read space).2.bytesLeft = r.bytesLeft :=
      Reader.totalBytes_answer r.limit? r.ending space r.events
    unfold request
    split
    · next h =>
      rw [h] at hsum
      rw [ih, ← hsum]
      exact (Nat.zero_add _).symm
    · next h =>
      rw [h] at hsum
      exact hsum
    · next h =>
      rw [h] at hsum
      exact hsum

/-- A refill brings nothing back. -/
theorem remaining_fill_le (b : Buffer) : b.fill.remaining ≤ b.remaining := by
  have := bytesLeft_request
    (b.roomFor (b.cells.extract b.keepFrom b.stop).size - 1 -
      (b.cells.extract b.keepFrom b.stop).size) requestsPerFill b.reader
  simp only [fill, remaining, ByteArray.size_append, ByteArray.size_extract] at this ⊢
  omega

/-- Whether the next character cannot be told yet but may be after a filling. -/
def wantsMore (b : Buffer) : Bool :=
  b.stop - b.next < Utf8.maxWidth && !Utf8.settled (b.cells.extract b.next b.stop) &&
    b.pending?.isNone

/-- A filling either brings bytes or learns what comes after them. -/
theorem bytesLeft_fill_lt (b : Buffer) (h : b.fill.pending? = none) :
    b.fill.reader.bytesLeft < b.reader.bytesLeft := by
  have hr := bytesLeft_request
    (b.roomFor (b.cells.extract b.keepFrom b.stop).size - 1 -
      (b.cells.extract b.keepFrom b.stop).size) requestsPerFill b.reader
  simp only [fill] at h ⊢
  revert h hr
  generalize request _ requestsPerFill b.reader = a
  intro h hr
  obtain ⟨answer, reader⟩ := a
  cases answer with
  | delivered bytes =>
    simp only [answerPending?, answerData] at h hr
    split at h
    · simp at h
    · simp only
      omega
  | stalled => simp [answerPending?] at h
  | failed message => simp [answerPending?] at h

/-- A refill may take bytes from the reader, and gives none to it. -/
theorem bytesLeft_fill_le (b : Buffer) : b.fill.reader.bytesLeft ≤ b.reader.bytesLeft := by
  have := bytesLeft_request
    (b.roomFor (b.cells.extract b.keepFrom b.stop).size - 1 -
      (b.cells.extract b.keepFrom b.stop).size) requestsPerFill b.reader
  simp only [fill]
  omega

/-- Fill the buffer until the next character can be told. -/
def replenish (b : Buffer) : Buffer :=
  if b.wantsMore then replenish b.fill else b
termination_by b.reader.bytesLeft + if b.pending?.isNone then 1 else 0
decreasing_by
  next h =>
  have hp : b.pending? = none := by
    simp only [wantsMore, Bool.and_eq_true, Option.isNone_iff_eq_none] at h
    exact h.2
  have hle := b.bytesLeft_fill_le
  by_cases hf : b.fill.pending? = none
  · have := b.bytesLeft_fill_lt hf
    simp only [hp, hf]
    omega
  · have hn : ¬ b.fill.pending?.isNone := by rwa [Option.isNone_iff_eq_none]
    rw [if_neg hn, hp]
    simp only [Option.isNone_none, if_true]
    omega

/-- Having enough bytes for a character brings nothing back. -/
theorem remaining_replenish_le (b : Buffer) : b.replenish.remaining ≤ b.remaining := by
  fun_induction replenish b with
  | case1 b _ ih => exact Nat.le_trans ih b.remaining_fill_le
  | case2 b _ => exact Nat.le_refl _

/-- What a byte says by itself if it is below the sentinel. -/
def ofByte (x : UInt8) : Fetched := if x = 0 then .nul else .char (Char.ofUInt8 x)

/-- The character of one byte at `next`, if that is what stands there. -/
def plain? (b : Buffer) : Option Fetched :=
  if b.next < b.stop then
    match b.cells[b.next]? with
    | some x => if x < sentinel then some (ofByte x) else none
    | none => none
  else none

/-- Decode the next character of a buffer that needs no filling, and step over it. -/
def take (b : Buffer) : Fetched × Buffer :=
  if b.next < b.stop then
    match (b.cells.extract b.next (min (b.next + Utf8.maxWidth) b.stop)).utf8DecodeChar? 0 with
    | some c => (.char c, { b with next := b.next + c.utf8Size })
    | none => (.malformed, { b with next := b.next + 1 })
  else
    match b.pending? with
    -- A failure is told once and then forgotten; the end of the input stays.
    | some (.failure f) => (.finished (some f), { b with pending? := none })
    | _ => (.finished none, b)

/-- Decode the next character and step over it, filling the buffer as far as that takes. -/
def fetch (b : Buffer) : Fetched × Buffer :=
  match b.plain? with
  -- Only this look tells a NUL from a character; `take` does not.
  | some found => (found, { b with next := b.next + 1 })
  | none => b.replenish.take

/-- What is taken without decoding is in the buffer. -/
theorem lt_stop_of_plain? {b : Buffer} {found : Fetched} (h : b.plain? = some found) :
    b.next < b.stop := by
  unfold plain? at h
  split at h
  · assumption
  · simp at h

/-- What is taken was among what was to come. -/
theorem remaining_take_lt (b : Buffer) (h : b.take.1.found) : b.take.2.remaining < b.remaining := by
  unfold take at h ⊢
  split
  · split
    · next c _ =>
      have := c.utf8Size_pos
      simp only [remaining]
      omega
    · simp only [remaining]
      omega
  · split <;> simp_all [Fetched.found]

/-- Taking brings nothing back. -/
theorem remaining_take_le (b : Buffer) : b.take.2.remaining ≤ b.remaining := by
  unfold take
  split
  · split <;> simp only [remaining] <;> omega
  · split <;> exact Nat.le_refl _

/-- What is fetched was among what was to come. -/
theorem remaining_fetch_lt (b : Buffer) (h : b.fetch.1.found) :
    b.fetch.2.remaining < b.remaining := by
  unfold fetch at h ⊢
  split
  · next c hc =>
    have := lt_stop_of_plain? hc
    simp only [remaining]
    omega
  · next hc =>
    rw [hc] at h
    exact Nat.lt_of_lt_of_le (remaining_take_lt _ h) b.remaining_replenish_le

/-- Fetching brings nothing back. -/
theorem remaining_fetch_le (b : Buffer) : b.fetch.2.remaining ≤ b.remaining := by
  unfold fetch
  split
  · simp only [remaining]
    omega
  · exact Nat.le_trans (remaining_take_le _) b.remaining_replenish_le

instance : ByteWindow Buffer where
  fetch := fetch
  setMark back b := { b with mark? := some (b.next - back) }
  clearMark b := { b with mark? := none }
  marked back b :=
    match b.mark? with
    | some m => b.cells.extract m (b.next - back)
    | none => .empty
  sinceMark b := b.next - b.mark?.getD b.next
  rewind b := { b with next := b.mark?.getD b.next }
  remaining := remaining
  remaining_fetch_le := remaining_fetch_le
  remaining_fetch_lt := remaining_fetch_lt
  remaining_setMark _ _ := rfl
  remaining_clearMark _ := rfl

end Buffer

end FrontEnd
