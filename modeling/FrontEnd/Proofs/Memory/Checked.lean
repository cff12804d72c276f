import FrontEnd.CharStream
import FrontEnd.Bytes.Buffer

/-!
# A buffer in memory

A `Buffer` keeps the bytes in use; a `Memory` has all the cells of the array that they stand in, with
whatever is left in the others. Its operations are those of a buffer, and of the character stream on top
of it, one access after another: an element, a slice, a difference of offsets. Every access is checked. An
operation comes to nothing (`none`) where one of them is out of range, where there is no mark to go back
to, where a filling has no cell to offer to the reader or does not do what it owes (`Memory.Filled`), and
where a loop would go on without having used anything up.
-/

namespace FrontEnd

/-- A difference that must not be negative. -/
def minus? (m n : Nat) : Option Nat := if n ≤ m then some (m - n) else none

/-- The cells from `i` up to `j`, which must be there. -/
def slice? (cells : ByteArray) (i j : Nat) : Option ByteArray :=
  if i ≤ j ∧ j ≤ cells.size then some (cells.extract i j) else none

/-- The cells with some bytes put over those from `i` on, which must be there. -/
def overwrite? (cells : ByteArray) (i : Nat) (bytes : ByteArray) : Option ByteArray :=
  if i + bytes.size ≤ cells.size then
    some (cells.extract 0 i ++ (bytes ++ cells.extract (i + bytes.size) cells.size))
  else none

/-- The cells with some bytes put from `i` on, and the sentinel behind them. -/
def stored? (cells : ByteArray) (i : Nat) (data : ByteArray) : Option ByteArray := do
  let cells ← overwrite? cells i data
  overwrite? cells (i + data.size) (ByteArray.empty.push Buffer.sentinel)

/-- New cells. -/
def zeros (n : Nat) : ByteArray := ⟨Array.replicate n 0⟩

/-- A stretch of the bytes that a reader delivers, in the cells of an array. -/
structure Memory where
  reader : Reader
  /-- all cells, those not in use with what was there before -/
  cells : ByteArray
  pending? : Option Pending
  mark? : Option Nat
  next : Nat
  stop : Nat

namespace Memory

/-- The memory of a buffer that has asked its reader for nothing yet. -/
def ofReader (reader : Reader) : Memory where
  reader
  cells := ByteArray.empty.push Buffer.sentinel ++ zeros (Growth.nextSize 0 - 1)
  pending? := none
  mark? := none
  next := 0
  stop := 0

/-- Where the bytes start that a filling has to keep. -/
def keepFrom (m : Memory) : Nat := m.mark?.getD m.next

/-- What a filling owes: the bytes that are kept are where they were, seen from the mark and the
position; and there are more bytes or it is known what comes after them. -/
structure Filled (m m' : Memory) : Prop where
  kept : m'.cells.extract 0 (m.stop - m.keepFrom) = m.cells.extract m.keepFrom m.stop
  mark?_eq : m'.mark? = m.mark?.map fun _ => 0
  next_eq : m'.next + m.keepFrom = m.next
  gained : m.stop - m.keepFrom < m'.stop ∨ m'.pending?.isSome

instance (m m' : Memory) : Decidable (m.Filled m') :=
  decidable_of_iff
    ((m'.cells.extract 0 (m.stop - m.keepFrom)).data = (m.cells.extract m.keepFrom m.stop).data ∧
      m'.mark? = m.mark?.map (fun _ => 0) ∧ m'.next + m.keepFrom = m.next ∧
      (m.stop - m.keepFrom < m'.stop ∨ m'.pending?.isSome))
    ⟨fun ⟨h₁, h₂, h₃, h₄⟩ => ⟨ByteArray.ext h₁, h₂, h₃, h₄⟩,
      fun h => ⟨congrArg ByteArray.data h.kept, h.mark?_eq, h.next_eq, h.gained⟩⟩

/-- The cells with what is needed moved to the front, those of a larger array if it takes up more than
half of them. -/
def moved? (m : Memory) : Option ByteArray := do
  let size ← minus? m.stop m.keepFrom
  let kept ← slice? m.cells m.keepFrom m.stop
  if size * 2 > m.cells.size then overwrite? (zeros (Growth.nextSize m.cells.size)) 0 kept
  else if 0 < m.keepFrom then overwrite? m.cells 0 kept
  else return m.cells

/-- Move what is needed to the front and ask the reader for as much as fits before the last cell. -/
def fill? (m : Memory) : Option Memory := do
  let cells ← m.moved?
  let next ← minus? m.next m.keepFrom
  let stop ← minus? m.stop m.keepFrom
  let last ← minus? cells.size 1
  let space ← minus? last stop
  guard (0 < space)
  let (answer, reader) := Buffer.request space Buffer.requestsPerFill m.reader
  let data := Buffer.answerData answer
  guard (data.size ≤ space)
  let cells ← stored? cells stop data
  return {
    reader
    cells
    pending? := (Buffer.answerPending? answer).or m.pending?
    mark? := m.mark?.map fun _ => 0
    next
    stop := stop + data.size }

/-- Whether the next character cannot be told yet but may be after a filling. -/
def wantsMore? (m : Memory) : Option Bool := do
  let ahead ← minus? m.stop m.next
  if ahead < Utf8.maxWidth then
    let bytes ← slice? m.cells m.next m.stop
    return !Utf8.settled bytes && m.pending?.isNone
  else return false

/-- How much more a filling may bring: bytes, and what comes after them. -/
def outstanding (m : Memory) : Nat := m.reader.bytesLeft + m.pending?.isNone.toNat

/-- The number of bytes after `next`, in the cells and still with the reader. -/
def remaining (m : Memory) : Nat := m.stop - m.next + m.reader.bytesLeft

/-- Fill the buffer until the next character can be told. -/
def replenish? (m : Memory) : Option Memory := do
  if ← m.wantsMore? then
    let m' ← m.fill?
    if m.Filled m' ∧ m'.outstanding < m.outstanding then replenish? m' else none
  else return m
termination_by m.outstanding
decreasing_by
  next h => exact h.2

/-- Decode the next character of a memory that needs no filling, and step over it. -/
def take? (m : Memory) : Option (Fetched × Memory) :=
  if m.next = m.stop then
    match m.pending? with
    | some (.failure f) => some (.finished (some f), { m with pending? := none })
    | _ => some (.finished none, m)
  else do
    let bytes ← slice? m.cells m.next m.stop
    match (bytes.extract 0 Utf8.maxWidth).utf8DecodeChar? 0 with
    | some c => return (.char c, { m with next := m.next + c.utf8Size })
    | none => return (.malformed, { m with next := m.next + 1 })

/-- Decode the next character and step over it, filling the buffer as far as that takes. -/
def fetch? (m : Memory) : Option (Fetched × Memory) := do
  let x ← m.cells[m.next]?
  -- The sentinel is no character by itself, so there is no need to look for the end of the bytes.
  if x < Buffer.sentinel then return (Buffer.ofByte x, { m with next := m.next + 1 })
  else
    let m ← m.replenish?
    m.take?

end Memory

namespace CharStream

/-- Fetch the next character that is one, passing over what is not. -/
def seek? (s : CharStream Memory) : Option (CharStream Memory) := do
  let fetched ← s.window.fetch?
  if passedOver fetched.1 then
    if fetched.2.remaining < s.window.remaining then seek? (s.receive fetched).passChar else none
  else return s.receive fetched
termination_by s.window.remaining
decreasing_by
  next h => simpa using h

/-- Go to the next character. -/
def advance? (s : CharStream Memory) : Option (CharStream Memory) := s.passChar.seek?

/-- Mark the current character. -/
def setMark? (s : CharStream Memory) : Option (CharStream Memory) := do
  let mark ← minus? s.window.next s.width
  return { s with window := { s.window with mark? := some mark } }

/-- Drop the mark. -/
def dropMark (s : CharStream Memory) : CharStream Memory :=
  { s with window := { s.window with mark? := none } }

/-- The bytes from the mark up to the current character, none without a mark. -/
def marked? (s : CharStream Memory) : Option ByteArray :=
  match s.window.mark? with
  | some mark => do
    let end_ ← minus? s.window.next s.width
    slice? s.window.cells mark end_
  | none => some .empty

/-- Go back to the mark, which must be there. -/
def rewind? (s : CharStream Memory) : Option (CharStream Memory) := do
  let mark ← s.window.mark?
  let since ← minus? s.window.next mark
  advance?
    { s with
      window := { s.window with next := mark }
      column := s.column + s.width - since
      width := 0 }

end CharStream

end FrontEnd
