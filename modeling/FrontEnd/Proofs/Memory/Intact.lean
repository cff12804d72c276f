import FrontEnd.Proofs.Memory.Checked
import FrontEnd.Proofs.Places.Stream
import Mathlib.Data.Option.Basic

/-!
# Memories stay intact

In a memory that is intact (`Memory.Intact`) every access of a fetch is in range: each step of it succeeds,
leaves the memory intact and does to the buffer that is in it (`Memory.toBuffer`) what the operation of the
buffer does.

The filling is the one that moves things. What is kept takes up at most half of the cells, or the array has
just grown, so there is always room for the sentinel and for at least one byte to ask the reader for
(`Memory.Intact.add_two_le_roomFor`). `Memory.TakesIn` says what becomes of the bytes; that a filling does
what it owes (`Memory.TakesIn.filled`) and that it is that of the buffer (`Memory.TakesIn.toBuffer_eq`) are
read off from there.
-/

namespace FrontEnd

/-- A difference is taken where it is not negative. -/
theorem minus?_of_le {m n : Nat} (h : n ≤ m) : minus? m n = some (m - n) := if_pos h

/-- A part is cut out where it is in range. -/
theorem slice?_of_le {cells : ByteArray} {i j : Nat} (hij : i ≤ j) (hj : j ≤ cells.size) :
    slice? cells i j = some (cells.extract i j) := if_pos ⟨hij, hj⟩

/-- Bytes that fit can be written, and leave alone what is before them. -/
theorem exists_overwrite? (cells bytes : ByteArray) (i : Nat) (h : i + bytes.size ≤ cells.size) :
    ∃ cells', overwrite? cells i bytes = some cells' ∧ cells'.size = cells.size ∧
      cells'.extract 0 (i + bytes.size) = cells.extract 0 i ++ bytes := by
  have hfront : (cells.extract 0 i).size = i := by
    rw [ByteArray.size_extract]
    omega
  refine ⟨_, if_pos h, ?_, ?_⟩
  · rw [ByteArray.size_append, ByteArray.size_append, hfront, ByteArray.size_extract]
    omega
  · rw [← ByteArray.append_assoc]
    refine ByteArray.extract_append_eq_left ?_
    rw [ByteArray.size_append, hfront]

/-- Data that fits with the sentinel ends in it. -/
theorem exists_stored? (cells data : ByteArray) (i : Nat) (h : i + data.size < cells.size) :
    ∃ cells', stored? cells i data = some cells' ∧ cells'.size = cells.size ∧
      cells'.extract 0 (i + data.size + 1) = (cells.extract 0 i ++ data).push Buffer.sentinel := by
  obtain ⟨filled, hfilled, hsame, hfront⟩ := exists_overwrite? cells data i (Nat.le_of_lt h)
  obtain ⟨cells', hcells, hsame', hfront'⟩ :=
    exists_overwrite? filled (ByteArray.empty.push Buffer.sentinel) (i + data.size) (hsame ▸ h)
  refine ⟨cells', ?_, hsame'.trans hsame, ?_⟩
  · unfold stored?
    rw [hfilled]
    exact hcells
  · rw [← hfront, ← ByteArray.append_toByteArray_singleton]
    exact hfront'

/-- The last of some cells from the front on. -/
theorem getElem?_of_extract_eq_push {cells bytes : ByteArray} {x : UInt8} {n : Nat}
    (h : cells.extract 0 (n + 1) = bytes.push x) (hbytes : bytes.size = n) (hn : n < cells.size) :
    cells[n]? = some x := by
  have hsize : n < (cells.extract 0 (n + 1)).size := by
    rw [ByteArray.size_extract]
    omega
  have hcell : (cells.extract 0 (n + 1))[n] = cells[n] := by
    rw [ByteArray.getElem_extract]
    congr 1
    omega
  rw [getElem?_pos cells n hn, ← hcell]
  congr 1
  subst hbytes
  simp only [h, ← ByteArray.append_toByteArray_singleton]
  rw [ByteArray.getElem_append_right (Nat.le_refl _)]
  simp

/-- A new array has the size that was asked for. -/
theorem size_zeros (n : Nat) : (zeros n).size = n := by
  rw [← ByteArray.size_data, zeros, Array.size_replicate]

namespace Reader

/-- An answer fits into the space that was offered. -/
theorem answerBytes_answer_le (limit? : Option Nat) (ending : ReadEnding) (space : Nat)
    (events : List ReadEvent) : answerBytes (answer limit? ending space events).1 ≤ space := by
  -- Along the empty pieces that are passed over, up to the one that answers.
  induction events with
  | nil => cases ending <;> exact Nat.zero_le _
  | cons e rest ih =>
    cases e with
    | data bytes =>
      unfold answer
      split
      · exact ih
      · have hquota : quota limit? space bytes.size ≤ space :=
          Nat.le_trans (Nat.min_le_left ..) (Nat.min_le_left ..)
        dsimp only
        split
        · next heq =>
          rw [heq] at hquota
          exact hquota
        · simp only [answerBytes, ByteArray.size_extract]
          omega
    | stall | failure | endOfInput => exact Nat.zero_le _

end Reader

/-- What a request brings fits into the space that was offered. -/
theorem Buffer.size_answerData_le (space n : Nat) (r : Reader) :
    (answerData (request space n r).1).size ≤ space := by
  induction n generalizing r with
  | zero => exact Nat.zero_le _
  | succ n ih =>
    have hfits : Reader.answerBytes (r.read space).1 ≤ space :=
      Reader.answerBytes_answer_le r.limit? r.ending space r.events
    unfold request
    split
    · exact ih _
    · next h =>
      rw [h] at hfits
      exact hfits
    · exact Nat.zero_le _

namespace Memory

/-- The offsets are in order and inside of the cells, the last byte in use is followed by the sentinel,
and the cells are whole pages. -/
structure Intact (m : Memory) : Prop where
  mark_le : ∀ mark, m.mark? = some mark → mark ≤ m.next
  next_le : m.next ≤ m.stop
  stop_lt : m.stop < m.cells.size
  sentinel : m.cells[m.stop]? = some Buffer.sentinel
  least_dvd : Growth.least ∣ m.cells.size

/-- The buffer that is in the memory. -/
def toBuffer (m : Memory) : Buffer where
  reader := m.reader
  cells := m.cells.extract 0 (m.stop + 1)
  capacity := m.cells.size
  pending? := m.pending?
  mark? := m.mark?
  next := m.next
  stop := m.stop

variable {m : Memory}

/-- What is kept starts before the position. -/
theorem Intact.keepFrom_le (h : m.Intact) : m.keepFrom ≤ m.next := by
  unfold keepFrom
  cases hm : m.mark? with
  | none => exact Nat.le_refl _
  | some mark => exact h.mark_le mark hm

/-- The cells are a page at least. -/
theorem Intact.least_le (h : m.Intact) : Growth.least ≤ m.cells.size :=
  Nat.le_of_dvd (Nat.lt_of_le_of_lt (Nat.zero_le _) h.stop_lt) h.least_dvd

/-- A new memory is one page. -/
theorem size_cells_ofReader (r : Reader) : (ofReader r).cells.size = Growth.least := by
  simp only [ofReader, ByteArray.size_append, ByteArray.size_push, size_zeros]
  rfl

/-- A new memory starts with the sentinel. -/
theorem extract_cells_ofReader (r : Reader) :
    (ofReader r).cells.extract 0 (0 + 1) = ByteArray.empty.push Buffer.sentinel :=
  ByteArray.extract_append_eq_left rfl

/-- A new memory is intact: nothing is in use but the sentinel. -/
theorem intact_ofReader (r : Reader) : (ofReader r).Intact where
  mark_le := nofun
  next_le := Nat.le_refl _
  stop_lt := Nat.lt_of_lt_of_eq (by decide : 0 < Growth.least) (size_cells_ofReader r).symm
  sentinel := getElem?_of_extract_eq_push (extract_cells_ofReader r) rfl
    (Nat.lt_of_lt_of_eq (by decide : 0 < Growth.least) (size_cells_ofReader r).symm)
  least_dvd := size_cells_ofReader r ▸ Nat.dvd_refl _

/-- In a new memory is a new buffer. -/
theorem toBuffer_ofReader (r : Reader) : (ofReader r).toBuffer = Buffer.ofReader r := by
  unfold toBuffer Buffer.ofReader
  rw [size_cells_ofReader]
  change { cells := (ofReader r).cells.extract 0 (0 + 1), .. : Buffer } = _
  rw [extract_cells_ofReader]
  rfl

/-- Bytes in use are the same in the buffer. -/
theorem extract_toBuffer {i j : Nat} (h : j ≤ m.stop) :
    m.toBuffer.cells.extract i j = m.cells.extract i j := by
  rw [toBuffer, ByteArray.extract_extract]
  congr 1 <;> omega

/-- The number of bytes that are kept. -/
theorem Intact.size_kept (h : m.Intact) :
    (m.cells.extract m.keepFrom m.stop).size = m.stop - m.keepFrom := by
  have hstop := h.stop_lt
  rw [ByteArray.size_extract]
  omega

/-- What has to be kept is in front after it has been moved, in cells that are whole pages. -/
theorem Intact.exists_moved? (h : m.Intact) :
    ∃ cells, m.moved? = some cells ∧ cells.size = m.toBuffer.roomFor (m.stop - m.keepFrom) ∧
      Growth.least ∣ cells.size ∧
      cells.extract 0 (m.stop - m.keepFrom) = m.cells.extract m.keepFrom m.stop := by
  have hkeep := Nat.le_trans h.keepFrom_le h.next_le
  have hstop := h.stop_lt
  have hsize := h.size_kept
  have written (cells : ByteArray) (hroom : m.stop - m.keepFrom ≤ cells.size) :
      ∃ cells', overwrite? cells 0 (m.cells.extract m.keepFrom m.stop) = some cells' ∧
        cells'.size = cells.size ∧
        cells'.extract 0 (m.stop - m.keepFrom) = m.cells.extract m.keepFrom m.stop := by
    obtain ⟨cells', hsome, hsame, hfront⟩ :=
      exists_overwrite? cells (m.cells.extract m.keepFrom m.stop) 0 (by omega)
    rw [Nat.zero_add, hsize, ByteArray.extract_same, ByteArray.empty_append] at hfront
    exact ⟨cells', hsome, hsame, hfront⟩
  have hmoved : m.moved? =
      if (m.stop - m.keepFrom) * 2 > m.cells.size then
        overwrite? (zeros (Growth.nextSize m.cells.size)) 0 (m.cells.extract m.keepFrom m.stop)
      else if 0 < m.keepFrom then overwrite? m.cells 0 (m.cells.extract m.keepFrom m.stop)
      else some m.cells := by
    unfold moved?
    rw [minus?_of_le hkeep, slice?_of_le hkeep (Nat.le_of_lt hstop)]
    rfl
  have hroom : m.toBuffer.roomFor (m.stop - m.keepFrom) =
      if (m.stop - m.keepFrom) * 2 > m.cells.size then Growth.nextSize m.cells.size else m.cells.size := by
    rw [Nat.mul_comm]
    rfl
  rw [hmoved, hroom]
  -- Bytes are written to new cells or to the front. If they are in front already, nothing is.
  by_cases hgrow : (m.stop - m.keepFrom) * 2 > m.cells.size
  · have hlt := Growth.lt_nextSize m.cells.size
    obtain ⟨cells, hsome, hsame, hfront⟩ := written (zeros (Growth.nextSize m.cells.size))
      (by rw [size_zeros]; omega)
    rw [size_zeros] at hsame
    rw [if_pos hgrow, if_pos hgrow]
    exact ⟨cells, hsome, hsame, hsame ▸ Growth.least_dvd_nextSize h.least_dvd, hfront⟩
  · rw [if_neg hgrow, if_neg hgrow]
    by_cases hmove : 0 < m.keepFrom
    · obtain ⟨cells, hsome, hsame, hfront⟩ := written m.cells (by omega)
      rw [if_pos hmove]
      exact ⟨cells, hsome, hsame, hsame ▸ h.least_dvd, hfront⟩
    · rw [if_neg hmove]
      have hzero : m.keepFrom = 0 := by omega
      exact ⟨m.cells, rfl, rfl, h.least_dvd, by rw [hzero, Nat.sub_zero]⟩

/-- Room for what is kept, for the sentinel and for at least one more byte. -/
theorem Intact.add_two_le_roomFor (h : m.Intact) :
    m.stop - m.keepFrom + 2 ≤ m.toBuffer.roomFor (m.stop - m.keepFrom) := by
  have hgrow := Buffer.add_two_le_nextSize h.least_le
  have hleast := h.least_le
  have hstop := h.stop_lt
  change _ ≤ if 2 * (m.stop - m.keepFrom) > m.cells.size then Growth.nextSize m.cells.size else m.cells.size
  unfold Growth.least at hleast
  split <;> omega

/-- What a filling makes of a memory when the reader gives an answer: the bytes that are kept are in front,
what the answer brings stands behind them, and the sentinel is last. -/
structure TakesIn (m m' : Memory) (answer : ReadAnswer) : Prop where
  cells_eq : m'.cells.extract 0 (m'.stop + 1) =
    (m.cells.extract m.keepFrom m.stop ++ Buffer.answerData answer).push Buffer.sentinel
  size_eq : m'.cells.size = m.toBuffer.roomFor (m.stop - m.keepFrom)
  least_dvd : Growth.least ∣ m'.cells.size
  pending?_eq : m'.pending? = (Buffer.answerPending? answer).or m.pending?
  mark?_eq : m'.mark? = m.mark?.map fun _ => 0
  next_eq : m'.next = m.next - m.keepFrom
  stop_eq : m'.stop = m.stop - m.keepFrom + (Buffer.answerData answer).size
  stop_lt : m'.stop < m'.cells.size

/-- A filling stays inside of the cells, with room for at least one byte to offer to the reader. -/
theorem Intact.exists_takesIn (h : m.Intact) : ∃ m' answer, m.fill? = some m' ∧ m.TakesIn m' answer ∧
    Buffer.request (m'.cells.size - 1 - (m.stop - m.keepFrom)) Buffer.requestsPerFill m.reader =
      (answer, m'.reader) := by
  have hkeep := h.keepFrom_le
  have hnext := h.next_le
  -- Moving the kept bytes to the front or into larger cells, asking the reader, and storing what it gave: each
  -- can be done.
  obtain ⟨cells, hmoved, hroom, hdvd, hfront⟩ := h.exists_moved?
  -- At least one byte besides the sentinel is free, so the request is not for nothing.
  have hspace := hroom ▸ h.add_two_le_roomFor
  have hdata := Buffer.size_answerData_le (cells.size - 1 - (m.stop - m.keepFrom))
    Buffer.requestsPerFill m.reader
  rcases hx : Buffer.request (cells.size - 1 - (m.stop - m.keepFrom)) Buffer.requestsPerFill m.reader with
    ⟨answer, reader⟩
  rw [hx] at hdata
  dsimp only at hdata
  obtain ⟨cells', hstored, hsame, hbytes⟩ := exists_stored? cells (Buffer.answerData answer)
    (m.stop - m.keepFrom) (by omega)
  rw [hfront] at hbytes
  refine ⟨{
    reader
    cells := cells'
    pending? := (Buffer.answerPending? answer).or m.pending?
    mark? := m.mark?.map fun _ => 0
    next := m.next - m.keepFrom
    stop := m.stop - m.keepFrom + (Buffer.answerData answer).size }, answer, ?_, ?_, ?_⟩
  · unfold Memory.fill?
    rw [hmoved, minus?_of_le hkeep, minus?_of_le (Nat.le_trans hkeep hnext)]
    dsimp only [Option.bind_eq_bind, Option.bind_some]
    rw [minus?_of_le (by omega : 1 ≤ cells.size), Option.bind_some,
      minus?_of_le (by omega : m.stop - m.keepFrom ≤ cells.size - 1), Option.bind_some,
      (Option.guard_eq_some' ()).mpr (by omega), Option.bind_some, hx]
    dsimp only
    rw [(Option.guard_eq_some' ()).mpr hdata, Option.bind_some, hstored]
    rfl
  · exact ⟨hbytes, hsame.trans hroom, hsame ▸ hdvd, rfl, rfl, rfl, rfl, by dsimp only; omega⟩
  · rw [hsame]
    exact hx

namespace TakesIn

variable {m' : Memory} {answer : ReadAnswer}

/-- What a filling makes of an intact memory is intact. -/
theorem intact (h : m.TakesIn m' answer) (hm : m.Intact) : m'.Intact where
  mark_le mark hmark := by
    rw [h.mark?_eq] at hmark
    obtain ⟨-, -, rfl⟩ := Option.map_eq_some_iff.mp hmark
    exact Nat.zero_le _
  next_le := by
    have hnext := hm.next_le
    rw [h.next_eq, h.stop_eq]
    omega
  stop_lt := h.stop_lt
  sentinel := getElem?_of_extract_eq_push h.cells_eq
    (by rw [ByteArray.size_append, hm.size_kept, h.stop_eq]) h.stop_lt
  least_dvd := h.least_dvd

/-- A filling does what it owes. -/
theorem filled (h : m.TakesIn m' answer) (hm : m.Intact) : m.Filled m' where
  kept := by
    have hsize := hm.size_kept
    have hstop := h.stop_eq
    -- The kept bytes are the front of what is now in use.
    have hfront : m'.cells.extract 0 (m.stop - m.keepFrom) =
        (m'.cells.extract 0 (m'.stop + 1)).extract 0 (m.stop - m.keepFrom) := by
      rw [ByteArray.extract_extract]
      congr 1
      omega
    rw [hfront, h.cells_eq, Buffer.extract_push_of_le (by rw [ByteArray.size_append]; omega),
      Buffer.extract_append_of_le (by omega), ← hsize, ByteArray.extract_zero_size]
  mark?_eq := h.mark?_eq
  next_eq := by rw [h.next_eq, Nat.sub_add_cancel hm.keepFrom_le]
  gained := by
    rw [h.stop_eq, h.pending?_eq]
    cases answer with
    | delivered bytes =>
      by_cases hempty : bytes.size = 0
      · exact .inr (by simp [Buffer.answerPending?, hempty])
      · refine .inl ?_
        dsimp only [Buffer.answerData]
        omega
    | stalled => exact .inr rfl
    | failed message => exact .inr rfl

/-- What a filling makes of the memory is what it makes of the buffer. -/
theorem toBuffer_eq (h : m.TakesIn m' answer) (hm : m.Intact) (hp : m.pending? = none)
    (hx : Buffer.request (m'.cells.size - 1 - (m.stop - m.keepFrom)) Buffer.requestsPerFill m.reader =
      (answer, m'.reader)) : m'.toBuffer = m.toBuffer.fill := by
  -- The part in use is the same in memory and in the buffer; with it both ask the reader for the same.
  have hkept : m.toBuffer.cells.extract m.toBuffer.keepFrom m.toBuffer.stop =
      m.cells.extract m.keepFrom m.stop := extract_toBuffer (Nat.le_refl _)
  have hinUse : (m.cells.extract m.keepFrom m.stop ++ Buffer.answerData answer).size = m'.stop := by
    rw [ByteArray.size_append, hm.size_kept, h.stop_eq]
  have hfill : m.toBuffer.fill = {
      reader := m'.reader
      cells := (m.cells.extract m.keepFrom m.stop ++ Buffer.answerData answer).push Buffer.sentinel
      capacity := m'.cells.size
      pending? := Buffer.answerPending? answer
      mark? := m.mark?.map fun _ => 0
      next := m.next - m.keepFrom
      stop := (m.cells.extract m.keepFrom m.stop ++ Buffer.answerData answer).size } := by
    unfold Buffer.fill
    dsimp only
    rw [hkept, hm.size_kept, ← h.size_eq, show Buffer.request _ _ m.toBuffer.reader = _ from hx]
    rfl
  rw [hfill, ← h.cells_eq, hinUse, ← h.next_eq, ← h.mark?_eq, toBuffer, h.pending?_eq, hp, Option.or_none]

end TakesIn

/-- A filling stays inside of the cells and does what it owes, and what it makes of the memory is what it
makes of the buffer. -/
theorem Intact.exists_fill? (h : m.Intact) (hp : m.pending? = none) :
    ∃ m', m.fill? = some m' ∧ m'.Intact ∧ m.Filled m' ∧ m'.toBuffer = m.toBuffer.fill := by
  obtain ⟨m', answer, hfill, htakes, hx⟩ := h.exists_takesIn
  exact ⟨m', hfill, htakes.intact h, htakes.filled h, htakes.toBuffer_eq h hp hx⟩

/-- Whether more bytes are wanted is found out with accesses in range. -/
theorem Intact.wantsMore?_eq (h : m.Intact) : m.wantsMore? = some m.toBuffer.wantsMore := by
  have hbytes : m.toBuffer.cells.extract m.toBuffer.next m.toBuffer.stop = m.cells.extract m.next m.stop :=
    extract_toBuffer (Nat.le_refl _)
  have hwants : m.toBuffer.wantsMore =
      (decide (m.stop - m.next < Utf8.maxWidth) && !Utf8.settled (m.cells.extract m.next m.stop) &&
        m.pending?.isNone) := by
    unfold Buffer.wantsMore
    rw [hbytes]
    rfl
  unfold Memory.wantsMore?
  rw [minus?_of_le h.next_le, hwants, slice?_of_le h.next_le (Nat.le_of_lt h.stop_lt)]
  dsimp only [Option.bind_eq_bind, Option.bind_some]
  split
  · next hlt => simp [hlt]
  · next hlt => simp [hlt]

/-- A filling leaves less to bring. -/
theorem outstanding_lt {m' : Memory} (hp : m.pending? = none) (h : m'.toBuffer = m.toBuffer.fill) :
    m'.outstanding < m.outstanding := by
  have hle := m.toBuffer.bytesLeft_fill_le
  have hlt := m.toBuffer.bytesLeft_fill_lt
  rw [← h] at hle hlt
  unfold outstanding
  rw [hp]
  cases hp' : m'.pending? with
  | none => exact Nat.add_lt_add_right (hlt hp') 1
  | some p => exact Nat.lt_succ_of_le hle

/-- The fillings that the next character takes all stay inside and do what they owe, and come to an end. -/
theorem Intact.exists_replenish? (h : m.Intact) :
    ∃ m', m.replenish? = some m' ∧ m'.Intact ∧ m'.toBuffer = m.toBuffer.replenish := by
  -- The induction is on the fillings of the buffer: those of the memory might fail before they end.
  generalize hb : m.toBuffer = b
  fun_induction Buffer.replenish b generalizing m with
  | case1 b hw ih =>
    subst hb
    have hp : m.pending? = none := by
      simp only [Buffer.wantsMore, Bool.and_eq_true, Option.isNone_iff_eq_none] at hw
      exact hw.2
    obtain ⟨m', hfill, hintact, hfilled, hbuffer⟩ := h.exists_fill? hp
    obtain ⟨m'', hrest, hintact', hbuffer'⟩ := ih hintact hbuffer
    refine ⟨m'', ?_, hintact', hbuffer'⟩
    rw [replenish?, h.wantsMore?_eq, hw]
    dsimp only [Option.bind_eq_bind, Option.bind_some]
    rw [if_pos rfl, hfill, Option.bind_some, if_pos ⟨hfilled, outstanding_lt hp hbuffer⟩]
    exact hrest
  | case2 b hw =>
    subst hb
    refine ⟨m, ?_, h, rfl⟩
    rw [replenish?, h.wantsMore?_eq, eq_false_of_ne_true hw]
    rfl

/-- The last `width` bytes before the position are behind the mark. -/
structure Covers (m : Memory) (width : Nat) : Prop where
  width_le : width ≤ m.next
  mark_le : ∀ mark, m.mark? = some mark → mark + width ≤ m.next

/-- A step over bytes in use. -/
theorem Intact.step (h : m.Intact) {k : Nat} (hk : m.next + k ≤ m.stop) :
    Intact { m with next := m.next + k } ∧ Covers { m with next := m.next + k } k :=
  ⟨⟨fun mark hmark => Nat.le_trans (h.mark_le mark hmark) (Nat.le_add_right ..), hk, h.stop_lt, h.sentinel,
    h.least_dvd⟩, Nat.le_add_left .., fun mark hmark => Nat.add_le_add_right (h.mark_le mark hmark) k⟩

/-- A plain look finds the same as in the buffer: where no bytes are left, it meets the sentinel. -/
theorem Intact.exists_cell (h : m.Intact) : ∃ x, m.cells[m.next]? = some x ∧
    m.toBuffer.plain? = if x < Buffer.sentinel then some (Buffer.ofByte x) else none := by
  have hle := h.next_le
  have hstop := h.stop_lt
  -- Behind the part in use stands the sentinel, which is no plain byte.
  by_cases hlt : m.next < m.stop
  · have hcell : m.next < m.cells.size := by omega
    have hsize : m.next < (m.cells.extract 0 (m.stop + 1)).size := by
      rw [ByteArray.size_extract]
      omega
    have hsame : m.toBuffer.cells[m.toBuffer.next]? = some m.cells[m.next] := by
      change (m.cells.extract 0 (m.stop + 1))[m.next]? = _
      rw [getElem?_pos (m.cells.extract 0 (m.stop + 1)) m.next hsize, ByteArray.getElem_extract]
      simp only [Nat.zero_add]
    refine ⟨m.cells[m.next], getElem?_pos m.cells m.next hcell, ?_⟩
    unfold Buffer.plain?
    rw [hsame]
    exact if_pos hlt
  · have heq : m.next = m.stop := by omega
    refine ⟨Buffer.sentinel, heq ▸ h.sentinel, ?_⟩
    unfold Buffer.plain?
    exact if_neg hlt

/-- Decoding stays inside of the cells and finds what it finds in the buffer. -/
theorem Intact.exists_take? (h : m.Intact) :
    ∃ m', m.take? = some (m.toBuffer.take.1, m') ∧ m'.toBuffer = m.toBuffer.take.2 ∧ m'.Intact ∧
      m'.Covers m.toBuffer.take.1.width := by
  have hnext := h.next_le
  have hstop := h.stop_lt
  have hcovers {pending? : Option Pending} : Covers { m with pending? } 0 :=
    ⟨Nat.zero_le _, h.mark_le⟩
  unfold Memory.take? Buffer.take
  -- With no byte left the pending end or failure is handed out, otherwise a character is decoded.
  by_cases heq : m.next = m.stop
  · have hlt : ¬m.toBuffer.next < m.toBuffer.stop := Nat.not_lt_of_le (Nat.le_of_eq heq.symm)
    rw [if_pos heq, if_neg hlt, show m.toBuffer.pending? = m.pending? from rfl]
    rcases hp : m.pending? with _ | _ | f
    · exact ⟨m, rfl, rfl, h, hcovers⟩
    · exact ⟨m, rfl, rfl, h, hcovers⟩
    · exact ⟨_, rfl, rfl, ⟨h.mark_le, h.next_le, h.stop_lt, h.sentinel, h.least_dvd⟩, hcovers⟩
  · have hlt : m.toBuffer.next < m.toBuffer.stop := Nat.lt_of_le_of_ne hnext heq
    -- The same bytes are looked at in the cells with the sentinel and without it.
    have hbytes : m.toBuffer.cells.extract m.toBuffer.next
        (min (m.toBuffer.next + Utf8.maxWidth) m.toBuffer.stop) =
        (m.cells.extract m.next m.stop).extract 0 Utf8.maxWidth := by
      change m.toBuffer.cells.extract m.next (min (m.next + Utf8.maxWidth) m.stop) = _
      rw [extract_toBuffer (Nat.min_le_right ..), ByteArray.extract_extract, Nat.add_zero]
    rw [if_neg heq, if_pos hlt, slice?_of_le hnext (Nat.le_of_lt hstop), hbytes]
    dsimp only [Option.bind_eq_bind, Option.bind_some]
    cases hd : ((m.cells.extract m.next m.stop).extract 0 Utf8.maxWidth).utf8DecodeChar? 0 with
    | some c =>
      have hsize := ByteArray.le_size_of_utf8DecodeChar?_eq_some hd
      simp only [ByteArray.size_extract] at hsize
      obtain ⟨hintact, hstep⟩ := h.step (k := c.utf8Size) (by omega)
      exact ⟨_, rfl, rfl, hintact, hstep⟩
    | none =>
      obtain ⟨hintact, hstep⟩ := h.step (k := 1) hlt
      exact ⟨_, rfl, rfl, hintact, hstep⟩

/-- A fetch stays inside of the cells and finds what it finds in the buffer. -/
theorem Intact.exists_fetch? (h : m.Intact) :
    ∃ m', m.fetch? = some (m.toBuffer.fetch.1, m') ∧ m'.toBuffer = m.toBuffer.fetch.2 ∧ m'.Intact ∧
      m'.Covers m.toBuffer.fetch.1.width := by
  obtain ⟨x, hcell, hplain⟩ := h.exists_cell
  unfold Memory.fetch? Buffer.fetch
  rw [hcell, hplain]
  dsimp only [Option.bind_eq_bind, Option.bind_some]
  by_cases hx : x < Buffer.sentinel
  · rw [if_pos hx] at hplain ⊢
    rw [if_pos hx]
    obtain ⟨hintact, hstep⟩ := h.step (k := 1) (Buffer.lt_stop_of_plain? hplain)
    exact ⟨_, rfl, rfl, hintact, Buffer.width_of_plain? hplain ▸ hstep⟩
  · rw [if_neg hx, if_neg hx]
    obtain ⟨m', hreplenish, hintact, hbuffer⟩ := h.exists_replenish?
    rw [hreplenish, Option.bind_some, ← hbuffer]
    exact hintact.exists_take?

end Memory

end FrontEnd
