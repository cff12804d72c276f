import FrontEnd.Bytes.Cursor
import FrontEnd.Proofs.Decoding
import FrontEnd.Proofs.Delivery

/-!
# A buffer is a cursor

`Buffer.Holds` relates a buffer to a cursor on all the bytes: what has been dropped from the buffer,
what it holds, and what the reader still has make up the bytes, and the position and the mark are the
same once what has been dropped is counted. Filling drops some more and takes some in, which the
cursor does not notice (`Buffer.Holds.fill`). A fetch finds the same on both sides and keeps the
relation (`Buffer.Tracks.fetch`), except for a NUL byte that the buffer had to be filled for, which it
decodes as a character, and except for a failure of the reader after the last bytes, which only the
buffer tells (`Buffer.Fetches`).

Whether there is such a byte depends on how the reader divides the bytes. There is none, however they
are divided, if every NUL byte breaks off a character (`NulsBreakOff`): it has then been looked at
already, to tell that the bytes before it are no character (`Sighted`).
-/

namespace FrontEnd

/-- Every NUL byte comes where a character is not complete yet. -/
def NulsBreakOff (bytes : ByteArray) : Prop :=
  ∀ (i : Nat) (h : i < bytes.size), bytes[i] = 0 → ∃ j < i, Utf8.settled (bytes.extract j i) = false

/-- Whatever it took to tell the characters before `offset` is before `stop`. -/
def Sighted (bytes : ByteArray) (offset stop : Nat) : Prop :=
  ∀ i j, i < bytes.size → j < offset → j < i → Utf8.settled (bytes.extract j i) = false → i < stop

/-- What has been looked at up to an offset has been so up to an earlier one, and more may have been. -/
theorem Sighted.mono {bytes : ByteArray} {offset offset' stop stop' : Nat}
    (h : Sighted bytes offset stop) (ho : offset' ≤ offset) (hs : stop ≤ stop') :
    Sighted bytes offset' stop' :=
  fun i j hi hj hij hu => Nat.lt_of_lt_of_le (h i j hi (Nat.lt_of_lt_of_le hj ho) hij hu) hs

/-- A step over one character takes no more than it took to tell it. -/
theorem Sighted.step {bytes : ByteArray} {offset stop k : Nat} (h : Sighted bytes offset stop)
    (hfirst : ∀ i, i < bytes.size → offset < i → Utf8.settled (bytes.extract offset i) = false →
      i < stop)
    (hinside : ∀ (j : Nat) (hj : j < bytes.size), offset < j → j < offset + k →
      Utf8.announcedWidth bytes[j] ≤ 1) :
    Sighted bytes (offset + k) stop := by
  intro i j hi hj hij hu
  rcases Nat.lt_trichotomy j offset with hlt | rfl | hgt
  · exact h i j hi hlt hij hu
  · exact hfirst i hi hij hu
  · have hsize : 0 < (bytes.extract j i).size := by
      rw [ByteArray.size_extract]
      omega
    have hs : Utf8.settled (bytes.extract j i) := by
      apply Utf8.settled_of_announcedWidth_le hsize
      rw [ByteArray.getElem_extract]
      exact hinside j (by omega) hgt hj
    rw [hs] at hu
    cases hu

namespace Buffer

/-- The buffer is at the same place as the cursor. It holds the bytes `held` after `before` and gets
`ahead` from its reader. -/
structure Holds (b : Buffer) (outcome : Option ReadFailure) (c : Cursor)
    (before held ahead : ByteArray) : Prop where
  bytes_eq : c.bytes = before ++ (held ++ ahead)
  cells_eq : b.cells = held.push sentinel
  stop_eq : b.stop = held.size
  next_le : b.next ≤ b.stop
  mark_le : ∀ m, b.mark? = some m → m ≤ b.next
  offset_eq : c.offset = before.size + b.next
  mark?_eq : c.mark? = b.mark?.map (before.size + ·)
  least_le : Growth.least ≤ b.capacity
  stop_lt : b.stop < b.capacity
  sighted : Sighted c.bytes c.offset (before.size + b.stop)
  input : (b.pending? = none ∧ b.reader.Hands ahead outcome) ∨
    (b.pending? = some (.ofOutcome outcome) ∧ ahead = .empty)

/-- The buffer is at the same place as the cursor, and `outcome` comes after the bytes. -/
def Tracks (b : Buffer) (outcome : Option ReadFailure) (c : Cursor) : Prop :=
  ∃ before held ahead, b.Holds outcome c before held ahead

/-- A buffer starts where a cursor does. -/
theorem tracks_ofReader {r : Reader} {bytes : ByteArray} {outcome : Option ReadFailure}
    (h : r.Hands bytes outcome) : (ofReader r).Tracks outcome (.ofBytes bytes) :=
  ⟨.empty, .empty, bytes, {
    bytes_eq := by simp [Cursor.ofBytes]
    cells_eq := rfl
    stop_eq := rfl
    next_le := Nat.le_refl _
    mark_le := by simp [ofReader]
    offset_eq := rfl
    mark?_eq := rfl
    least_le := Nat.le_refl Growth.least
    stop_lt := by
      change 0 < Growth.least
      decide
    sighted := fun _ _ _ hj => absurd hj (Nat.not_lt_zero _)
    input := .inl ⟨rfl, h⟩ }⟩

/-- A part of the first of two arrays is one of both. -/
theorem extract_append_of_le {a b : ByteArray} {i j : Nat} (h : j ≤ a.size) :
    (a ++ b).extract i j = a.extract i j := by
  rw [ByteArray.extract_append, Nat.sub_eq_zero_of_le h,
    ByteArray.extract_eq_empty_iff.mpr (Nat.le_trans (Nat.min_le_left ..) (Nat.zero_le _)),
    ByteArray.append_empty]

/-- The sentinel is not among the bytes before it. -/
theorem extract_push_of_le {bytes : ByteArray} {x : UInt8} {i j : Nat} (h : j ≤ bytes.size) :
    (bytes.push x).extract i j = bytes.extract i j := by
  rw [← ByteArray.append_toByteArray_singleton, extract_append_of_le h]

variable {b : Buffer} {outcome : Option ReadFailure} {c : Cursor} {before held ahead : ByteArray}

/-- What is kept starts before the position. -/
theorem Holds.keepFrom_le (h : b.Holds outcome c before held ahead) : b.keepFrom ≤ b.next := by
  unfold keepFrom
  cases hm : b.mark? with
  | none => exact Nat.le_refl _
  | some m => exact h.mark_le m hm

/-- Growing makes room for at least two more bytes. -/
theorem add_two_le_nextSize {n : Nat} (h : Growth.least ≤ n) : n + 2 ≤ Growth.nextSize n := by
  unfold Growth.nextSize Growth.grow
  unfold Growth.least at *
  unfold Growth.largestDoubled
  split
  · omega
  · split <;> omega

/-- There is room for the bytes that are kept, for the sentinel, and for some more. -/
theorem Holds.kept_lt_roomFor (h : b.Holds outcome c before held ahead) (kept : Nat)
    (hk : kept ≤ b.stop) :
    kept + 2 ≤ b.roomFor kept ∧ Growth.least ≤ b.roomFor kept := by
  have hleast := h.least_le
  have hstop := h.stop_lt
  have hgrow := add_two_le_nextSize hleast
  unfold roomFor
  split
  · omega
  · unfold Growth.least at *
    omega

/-- A buffer that keeps what it needs and takes in `piece` is still at the same place: the position and
the mark move down by what is dropped. -/
theorem Holds.refill (h : b.Holds outcome c before held ahead) {piece later kept : ByteArray}
    {pending? : Option Pending} {reader : Reader} (hkept : kept = held.extract b.keepFrom held.size)
    (hahead : ahead = piece ++ later) (hfits : kept.size + piece.size < b.roomFor kept.size)
    (hinput : (pending? = none ∧ reader.Hands later outcome) ∨
      (pending? = some (.ofOutcome outcome) ∧ later = .empty)) :
    Tracks
      { reader
        cells := (kept ++ piece).push sentinel
        capacity := b.roomFor kept.size
        pending?
        mark? := b.mark?.map fun _ => 0
        next := b.next - b.keepFrom
        stop := (kept ++ piece).size } outcome c := by
  have hkeep := h.keepFrom_le
  have hnext := h.next_le
  have hstop := h.stop_eq
  have hsize : kept.size = held.size - b.keepFrom := by
    rw [hkept, ByteArray.size_extract, Nat.min_self]
  -- The bytes up to `keepFrom` become part of what lies before the buffer; nothing is lost by it.
  have hsplit (x : ByteArray) : held.extract 0 b.keepFrom ++ (kept ++ x) = held ++ x := by
    rw [hkept, ← ByteArray.append_assoc, ByteArray.extract_append_extract, Nat.zero_min,
      Nat.max_eq_right (by omega), ByteArray.extract_zero_size]
  have hbefore : (before ++ held.extract 0 b.keepFrom).size = before.size + b.keepFrom := by
    rw [ByteArray.size_append, ByteArray.size_extract]
    omega
  have hroom := h.kept_lt_roomFor kept.size (by omega)
  refine ⟨before ++ held.extract 0 b.keepFrom, kept ++ piece, later, ?_⟩
  constructor
  case bytes_eq =>
    rw [h.bytes_eq, hahead]
    simp only [ByteArray.append_assoc, hsplit]
  case cells_eq => rfl
  case stop_eq => rfl
  case next_le =>
    dsimp only
    rw [ByteArray.size_append]
    omega
  case mark_le =>
    intro m hm
    dsimp only at hm
    cases hb : b.mark? with
    | none =>
      rw [hb] at hm
      cases hm
    | some m' =>
      rw [hb] at hm
      cases hm
      exact Nat.zero_le _
  case offset_eq =>
    dsimp only
    rw [hbefore, h.offset_eq]
    omega
  -- The kept bytes start at the mark if one is set, so it is now at the front.
  case mark?_eq =>
    dsimp only
    rw [h.mark?_eq, Option.map_map]
    cases hb : b.mark? with
    | none => rfl
    | some m =>
      have hm : b.keepFrom = m := by
        rw [keepFrom, hb]
        rfl
      rw [Option.map_some, Option.map_some, Function.comp, hbefore, hm]
      rfl
  case least_le => exact hroom.2
  case stop_lt =>
    dsimp only
    rw [ByteArray.size_append]
    exact hfits
  case sighted =>
    dsimp only
    refine h.sighted.mono (Nat.le_refl _) ?_
    rw [hbefore, ByteArray.size_append]
    omega
  case input => exact hinput

/-- Filling drops what is not needed any more and takes in what the reader hands out next. -/
theorem Holds.fill (h : b.Holds outcome c before held ahead) (hp : b.pending? = none) :
    b.fill.Tracks outcome c := by
  have hkept : b.cells.extract b.keepFrom b.stop = held.extract b.keepFrom held.size := by
    rw [h.cells_eq, h.stop_eq, extract_push_of_le (Nat.le_refl _)]
  have hle : (held.extract b.keepFrom held.size).size ≤ b.stop := by
    rw [ByteArray.size_extract, h.stop_eq]
    omega
  have hhands : b.reader.Hands ahead outcome := by
    rcases h.input with ⟨-, hd⟩ | ⟨he, -⟩
    · exact hd
    · rw [hp] at he
      cases he
  unfold Buffer.fill
  rw [hkept]
  generalize hk : held.extract b.keepFrom held.size = kept at hle
  obtain ⟨hroom, -⟩ := h.kept_lt_roomFor kept.size hle
  have hserve := hhands.request (b.roomFor kept.size - 1 - kept.size) (by omega)
  dsimp only
  generalize request _ requestsPerFill b.reader = x at hserve
  obtain ⟨answer, reader⟩ := x
  dsimp only at hserve ⊢
  -- The reader hands over a piece, or it tells how the input ends and hands over nothing.
  rcases hserve with ⟨piece, later, rfl, hpiece, hfits, hahead, hlater⟩ | ⟨hnone, hpending, hahead⟩
  · exact h.refill hk.symm hahead (by rw [answerData]; omega) (.inl ⟨if_neg hpiece, hlater⟩)
  · have hsplit : ahead = answerData answer ++ .empty := by rw [hahead, hnone, ByteArray.append_empty]
    refine h.refill hk.symm hsplit ?_ (.inr ⟨hpending, rfl⟩)
    rw [hnone, ByteArray.size_empty]
    omega

/-- A buffer that has been filled as far as it takes to tell the next character tracks what it did
before. -/
theorem Tracks.replenish (h : b.Tracks outcome c) :
    b.replenish.Tracks outcome c ∧ b.replenish.wantsMore = false := by
  fun_induction Buffer.replenish b with
  | case1 b hw ih =>
    have hp : b.pending? = none := by
      simp only [wantsMore, Bool.and_eq_true, Option.isNone_iff_eq_none] at hw
      exact hw.2
    obtain ⟨before, held, ahead, hb⟩ := h
    exact ih (hb.fill hp)
  | case2 b hw => exact ⟨h, by simpa using hw⟩

/-! ## Fetching -/

/-- A step over bytes that the buffer holds. -/
theorem Holds.step (h : b.Holds outcome c before held ahead) {k : Nat} (hk : b.next + k ≤ b.stop)
    (hs : Sighted c.bytes (c.offset + k) (before.size + b.stop)) :
    Holds { b with next := b.next + k } outcome { c with offset := c.offset + k } before held
      ahead :=
  { h with
    next_le := hk
    mark_le := fun m hm => Nat.le_trans (h.mark_le m hm) (Nat.le_add_right ..)
    offset_eq := by
      dsimp only
      rw [h.offset_eq, Nat.add_assoc]
    sighted := hs }

/-- All the bytes are those dropped, those held and those to come. -/
theorem Holds.size_eq (h : b.Holds outcome c before held ahead) :
    c.bytes.size = before.size + (held.size + ahead.size) := by
  rw [h.bytes_eq, ByteArray.size_append, ByteArray.size_append]

/-- The bytes at the position. -/
theorem Holds.extract_eq (h : b.Holds outcome c before held ahead) :
    c.bytes.extract c.offset c.bytes.size = held.extract b.next held.size ++ ahead := by
  have hn := h.next_le
  have hs := h.stop_eq
  rw [h.size_eq, h.offset_eq, h.bytes_eq, ByteArray.extract_append_size_add,
    ByteArray.extract_eq_extract_append_extract held.size (by omega) (by omega),
    ByteArray.extract_append_size_left, ByteArray.extract_append_eq_right rfl rfl]

/-- The bytes after the position in a buffer that needs no filling are enough, or they are all there
are. -/
theorem Holds.settled (h : b.Holds outcome c before held ahead) (hw : b.wantsMore = false) :
    Utf8.settled (held.extract b.next held.size) ∨ ahead = .empty := by
  have hall : b.cells.extract b.next b.stop = held.extract b.next held.size := by
    rw [h.cells_eq, h.stop_eq, extract_push_of_le (Nat.le_refl _)]
  by_cases hset : Utf8.settled (held.extract b.next held.size)
  · exact .inl hset
  · rcases h.input with ⟨hp, -⟩ | ⟨-, ha⟩
    · have hshort : b.stop - b.next < Utf8.maxWidth := by
        apply Nat.lt_of_not_le
        intro hle
        refine hset (Utf8.settled_of_le ?_)
        rw [ByteArray.size_extract, Nat.min_self, ← h.stop_eq]
        exact hle
      unfold wantsMore at hw
      rw [hall, hp] at hw
      simp [hshort, hset] at hw
    · exact .inr ha

/-- What the cursor decodes can be told from the bytes in the buffer, if it needs no filling. -/
theorem Holds.utf8DecodeChar?_eq (h : b.Holds outcome c before held ahead)
    (hw : b.wantsMore = false) :
    (b.cells.extract b.next (min (b.next + Utf8.maxWidth) b.stop)).utf8DecodeChar? 0 =
      c.bytes.utf8DecodeChar? c.offset := by
  have hs := h.stop_eq
  have hcells : b.cells.extract b.next (min (b.next + Utf8.maxWidth) b.stop) =
      (held.extract b.next held.size).extract 0
        (min Utf8.maxWidth (held.extract b.next held.size).size) := by
    rw [ByteArray.size_extract, Nat.min_self, ByteArray.extract_extract, h.cells_eq, hs,
      extract_push_of_le (Nat.min_le_right ..), Nat.add_zero]
    congr 1
    omega
  rw [hcells, Utf8.utf8DecodeChar?_extract_of_settled (h.settled hw), ← h.extract_eq,
    ← ByteArray.utf8DecodeChar?_eq_utf8DecodeChar?_extract]

/-- Telling the next character does not take more than the buffer holds. -/
theorem Holds.lt_stop (h : b.Holds outcome c before held ahead) (hw : b.wantsMore = false) {i : Nat}
    (hi : i < c.bytes.size) (hu : Utf8.settled (c.bytes.extract c.offset i) = false) :
    i < before.size + b.stop := by
  have hn := h.next_le
  have hs := h.stop_eq
  have ho := h.offset_eq
  have hsize := h.size_eq
  apply Nat.lt_of_not_le
  intro hle
  rcases h.settled hw with hset | rfl
  · have hheld : c.bytes.extract c.offset (before.size + b.stop) = held.extract b.next held.size := by
      rw [h.bytes_eq, ho, hs, ByteArray.extract_append_size_add, extract_append_of_le (Nat.le_refl _)]
    rw [ByteArray.extract_eq_extract_append_extract (before.size + b.stop) (by omega) hle, hheld,
      Utf8.settled_append hset] at hu
    cases hu
  · rw [ByteArray.size_empty] at hsize
    omega

/-- A buffer that needs no filling and holds no bytes after the position is at the end. -/
theorem Holds.ahead_eq_empty (h : b.Holds outcome c before held ahead) (hw : b.wantsMore = false)
    (hn : b.next = b.stop) : ahead = .empty ∧ b.pending? = some (.ofOutcome outcome) := by
  rcases h.input with ⟨hp, -⟩ | ⟨hp, ha⟩
  · unfold wantsMore at hw
    rw [hn, ByteArray.extract_same, hp, Nat.sub_self] at hw
    exact absurd hw (by decide)
  · exact ⟨ha, hp⟩

end Buffer

/-- The number of bytes that a fetch passes over. -/
def Fetched.width : Fetched → Nat
  | .char c => c.utf8Size
  | .nul | .malformed => 1
  | .finished _ => 0

/-- What takes bytes is something. -/
theorem Fetched.found_of_width_ne {f : Fetched} (h : f.width ≠ 0) : f.found := by
  cases f with
  | finished failure? => exact absurd rfl h
  | _ => rfl

/-- What may be found at offset `i` of `bytes`: what stands there, where a NUL is recognised as one or
not. -/
inductive Fetched.Stands (bytes : ByteArray) (i : Nat) : Fetched → Prop
  | char {c} : bytes.utf8DecodeChar? i = some c → Stands bytes i (.char c)
  | nul : bytes.utf8DecodeChar? i = some '\x00' → Stands bytes i .nul
  | malformed : i < bytes.size → bytes.utf8DecodeChar? i = none → Stands bytes i .malformed
  | finished : i = bytes.size → Stands bytes i (.finished none)

namespace Cursor

/-- A fetch leaves the bytes of a cursor. -/
theorem bytes_fetch (c : Cursor) : c.fetch.2.bytes = c.bytes := by
  unfold fetch
  split
  · split <;> rfl
  · rfl

/-- A cursor that is at a character fetches it. -/
theorem fetch_of_some {c : Cursor} {ch : Char} (h : c.bytes.utf8DecodeChar? c.offset = some ch) :
    c.fetch = (ofChar ch, { c with offset := c.offset + ch.utf8Size }) := by
  have hlt : c.offset < c.bytes.size := ByteArray.lt_size_of_isSome_utf8DecodeChar? (by rw [h]; rfl)
  unfold fetch
  rw [if_pos hlt, h]

/-- A cursor that is at no character fetches a byte that is malformed. -/
theorem fetch_of_none {c : Cursor} (h : c.bytes.utf8DecodeChar? c.offset = none)
    (hlt : c.offset < c.bytes.size) : c.fetch = (.malformed, { c with offset := c.offset + 1 }) := by
  unfold fetch
  rw [if_pos hlt, h]

/-- A cursor finds what stands there, and steps over it. -/
theorem stands_fetch (c : Cursor) (h : c.offset ≤ c.bytes.size) :
    c.fetch.1.Stands c.bytes c.offset ∧
      c.fetch.2 = { c with offset := c.offset + c.fetch.1.width } := by
  unfold fetch
  by_cases hi : c.offset < c.bytes.size
  · rw [if_pos hi]
    cases hd : c.bytes.utf8DecodeChar? c.offset with
    | none => exact ⟨.malformed hi hd, rfl⟩
    | some ch =>
      dsimp only
      unfold ofChar
      split
      · next hz =>
        subst hz
        exact ⟨.nul hd, rfl⟩
      · exact ⟨.char hd, rfl⟩
  · rw [if_neg hi]
    exact ⟨.finished (by omega), rfl⟩

/-- Only what the cursor finds may be found, but for a NUL that is not recognised. -/
theorem fetch_eq_of_stands {c : Cursor} {f : Fetched} (h : f.Stands c.bytes c.offset)
    (hne : f ≠ .char '\x00') : c.fetch = (f, { c with offset := c.offset + f.width }) := by
  cases h with
  | @char ch hd =>
    have hch : ch ≠ '\x00' := fun he => hne (congrArg Fetched.char he)
    rw [fetch_of_some hd, ofChar, if_neg hch]
    rfl
  | nul hd => exact fetch_of_some hd
  | malformed hi hd => exact fetch_of_none hd hi
  | finished he =>
    unfold fetch
    rw [if_neg (by omega)]
    rfl

end Cursor

namespace Buffer

variable {b : Buffer} {outcome : Option ReadFailure} {c : Cursor} {before held ahead : ByteArray}

/-- The cursor is within the bytes. -/
theorem Holds.offset_le (h : b.Holds outcome c before held ahead) : c.offset ≤ c.bytes.size := by
  have hn := h.next_le
  have hs := h.stop_eq
  rw [h.size_eq, h.offset_eq]
  omega

/-- What has been fetched, and the buffer after it: what stands at the cursor, with the buffer behind it,
or that the reader has failed after the last bytes. -/
inductive Fetches (outcome : Option ReadFailure) (c : Cursor) : Fetched × Buffer → Prop
  | stands {f b} : f.Stands c.bytes c.offset →
      b.Tracks outcome { c with offset := c.offset + f.width } → f.width ≤ b.next →
      (¬f.found → outcome = none) → Fetches outcome c (f, b)
  | fails {failure b} : outcome = some failure → Fetches outcome c (.finished (some failure), b)

/-- A fetch from a buffer that needs no filling finds what stands there, and steps over it. -/
theorem Holds.take (h : b.Holds outcome c before held ahead) (hw : b.wantsMore = false) :
    Fetches outcome c b.take := by
  have hd := h.utf8DecodeChar?_eq hw
  have hsize := h.size_eq
  have ho := h.offset_eq
  have hs := h.stop_eq
  have hfirst (i : Nat) (hi : i < c.bytes.size) (_ : c.offset < i) := h.lt_stop hw hi
  unfold Buffer.take
  by_cases hn : b.next < b.stop
  · rw [if_pos hn, hd]
    -- The buffer holds enough to decode what the whole text has here, by `utf8DecodeChar?_eq`.
    cases hc : c.bytes.utf8DecodeChar? c.offset with
    | some ch =>
      have hfit : b.next + ch.utf8Size ≤ b.stop := by
        have := ByteArray.le_size_of_utf8DecodeChar?_eq_some (hd.trans hc)
        rw [ByteArray.size_extract] at this
        omega
      -- Inside the character there are continuation bytes only, which announce no width of their own.
      have hsighted : Sighted c.bytes (c.offset + ch.utf8Size) (before.size + b.stop) := by
        refine h.sighted.step hfirst fun j hj hgt hlt => ?_
        rw [Utf8.announcedWidth_of_isContinuation (Utf8.isContinuation_getElem hc hgt hlt hj)]
        exact Nat.zero_le 1
      exact .stands (.char hc) ⟨_, _, _, h.step hfit hsighted⟩ (Nat.le_add_left ..) (absurd rfl)
    | none =>
      have hsighted : Sighted c.bytes (c.offset + 1) (before.size + b.stop) :=
        h.sighted.step hfirst fun j hj hgt hlt => by omega
      exact .stands (.malformed (by omega) hc) ⟨_, _, _, h.step hn hsighted⟩ (Nat.le_add_left ..)
        (absurd rfl)
  · have hle := h.next_le
    obtain ⟨rfl, hp⟩ := h.ahead_eq_empty hw (by omega)
    rw [if_neg hn, hp]
    rw [ByteArray.size_empty] at hsize
    cases outcome with
    | none => exact .stands (.finished (by omega)) ⟨_, _, _, h⟩ (Nat.zero_le _) fun _ => rfl
    | some failure => exact .fails rfl

/-- The next cell holds the byte at the cursor. -/
theorem Holds.getElem?_cells (h : b.Holds outcome c before held ahead) (hn : b.next < b.stop)
    (hi : c.offset < c.bytes.size) : b.cells[b.next]? = some c.bytes[c.offset] := by
  have hlt : b.next < held.size := Nat.lt_of_lt_of_eq hn h.stop_eq
  have hcursor {whole : ByteArray} {i : Nat} (hw : whole = before ++ (held ++ ahead))
      (ho : i = before.size + b.next) (hi : i < whole.size) : whole[i] = held[b.next] := by
    subst hw ho
    rw [ByteArray.getElem_append_right (Nat.le_add_right ..)]
    simp only [Nat.add_sub_cancel_left]
    exact ByteArray.getElem_append_left hlt
  have hcell {cells : ByteArray} (hc : cells = held ++ [sentinel].toByteArray) :
      cells[b.next]? = some held[b.next] := by
    subst hc
    have hpos : b.next < (held ++ [sentinel].toByteArray).size := by
      rw [ByteArray.size_append]
      omega
    rw [getElem?_pos (held ++ [sentinel].toByteArray) b.next hpos, ByteArray.getElem_append_left hlt]
  rw [hcell (by rw [h.cells_eq, ByteArray.append_toByteArray_singleton]),
    hcursor h.bytes_eq h.offset_eq hi]

/-- A byte that is a character by itself is that character. -/
theorem ofChar_ofUInt8 (x : UInt8) : Cursor.ofChar (Char.ofUInt8 x) = ofByte x := by
  unfold Cursor.ofChar ofByte
  have hiff : Char.ofUInt8 x = '\x00' ↔ x = 0 := by
    rw [← Char.toNat_inj, ← UInt8.toNat_inj]
    rfl
  simp only [hiff]

/-- What stands at the position as a byte is what the cursor finds there. -/
theorem Holds.plain (h : b.Holds outcome c before held ahead) {found : Fetched}
    (hp : b.plain? = some found) :
    c.fetch = (found, { c with offset := c.offset + 1 }) ∧ found.width = 1 ∧
      Sighted c.bytes (c.offset + 1) (before.size + b.stop) := by
  have hn := lt_stop_of_plain? hp
  have hs := h.stop_eq
  have hsize := h.size_eq
  have ho := h.offset_eq
  have hi : c.offset < c.bytes.size := by omega
  unfold plain? at hp
  rw [if_pos hn, h.getElem?_cells hn hi] at hp
  dsimp only at hp
  split at hp
  · next hlt =>
    cases hp
    -- A byte below 0x80 is a character of its own, in the buffer as in the whole text.
    have hone : Utf8.announcedWidth c.bytes[c.offset] = 1 := if_pos hlt
    refine ⟨?_, ?_, h.sighted.step (fun i _ hgt hu => ?_) fun j hj hgt hlt => by omega⟩
    · unfold Cursor.fetch
      rw [if_pos hi, Utf8.utf8DecodeChar?_of_lt hi hlt]
      dsimp only
      rw [Utf8.utf8Size_ofUInt8 hlt, ofChar_ofUInt8]
    · unfold ofByte
      split
      · rfl
      · exact Utf8.utf8Size_ofUInt8 hlt
    · have hpos : 0 < (c.bytes.extract c.offset i).size := by
        rw [ByteArray.size_extract]
        omega
      rw [Utf8.settled_of_announcedWidth_le hpos
        (by rw [ByteArray.getElem_extract]; exact Nat.le_of_eq hone)] at hu
      cases hu
  · cases hp

/-- A NUL byte that breaks off a character is recognised by a plain look. -/
theorem Holds.plain?_ne_none (h : b.Holds outcome c before held ahead) (hb : NulsBreakOff c.bytes)
    (hi : c.offset < c.bytes.size) (hz : c.bytes[c.offset] = 0) : b.plain? ≠ none := by
  have ho := h.offset_eq
  obtain ⟨j, hj, hu⟩ := hb c.offset hi hz
  have hlt := h.sighted c.offset j hi hj hj hu
  have hn : b.next < b.stop := by omega
  unfold plain?
  rw [if_pos hn, h.getElem?_cells hn hi, hz]
  intro hp
  cases hp

/-- A fetch finds what stands at the cursor, and goes on behind it. -/
theorem Tracks.fetches (h : b.Tracks outcome c) : Fetches outcome c b.fetch := by
  unfold Buffer.fetch
  cases hp : b.plain? with
  | some found =>
    obtain ⟨before, held, ahead, h⟩ := h
    obtain ⟨hc, hwidth, hsighted⟩ := h.plain hp
    have hstands := (c.stands_fetch h.offset_le).1
    rw [hc] at hstands
    refine .stands hstands ?_ ?_ (absurd (Fetched.found_of_width_ne ?_))
    · rw [hwidth]
      exact ⟨_, _, _, h.step (lt_stop_of_plain? hp) hsighted⟩
    · rw [hwidth]
      exact Nat.le_add_left ..
    · rw [hwidth]
      exact Nat.one_ne_zero
  | none =>
    obtain ⟨⟨before, held, ahead, h⟩, hw⟩ := h.replenish
    exact h.take hw

/-- A fetch finds the same in a buffer as with the cursor, and both go on to the same place. -/
theorem Tracks.fetch (h : b.Tracks none c) (hb : NulsBreakOff c.bytes) :
    b.fetch.1 = c.fetch.1 ∧ b.fetch.2.Tracks none c.fetch.2 ∧ b.fetch.1.width ≤ b.fetch.2.next := by
  have hfetches := h.fetches
  -- A NUL that breaks off is never fetched from a filled up buffer, where it would be taken for a character.
  have hnul (hp : b.plain? = none) : ¬Fetched.Stands c.bytes c.offset (.char '\x00') := by
    obtain ⟨before, held, ahead, h⟩ := h
    rintro (⟨hd⟩)
    have hi : c.offset < c.bytes.size := ByteArray.lt_size_of_isSome_utf8DecodeChar? (by rw [hd]; rfl)
    exact h.plain?_ne_none hb hi (Utf8.getElem_of_utf8DecodeChar? hd rfl hi) hp
  have hplain (found : Fetched) (hp : b.plain? = some found) :
      c.fetch = (found, { c with offset := c.offset + found.width }) := by
    obtain ⟨before, held, ahead, h⟩ := h
    obtain ⟨hc, hone, -⟩ := h.plain hp
    rw [hone]
    exact hc
  have hfound (found : Fetched) (hp : b.plain? = some found) : b.fetch.1 = found := by
    unfold Buffer.fetch
    rw [hp]
  -- The fetch of the buffer stands at the cursor; only how the cursor fetches is left to compare.
  generalize b.fetch = x at hfetches hfound
  cases hfetches with
  | @stands f b' hstands htracks hwidth =>
    have hfetch : c.fetch = (f, { c with offset := c.offset + f.width }) := by
      cases hp : b.plain? with
      | some found =>
        have hf : f = found := hfound found hp
        rw [hf]
        exact hplain found hp
      | none =>
        refine Cursor.fetch_eq_of_stands hstands ?_
        rintro rfl
        exact hnul hp hstands
    rw [hfetch]
    exact ⟨rfl, htracks, hwidth⟩
  | fails hf => cases hf

end Buffer

end FrontEnd
