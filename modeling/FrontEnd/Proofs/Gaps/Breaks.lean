import FrontEnd.Proofs.Places.Stream

/-!
# NUL bytes that go unnoticed

A NUL byte is told from a character by a plain look into the buffer. It is missed only where the buffer
was used up right before it and nothing earlier had made the buffer look so far ahead
(`Buffer.Draws.misses`). The first of the two depends on the reader alone: one of its deliveries must end
there (`Reader.BreaksAt`).
-/

namespace FrontEnd

/-- The least space that a buffer offers for a delivery. -/
def Buffer.leastSpace : Nat := Growth.least / 2 - 1

namespace Reader

/-- The reader may deliver `n` bytes, in deliveries for which there is space enough each, and be `later`
afterwards. -/
inductive Deals (r : Reader) : Nat → Reader → Prop
  | start : Deals r 0 r
  | read {n later space} : Deals r n later → Buffer.leastSpace ≤ space →
      Deals r (n + answerBytes (later.read space).1) (later.read space).2

/-- A delivery may end right before offset `i`. -/
def BreaksAt (r : Reader) (i : Nat) : Prop := ∃ later, r.Deals i later

/-- A NUL byte at offset `i` may be taken for a character: a delivery may end before it, and no byte
before it begins a character that could go on there. -/
def Misses (r : Reader) (bytes : ByteArray) (i : Nat) : Prop :=
  r.BreaksAt i ∧ ∀ j < i, Utf8.settled (bytes.extract j i) = true

/-- No NUL byte may be taken for a character. -/
def NoticesNuls (r : Reader) (bytes : ByteArray) : Prop :=
  ∀ (i : Nat) (h : i < bytes.size), bytes[i] = 0 → ¬r.Misses bytes i

/-- A reader that has all bytes at hand breaks them at their start and end only, as far as one delivery
reaches. -/
theorem Deals.of_ofBytes {bytes : ByteArray} {n : Nat} {later : Reader}
    (h : (ofBytes bytes).Deals n later) :
    n = 0 ∧ later = ofBytes bytes ∨ min Buffer.leastSpace bytes.size ≤ n := by
  -- The first read takes as much as it has space for, and every space is at least `leastSpace`.
  induction h with
  | start => exact .inl ⟨rfl, rfl⟩
  | @read n later space _ hspace ih =>
    rcases ih with ⟨rfl, rfl⟩ | hle
    · right
      unfold Reader.read ofBytes
      dsimp only
      unfold answer
      by_cases hz : bytes.size = 0
      · omega
      · rw [if_neg hz]
        dsimp only
        have hquota : quota none space bytes.size = min space bytes.size := by
          unfold quota
          rw [Option.getD_none]
          omega
        rw [hquota]
        split
        · simp only [answerBytes]
          omega
        · simp only [answerBytes, ByteArray.size_extract]
          omega
    · exact .inr (Nat.le_trans hle (Nat.le_add_right ..))

/-- All NUL bytes of a short input that is at hand as a whole are noticed, but for one at its start. -/
theorem noticesNuls_ofBytes {bytes : ByteArray} (hshort : bytes.size ≤ Buffer.leastSpace)
    (hfirst : ∀ h : 0 < bytes.size, bytes[0] ≠ 0) : (ofBytes bytes).NoticesNuls bytes := by
  rintro i hi hz ⟨⟨later, hdeals⟩, -⟩
  rcases hdeals.of_ofBytes with ⟨rfl, -⟩ | hle
  · exact hfirst hi hz
  · omega

end Reader

namespace Buffer

variable {r : Reader} {b : Buffer} {outcome : Option ReadFailure} {c : Cursor}

/-- A request that is served is one of the deliveries. -/
theorem deals_request {n : Nat} {later : Reader} (h : r.Deals n later) {space : Nat}
    (hspace : leastSpace ≤ space) (k : Nat) :
    r.Deals (n + (answerData (request space k later).1).size) (request space k later).2 := by
  induction k generalizing n later with
  | zero => exact h
  | succ k ih =>
    have hread := h.read hspace
    have hdata : (answerData (later.read space).1).size = Reader.answerBytes (later.read space).1 := by
      cases (later.read space).1 <;> rfl
    unfold request
    generalize later.read space = x at hread hdata
    obtain ⟨answer, later'⟩ := x
    cases answer with
    | stalled => exact ih hread
    | delivered bytes => exact hread
    | failed message => exact hread

/-- The bytes up to the end of the buffer are what its reader has delivered, among them all that come
before offset `seen`. -/
def Draws (r : Reader) (seen : Nat) (b : Buffer) (c : Cursor) : Prop :=
  ∃ n, n + b.next = c.offset + b.stop ∧ seen ≤ n ∧ r.Deals n b.reader

/-- A new buffer draws on its reader from the start. -/
theorem draws_ofReader (r : Reader) (bytes : ByteArray) : Draws r 0 (ofReader r) (.ofBytes bytes) :=
  ⟨0, rfl, Nat.le_refl _, .start⟩

variable {seen : Nat}

/-- All bytes before the position have been delivered. -/
theorem Draws.past (h : Draws r seen b c) (ht : b.Tracks outcome c) : Draws r c.offset b c := by
  obtain ⟨n, hn, -, hdeals⟩ := h
  obtain ⟨before, held, ahead, ht⟩ := ht
  have hnext := ht.next_le
  exact ⟨n, hn, by omega, hdeals⟩

/-- How much has come before may be forgotten. -/
theorem Draws.mono (h : Draws r seen b c) : Draws r 0 b c := by
  obtain ⟨n, hn, -, hdeals⟩ := h
  exact ⟨n, hn, Nat.zero_le _, hdeals⟩

/-- What a growing buffer keeps leaves space enough. -/
theorem leastSpace_add_le_nextSize {n : Nat} (h : Growth.least ≤ n) :
    leastSpace + n ≤ Growth.nextSize n := by
  unfold Growth.nextSize Growth.grow
  unfold leastSpace Growth.least at *
  unfold Growth.largestDoubled
  split
  · omega
  · split <;> omega

variable {before held ahead : ByteArray}

/-- A filling asks for as much as is sure to fit. -/
theorem Holds.leastSpace_le (h : b.Holds outcome c before held ahead) (kept : Nat)
    (hk : kept ≤ b.stop) : leastSpace ≤ b.roomFor kept - 1 - kept := by
  have hleast := h.least_le
  have hstop := h.stop_lt
  have hgrow := leastSpace_add_le_nextSize hleast
  unfold roomFor
  unfold leastSpace Growth.least at *
  split <;> omega

/-- A refill takes what the reader delivers next. -/
theorem Draws.fill (h : Draws r seen b c) (ht : b.Tracks outcome c) :
    Draws r seen b.fill c := by
  obtain ⟨n, hn, hseen, hdeals⟩ := h
  obtain ⟨before, held, ahead, ht⟩ := ht
  have hkeep := ht.keepFrom_le
  have hnext := ht.next_le
  have hsize : (b.cells.extract b.keepFrom b.stop).size = b.stop - b.keepFrom := by
    rw [ht.cells_eq, ByteArray.size_extract, ByteArray.size_push, ht.stop_eq]
    omega
  have hspace := ht.leastSpace_le (b.cells.extract b.keepFrom b.stop).size (by rw [hsize]; omega)
  refine ⟨_, ?_, Nat.le_trans hseen (Nat.le_add_right ..), deals_request hdeals hspace requestsPerFill⟩
  unfold Buffer.fill
  dsimp only
  rw [ByteArray.size_append, hsize]
  omega

/-- Having enough bytes for a character takes what the reader delivers next. -/
theorem Draws.replenish (h : Draws r seen b c) (ht : b.Tracks outcome c) :
    Draws r seen b.replenish c := by
  fun_induction Buffer.replenish b with
  | case1 b hw ih =>
    have hp : b.pending? = none := by
      simp only [wantsMore, Bool.and_eq_true, Option.isNone_iff_eq_none] at hw
      exact hw.2
    have hfill := h.fill ht
    obtain ⟨before, held, ahead, ht⟩ := ht
    exact ih hfill (ht.fill hp)
  | case2 => exact h

/-- Taking a character takes nothing from the reader. -/
theorem Draws.take (h : Draws r seen b c) :
    Draws r seen b.take.2 { c with offset := c.offset + b.take.1.width } := by
  obtain ⟨n, hn, hseen, hdeals⟩ := h
  refine ⟨n, ?_, hseen, ?_⟩ <;> unfold Buffer.take
  · split
    · split <;> simp only [Fetched.width] <;> omega
    · split <;> exact hn
  · split
    · split <;> exact hdeals
    · split <;> exact hdeals

/-- A fetch takes what the reader delivers next. -/
theorem Draws.fetch (h : Draws r seen b c) (ht : b.Tracks outcome c) :
    Draws r seen b.fetch.2 { c with offset := c.offset + b.fetch.1.width } := by
  unfold Buffer.fetch
  cases hp : b.plain? with
  | some found =>
    obtain ⟨before, held, ahead, ht⟩ := ht
    obtain ⟨-, hwidth, -⟩ := ht.plain hp
    obtain ⟨n, hn, hseen, hdeals⟩ := h
    refine ⟨n, ?_, hseen, hdeals⟩
    simp only [hwidth]
    omega
  | none => exact (h.replenish ht).take

/-- Going back takes nothing from the reader. -/
theorem Draws.rewind (h : Draws r seen b c) (ht : b.Tracks outcome c) :
    Draws r seen (ByteWindow.rewind b) (ByteWindow.rewind c) := by
  obtain ⟨n, hn, hseen, hdeals⟩ := h
  obtain ⟨before, held, ahead, ht⟩ := ht
  refine ⟨n, ?_, hseen, hdeals⟩
  have hmark := ht.mark?_eq
  have hoffset := ht.offset_eq
  have hle := ht.mark_le
  change n + b.mark?.getD b.next = c.mark?.getD c.offset + b.stop
  rw [hmark]
  cases hb : b.mark? with
  | none => exact hn
  | some m =>
    have := hle m hb
    simp only [Option.map_some, Option.getD_some]
    omega

/-- A NUL that is taken for a character is one that may be, and is looked at for the first time. -/
theorem Draws.misses (h : Draws r seen b c) (ht : b.Tracks outcome c)
    (hf : b.fetch.1 = .char '\x00') (hs : b.fetch.1.Stands c.bytes c.offset) :
    r.Misses c.bytes c.offset ∧ seen ≤ c.offset := by
  obtain ⟨before, held, ahead, ht⟩ := ht
  have hdecode : c.bytes.utf8DecodeChar? c.offset = some '\x00' := by
    rw [hf] at hs
    cases hs with
    | char hd => exact hd
  have hi : c.offset < c.bytes.size :=
    ByteArray.lt_size_of_isSome_utf8DecodeChar? (by rw [hdecode]; rfl)
  have hzero : c.bytes[c.offset] = 0 := Utf8.getElem_of_utf8DecodeChar? hdecode rfl hi
  -- If the buffer held the byte, a plain look would have told it.
  have hused : ¬b.next < b.stop := by
    intro hn
    have hplain : b.plain? = some .nul := by
      unfold plain?
      rw [if_pos hn, ht.getElem?_cells hn hi, hzero]
      rfl
    unfold Buffer.fetch at hf
    rw [hplain] at hf
    cases hf
  have hnext := ht.next_le
  have hoffset := ht.offset_eq
  obtain ⟨n, hn, hseen, hdeals⟩ := h
  have hbreak : n = c.offset := by omega
  refine ⟨⟨⟨b.reader, hbreak ▸ hdeals⟩, fun j hj => ?_⟩, hbreak ▸ hseen⟩
  cases hu : Utf8.settled (c.bytes.extract j c.offset) with
  | true => rfl
  | false =>
    have hlt := ht.sighted c.offset j hi hj hj hu
    omega

end Buffer

end FrontEnd
