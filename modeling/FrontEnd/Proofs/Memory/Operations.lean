import FrontEnd.Proofs.Memory.Intact

/-!
# A source never leaves its memory

A character stream on a memory is secure (`CharStream.Secure`) if the memory is intact and the current
character, of which only the width is known, lies in it and behind the mark. Between two calls it always
is: to go on, to set or drop the mark, and to go back to it, as long as there is one. So from a new source
on no sequence of calls that goes back only to marks (`SourceCall.admits`) meets an access out of range,
and the stream that it is on is the one through the buffer (`Reader.calls_secure`).

During a call that is not so: a filling moves the position while the width is still that of the character
before. What every fetch relies on is therefore the memory alone, and the width comes in again with the
character that the fetch has found.
-/

namespace FrontEnd

namespace CharStream

/-- The stream through the buffer that is in the memory. -/
def buffered (s : CharStream Memory) : CharStream Buffer where
  window := s.window.toBuffer
  line := s.line
  column := s.column
  char? := s.char?
  width := s.width
  reports := s.reports

/-- The memory is intact, and the current character is in it, behind the mark. -/
structure Secure (s : CharStream Memory) : Prop where
  memory : s.window.Intact
  covers : s.window.Covers s.width

variable {s : CharStream Memory}

/-- Counting a character does not look at the memory. -/
theorem buffered_passChar (s : CharStream Memory) : s.passChar.buffered = s.buffered.passChar := by
  unfold passChar
  change (if s.char? = some '\n' then _ else _ : CharStream Memory).buffered =
    if s.char? = some '\n' then _ else _
  split <;> rfl

/-- What a memory delivers is what its buffer does. -/
theorem buffered_receive (s : CharStream Memory) (f : Fetched) (m : Memory) :
    (s.receive (f, m)).buffered = s.buffered.receive (f, m.toBuffer) := by
  have hfault : s.buffered.fault? f = s.fault? f := by cases f <;> rfl
  unfold receive
  dsimp only
  rw [hfault]
  cases s.fault? f <;> cases f <;> rfl

/-- Counting a character leaves its width. -/
theorem width_passChar (s : CharStream Memory) : s.passChar.width = s.width := by
  unfold passChar
  split <;> rfl

/-- Counting a character keeps a stream secure. -/
theorem Secure.passChar (h : s.Secure) : s.passChar.Secure := by
  have hwindow := s.window_passChar
  exact ⟨hwindow ▸ h.memory, by rw [hwindow, width_passChar]; exact h.covers⟩

/-- A search for the next character stays inside of the cells and ends as it does in the buffer. -/
theorem exists_seek? (h : s.window.Intact) :
    ∃ t, s.seek? = some t ∧ t.Secure ∧ t.buffered = s.buffered.seek := by
  -- The width is not carried along: it is right again with the character at which the search ends.
  generalize hb : s.buffered = b
  fun_induction CharStream.seek b generalizing s with
  | case1 b hp ih =>
    subst hb
    obtain ⟨m, hfetch, hbuffer, hintact, hcovers⟩ := h.exists_fetch?
    have hreceived : (s.receive (s.window.toBuffer.fetch.1, m)).buffered =
        s.buffered.receive s.window.toBuffer.fetch := by
      rw [buffered_receive, hbuffer]
    obtain ⟨t, hseek, hsecure, heq⟩ := ih (s := (s.receive (s.window.toBuffer.fetch.1, m)).passChar)
      (by rw [window_passChar, window_receive]; exact hintact) (by rw [buffered_passChar, hreceived]; rfl)
    have hless : m.remaining < s.window.remaining := by
      have hlt := s.window.toBuffer.remaining_fetch_lt (found_of_passedOver hp)
      rwa [← hbuffer] at hlt
    refine ⟨t, ?_, hsecure, heq⟩
    rw [seek?, hfetch]
    exact (if_pos hp).trans ((if_pos hless).trans hseek)
  | case2 b hp =>
    subst hb
    obtain ⟨m, hfetch, hbuffer, hintact, hcovers⟩ := h.exists_fetch?
    refine ⟨s.receive (s.window.toBuffer.fetch.1, m), ?_, ⟨?_, ?_⟩, ?_⟩
    · rw [seek?, hfetch]
      exact if_neg hp
    · rw [window_receive]
      exact hintact
    · rw [window_receive, width_receive]
      exact hcovers
    · rw [buffered_receive, hbuffer]
      rfl

/-- Going on is in range and does what it does through the buffer. -/
theorem Secure.exists_advance? (h : s.Secure) :
    ∃ t, s.advance? = some t ∧ t.Secure ∧ t.buffered = s.buffered.advance := by
  obtain ⟨t, hseek, hsecure, heq⟩ := exists_seek? h.passChar.memory
  exact ⟨t, hseek, hsecure, by rw [heq, buffered_passChar]; rfl⟩

/-- Setting the mark is in range and does what it does through the buffer. -/
theorem Secure.exists_setMark? (h : s.Secure) :
    ∃ t, s.setMark? = some t ∧ t.Secure ∧ t.buffered = s.buffered.setMark := by
  refine ⟨_, by rw [setMark?, minus?_of_le h.covers.width_le]; rfl, ⟨?_, ?_⟩, rfl⟩
  · refine ⟨?_, h.memory.next_le, h.memory.stop_lt, h.memory.sentinel, h.memory.least_dvd⟩
    rintro mark ⟨⟩
    exact Nat.sub_le ..
  · refine ⟨h.covers.width_le, ?_⟩
    rintro mark ⟨⟩
    exact Nat.le_of_eq (Nat.sub_add_cancel h.covers.width_le)

/-- Dropping the mark keeps a stream secure and does what it does through the buffer. -/
theorem Secure.dropMark (h : s.Secure) : s.dropMark.Secure ∧ s.dropMark.buffered = s.buffered.clearMark :=
  ⟨⟨⟨nofun, h.memory.next_le, h.memory.stop_lt, h.memory.sentinel, h.memory.least_dvd⟩,
    h.covers.width_le, nofun⟩, rfl⟩

/-- What is marked in a buffer. -/
theorem marked_buffer (s : CharStream Buffer) : s.marked = s.window.mark?.elim .empty fun mark =>
    s.window.cells.extract mark (s.window.next - s.width) := by
  rcases s with ⟨⟨_, _, _, _, _ | mark, _, _⟩, _, _, _, _, _⟩ <;> rfl

/-- The marked bytes are in the cells. -/
theorem Secure.marked?_eq (h : s.Secure) : s.marked? = some s.buffered.marked := by
  have hwidth := h.covers.width_le
  have hnext := h.memory.next_le
  have hstop := h.memory.stop_lt
  have hsame : s.buffered.window.mark? = s.window.mark? := rfl
  rw [marked_buffer, hsame, marked?]
  cases hmark : s.window.mark? with
  | none => rfl
  | some mark =>
    have hle := h.covers.mark_le mark hmark
    dsimp only [Option.elim_some]
    rw [minus?_of_le hwidth, Option.bind_eq_bind, Option.bind_some, slice?_of_le (by omega) (by omega)]
    exact congrArg some (Memory.extract_toBuffer (Nat.le_trans (Nat.sub_le ..) hnext)).symm

/-- Going back to a mark that is there is in range and does what it does through the buffer. -/
theorem Secure.exists_rewind? (h : s.Secure) (hmark : s.window.mark?.isSome) :
    ∃ t, s.rewind? = some t ∧ t.Secure ∧ t.buffered = s.buffered.rewind := by
  obtain ⟨mark, hmark⟩ := Option.isSome_iff_exists.mp hmark
  have hle := h.memory.mark_le mark hmark
  -- The state after the subtractions and before the advance, which is secure as well.
  let back : CharStream Memory := { s with
    window := { s.window with next := mark }
    column := s.column + s.width - (s.window.next - mark)
    width := 0 }
  have hself : ∀ m, s.window.mark? = some m → m ≤ mark := fun m hm =>
    Nat.le_of_eq (Option.some.inj (hm.symm.trans hmark))
  have hback : back.Secure :=
    ⟨⟨hself, Nat.le_trans hle h.memory.next_le, h.memory.stop_lt, h.memory.sentinel, h.memory.least_dvd⟩,
      Nat.zero_le _, hself⟩
  obtain ⟨t, hadvance, hsecure, heq⟩ := hback.exists_advance?
  refine ⟨t, ?_, hsecure, heq.trans (congrArg CharStream.advance ?_)⟩
  · unfold rewind?
    rw [hmark, Option.bind_eq_bind, Option.bind_some, minus?_of_le hle]
    exact hadvance
  · have hsame : s.window.mark?.getD s.window.next = mark := by rw [hmark, Option.getD_some]
    change buffered back = { s.buffered with
      window := { s.buffered.window with next := s.window.mark?.getD s.window.next }
      column := s.column + s.width - (s.window.next - s.window.mark?.getD s.window.next)
      width := 0 }
    rw [hsame]
    rfl

/-! ## Marks stay -/

/-- A filling moves the mark, and loses none. -/
theorem isSome_mark?_replenish (b : Buffer) : b.replenish.mark?.isSome = b.mark?.isSome := by
  fun_induction Buffer.replenish b with
  | case1 b _ ih =>
    rw [ih]
    exact Option.isSome_map
  | case2 b _ => rfl

/-- A fetch loses no mark. -/
theorem isSome_mark?_fetch (b : Buffer) : b.fetch.2.mark?.isSome = b.mark?.isSome := by
  unfold Buffer.fetch
  split
  · rfl
  · rw [← isSome_mark?_replenish b]
    unfold Buffer.take
    split
    · split <;> rfl
    · split <;> rfl

/-- Going on to the next character loses no mark. -/
theorem isSome_mark?_seek (s : CharStream Buffer) : s.seek.window.mark?.isSome = s.window.mark?.isSome := by
  fun_induction CharStream.seek s with
  | case1 s _ ih =>
    rw [ih, window_passChar, window_receive]
    exact isSome_mark?_fetch s.window
  | case2 s _ =>
    rw [window_receive]
    exact isSome_mark?_fetch s.window

/-- Passing the current character loses no mark. -/
theorem isSome_mark?_advance (s : CharStream Buffer) :
    s.advance.window.mark?.isSome = s.window.mark?.isSome := by
  rw [advance, isSome_mark?_seek, window_passChar]

/-- Going back to the mark loses it not. -/
theorem isSome_mark?_rewind (s : CharStream Buffer) :
    s.rewind.window.mark?.isSome = s.window.mark?.isSome := isSome_mark?_advance _

/-- The stream of a source that has not been asked for a character, at what stands before all. -/
def fresh {ω : Type} (window : ω) : CharStream ω where
  window
  line := 0
  column := 0
  char? := some ' '
  width := 0
  reports := #[]

/-- A new source is secure: its memory is intact, and there is no character yet. -/
theorem secure_fresh (r : Reader) : (fresh (Memory.ofReader r)).Secure :=
  ⟨Memory.intact_ofReader r, Nat.zero_le _, nofun⟩

/-- A new source has a new buffer. -/
theorem buffered_fresh (r : Reader) : (fresh (Memory.ofReader r)).buffered = fresh (Buffer.ofReader r) := by
  unfold buffered
  change { window := (Memory.ofReader r).toBuffer, .. : CharStream Buffer } = _
  rw [Memory.toBuffer_ofReader]
  rfl

/-- The first character is what comes next. -/
theorem advance_fresh {ω : Type} [ByteWindow ω] (window : ω) : (fresh window).advance = ofWindow window :=
  seek_with { window, line := 0, column := 0, char? := none, width := 0, reports := #[] } (some ' ') 0

end CharStream

/-- What is asked of a source. -/
inductive SourceCall where
  | next
  | start
  | stop
  | rewind
deriving DecidableEq

namespace SourceCall

/-- What a call does to a stream. -/
def apply : SourceCall → CharStream Buffer → CharStream Buffer
  | next, s => s.advance
  | start, s => s.setMark
  | stop, s => s.clearMark
  | rewind, s => s.rewind

/-- What a call does with every access checked. -/
def perform? : SourceCall → CharStream Memory → Option (CharStream Memory)
  | next, s => s.advance?
  | start, s => s.setMark?
  | stop, s => some s.dropMark
  | rewind, s => s.rewind?

/-- Whether all calls to go back come while there is a mark, which there is at first or not. -/
def admits : Bool → List SourceCall → Bool
  | _, [] => true
  | marked, next :: calls => admits marked calls
  | _, start :: calls => admits true calls
  | _, stop :: calls => admits false calls
  | marked, rewind :: calls => marked && admits marked calls

variable {c : SourceCall} {calls : List SourceCall} {marked : Bool} {s : CharStream Memory}

/-- A call that is admitted stays inside of the memory, and does what it does to the stream; those that
are admitted after it still are. -/
theorem exists_perform? (h : admits marked (c :: calls)) (hs : s.Secure)
    (hmarked : marked = true → s.window.mark?.isSome) :
    ∃ t marked', c.perform? s = some t ∧ t.Secure ∧ t.buffered = c.apply s.buffered ∧
      admits marked' calls ∧ (marked' = true → t.window.mark?.isSome) := by
  cases c with
  | next =>
    obtain ⟨t, happly, hsecure, heq⟩ := hs.exists_advance?
    refine ⟨t, marked, happly, hsecure, heq, h, fun hm => ?_⟩
    -- An advance keeps the mark where it is set, and setting or going back leaves one.
    have hkept := CharStream.isSome_mark?_advance s.buffered
    rw [← heq] at hkept
    exact hkept.trans (hmarked hm)
  | start =>
    obtain ⟨t, happly, hsecure, heq⟩ := hs.exists_setMark?
    refine ⟨t, true, happly, hsecure, heq, h, fun _ => ?_⟩
    rw [show t.window.mark? = s.buffered.setMark.window.mark? from congrArg (·.window.mark?) heq]
    rfl
  | stop => exact ⟨s.dropMark, false, rfl, hs.dropMark.1, hs.dropMark.2, h, nofun⟩
  | rewind =>
    obtain ⟨hm, hrest⟩ : marked = true ∧ admits marked calls = true := by
      rwa [admits, Bool.and_eq_true] at h
    obtain ⟨t, happly, hsecure, heq⟩ := hs.exists_rewind? (hmarked hm)
    refine ⟨t, marked, happly, hsecure, heq, hrest, fun _ => ?_⟩
    have hkept := CharStream.isSome_mark?_rewind s.buffered
    rw [← heq] at hkept
    exact hkept.trans (hmarked hm)

/-- All calls that are admitted stay inside of the memory. -/
theorem exists_foldlM_perform? (h : admits marked calls) (hs : s.Secure)
    (hmarked : marked = true → s.window.mark?.isSome) :
    ∃ t, calls.foldlM (fun s c => c.perform? s) s = some t ∧ t.Secure ∧
      t.buffered = calls.foldl (fun s c => c.apply s) s.buffered := by
  induction calls generalizing marked s with
  | nil => exact ⟨s, rfl, hs, rfl⟩
  | cons c calls ih =>
    obtain ⟨t, marked', happly, hsecure, heq, hrest, hmarked'⟩ := exists_perform? h hs hmarked
    obtain ⟨u, hfold, hsecure', heq'⟩ := ih hrest hsecure hmarked'
    refine ⟨u, ?_, hsecure', ?_⟩
    · rw [List.foldlM_cons, happly]
      exact hfold
    · rw [heq', heq, List.foldl_cons]

end SourceCall

namespace Reader

/-- Whatever a reader delivers and whatever is asked of a source, no access is out of range.

The calls come to a state, that is, no element, slice or difference of offsets among them is out of range,
every filling has offered some space to the reader, has kept what it had to keep and has brought a byte or
what comes after the bytes, and no loop goes on forever. In that state the mark is not behind the current
character, the character not behind the position, the position not behind the end of the bytes, and this
in the cells; the sentinel is there, and the cells are whole pages. The marked bytes can be cut out, and
the stream is that through the buffer. -/
theorem calls_secure (r : Reader) (calls : List SourceCall) (h : SourceCall.admits false calls) :
    ∃ s, calls.foldlM (fun s c => c.perform? s) (CharStream.fresh (Memory.ofReader r)) = some s ∧
      s.Secure ∧ s.marked? = some s.buffered.marked ∧
      s.buffered = calls.foldl (fun s c => c.apply s) (CharStream.fresh (Buffer.ofReader r)) := by
  obtain ⟨s, hfold, hsecure, heq⟩ := SourceCall.exists_foldlM_perform? h (CharStream.secure_fresh r) nofun
  exact ⟨s, hfold, hsecure, hsecure.marked?_eq, by rw [heq, CharStream.buffered_fresh]⟩

/-- A character in two deliveries, with a pause between them, to which the source goes back. -/
theorem calls_secure_pieces :
    let r : Reader := ⟨[.data "x".toUTF8, .stall, .data "é".toUTF8], some 1, .finished⟩
    let calls : List SourceCall := [.next, .next, .start, .next, .rewind]
    SourceCall.admits false calls ∧
      ∃ s, calls.foldlM (fun s c => c.perform? s) (CharStream.fresh (Memory.ofReader r)) = some s ∧
        s.Secure ∧ s.char? = some 'é' ∧ s.window.mark? = some 0 := by
  intro r calls
  have hadmits : SourceCall.admits false calls := by decide
  obtain ⟨s, hfold, hsecure, -, heq⟩ := calls_secure r calls hadmits
  have hchar : s.buffered.char? = some 'é' := by
    rw [heq]
    decide +kernel
  have hmark : s.buffered.window.mark? = some 0 := by
    rw [heq]
    decide +kernel
  exact ⟨hadmits, s, hfold, hsecure, hchar, hmark⟩

end Reader

end FrontEnd
