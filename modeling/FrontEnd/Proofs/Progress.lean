import FrontEnd.Bytes.Cursor
import FrontEnd.Proofs.Lexemes
import FrontEnd.Proofs.Lockstep

/-!
# Scanners get to the end

Every token takes a character, but for a separator at the end and the end itself. So scanning as often
as `Scanner.scans` does gets to the end of the input, whatever the bytes are (`Reader.complete_scans`).

The one step backwards is to the first of two dots. `Rewindable` says what a window must keep for it:
no bytes come back but those since the mark, and with a mark before the position there is something to
fetch at the mark.
-/

namespace FrontEnd

/-- A window that can go back to its mark. -/
class Rewindable (ω : Type) [ByteWindow ω] where
  /-- what the window keeps -/
  Intact : ω → Prop
  intact_fetch : ∀ {w : ω}, Intact w → Intact (ByteWindow.fetch w).2
  intact_setMark : ∀ {w : ω} back, Intact w → Intact (ByteWindow.setMark back w)
  intact_clearMark : ∀ {w : ω}, Intact w → Intact (ByteWindow.clearMark w)
  intact_rewind : ∀ {w : ω}, Intact w → Intact (ByteWindow.rewind w)
  /-- the bytes since the mark and those to come do not grow -/
  fetch_le : ∀ {w : ω}, Intact w →
    ByteWindow.remaining (ByteWindow.fetch w).2 + ByteWindow.sinceMark (ByteWindow.fetch w).2 ≤
      ByteWindow.remaining w + ByteWindow.sinceMark w
  setMark_le : ∀ {w : ω} back, Intact w →
    ByteWindow.remaining (ByteWindow.setMark back w) +
      ByteWindow.sinceMark (ByteWindow.setMark back w) ≤ ByteWindow.remaining w + back
  rewind_le : ∀ {w : ω}, Intact w →
    ByteWindow.remaining (ByteWindow.rewind w) ≤
      ByteWindow.remaining w + ByteWindow.sinceMark w
  /-- what comes after the mark can be fetched again -/
  found_rewind : ∀ {w : ω}, Intact w → 0 < ByteWindow.sinceMark w →
    (ByteWindow.fetch (ByteWindow.rewind w)).1.found

open Rewindable (Intact)

namespace Cursor

/-- The cursor and its mark are within the bytes. -/
structure Within (c : Cursor) : Prop where
  offset_le : c.offset ≤ c.bytes.size
  mark_le : c.mark?.getD c.offset ≤ c.offset

/-- A fetch only moves the offset. -/
theorem exists_fetch (c : Cursor) (h : c.Within) : ∃ n, c.fetch.2 = { c with offset := c.offset + n } ∧
    c.offset + n ≤ c.bytes.size := by
  have ho := h.offset_le
  unfold fetch
  split
  · split
    · next ch hd => exact ⟨ch.utf8Size, rfl, ByteArray.le_size_of_utf8DecodeChar?_eq_some hd⟩
    · exact ⟨1, rfl, by omega⟩
  · exact ⟨0, rfl, ho⟩

/-- A cursor that is not at the end finds something there. -/
theorem found_fetch {c : Cursor} (h : c.offset < c.bytes.size) : c.fetch.1.found := by
  unfold fetch
  rw [if_pos h]
  split
  · unfold ofChar
    split <;> rfl
  · rfl

/-- A mark that is not behind an offset is not behind a later one. -/
theorem getD_mark_le {mark? : Option Nat} {i j : Nat} (h : mark?.getD i ≤ i) (hij : i ≤ j) :
    mark?.getD j ≤ j := by
  cases mark? with
  | none => exact Nat.le_refl j
  | some m => exact Nat.le_trans h hij

instance : Rewindable Cursor where
  Intact := Within
  intact_fetch := by
    intro c h
    obtain ⟨n, hn, hle⟩ := exists_fetch c h
    change c.fetch.2.Within
    rw [hn]
    exact ⟨hle, getD_mark_le h.mark_le (Nat.le_add_right ..)⟩
  intact_setMark back h := ⟨h.offset_le, Nat.sub_le ..⟩
  intact_clearMark h := ⟨h.offset_le, Nat.le_refl _⟩
  intact_rewind := by
    intro c h
    refine ⟨Nat.le_trans h.mark_le h.offset_le, ?_⟩
    change c.mark?.getD (c.mark?.getD c.offset) ≤ c.mark?.getD c.offset
    cases c.mark? <;> exact Nat.le_refl _
  fetch_le := by
    -- What is left and what lies behind the mark, taken together: a fetch moves bytes from the one to the other.
    intro c h
    obtain ⟨n, hn, hle⟩ := exists_fetch c h
    change c.fetch.2.bytes.size - c.fetch.2.offset +
      (c.fetch.2.offset - c.fetch.2.mark?.getD c.fetch.2.offset) ≤
      c.bytes.size - c.offset + (c.offset - c.mark?.getD c.offset)
    have hm := h.mark_le
    rw [hn]
    dsimp only
    cases hc : c.mark? with
    | none =>
      simp only [Option.getD_none]
      omega
    | some m =>
      rw [hc] at hm
      simp only [Option.getD_some] at hm ⊢
      omega
  setMark_le := by
    intro c back h
    change c.bytes.size - c.offset + (c.offset - (c.offset - back)) ≤ c.bytes.size - c.offset + back
    omega
  rewind_le := by
    intro c h
    change c.bytes.size - c.mark?.getD c.offset ≤
      c.bytes.size - c.offset + (c.offset - c.mark?.getD c.offset)
    omega
  found_rewind := by
    intro c h hs
    have ho := h.offset_le
    change 0 < c.offset - c.mark?.getD c.offset at hs
    apply found_fetch
    change c.mark?.getD c.offset < c.bytes.size
    omega

end Cursor

namespace Buffer

/-- The position and the mark of the buffer are among its cells. -/
structure Within (b : Buffer) : Prop where
  next_le : b.next ≤ b.stop
  stop_le : b.stop ≤ b.cells.size
  mark_le : b.keepFrom ≤ b.next

/-- The number of bytes since the mark and those to come. -/
def fromMark (b : Buffer) : Nat := b.remaining + (b.next - b.keepFrom)

/-- A refill moves the bytes that are kept to the front and keeps all of them. -/
theorem keepFrom_fill (b : Buffer) :
    b.fill.keepFrom ≤ b.fill.next ∧ b.fill.next - b.fill.keepFrom = b.next - b.keepFrom := by
  change (b.mark?.map fun _ => 0).getD (b.next - b.keepFrom) ≤ b.next - b.keepFrom ∧
    b.next - b.keepFrom - (b.mark?.map fun _ => 0).getD (b.next - b.keepFrom) = b.next - b.keepFrom
  unfold keepFrom at *
  cases hm : b.mark? with
  | none => simp
  | some m => simp

/-- Filling keeps the bytes after the position, and the distance to the mark. -/
theorem stop_fill {b : Buffer} (h : b.Within) : b.stop - b.next ≤ b.fill.stop - b.fill.next ∧
    b.fill.next ≤ b.fill.stop ∧ b.fill.stop ≤ b.fill.cells.size := by
  have hn := h.next_le
  have hs := h.stop_le
  have hk := h.mark_le
  unfold fill
  dsimp only
  rw [ByteArray.size_push, ByteArray.size_append, ByteArray.size_extract]
  omega

/-- A refill keeps position and mark among the cells. -/
theorem within_fill {b : Buffer} (h : b.Within) : b.fill.Within :=
  ⟨(stop_fill h).2.1, (stop_fill h).2.2, b.keepFrom_fill.1⟩

/-- Having enough bytes for a character takes none and finds some if there were any. -/
theorem within_replenish {b : Buffer} (h : b.Within) : b.replenish.Within ∧
    b.replenish.fromMark ≤ b.fromMark ∧ (b.next < b.stop → b.replenish.next < b.replenish.stop) := by
  fun_induction Buffer.replenish b with
  | case1 b _ ih =>
    obtain ⟨hw, hm, hn⟩ := ih (within_fill h)
    have hkeep := b.keepFrom_fill.2
    have hstop := (stop_fill h).1
    have hle := b.remaining_fill_le
    refine ⟨hw, ?_, fun hlt => hn (by omega)⟩
    unfold fromMark at hm ⊢
    omega
  | case2 b _ => exact ⟨h, Nat.le_refl _, id⟩

/-- A take moves the position on among the cells. -/
theorem exists_take {b : Buffer} (h : b.Within) : ∃ n pending?,
    b.take.2 = { b with next := b.next + n, pending? } ∧ b.next + n ≤ b.stop ∧
      (b.next < b.stop → b.take.1.found) := by
  have hn := h.next_le
  unfold take
  split
  · next hlt =>
    split
    · next c hd =>
      have := ByteArray.le_size_of_utf8DecodeChar?_eq_some hd
      rw [ByteArray.size_extract] at this
      exact ⟨c.utf8Size, b.pending?, rfl, by omega, fun _ => rfl⟩
    · exact ⟨1, b.pending?, rfl, hlt, fun _ => rfl⟩
  · split
    · exact ⟨0, none, rfl, hn, fun hlt => by omega⟩
    · exact ⟨0, b.pending?, rfl, hn, fun hlt => by omega⟩

/-- Bytes are taken behind the mark. -/
theorem keepFrom_step {b : Buffer} {n : Nat} {pending? : Option Pending} (h : b.keepFrom ≤ b.next) :
    keepFrom { b with next := b.next + n, pending? } ≤ b.next + n := by
  unfold keepFrom at *
  cases hm : b.mark? with
  | none => exact Nat.le_refl _
  | some m =>
    rw [hm] at h
    exact Nat.le_trans h (Nat.le_add_right ..)

/-- A step over bytes that the buffer holds. -/
theorem within_step {b : Buffer} (h : b.Within) (n : Nat) (pending? : Option Pending)
    (hn : b.next + n ≤ b.stop) :
    Within { b with next := b.next + n, pending? } ∧
      fromMark { b with next := b.next + n, pending? } ≤ b.fromMark := by
  refine ⟨⟨hn, h.stop_le, keepFrom_step h.mark_le⟩, ?_⟩
  have hk := h.mark_le
  unfold fromMark remaining keepFrom at *
  cases hm : b.mark? with
  | none =>
    simp only [Option.getD_none]
    omega
  | some m =>
    rw [hm] at hk
    simp only [Option.getD_some] at hk ⊢
    omega

/-- What is taken without decoding is a character. -/
theorem found_of_plain? {b : Buffer} {found : Fetched} (h : b.plain? = some found) : found.found := by
  unfold plain? at h
  split at h
  · split at h
    · split at h
      · cases h
        unfold ofByte
        split <;> rfl
      · cases h
    · cases h
  · cases h

/-- Going back to the mark stays among the cells. -/
theorem within_rewind {b : Buffer} (h : b.Within) : Within { b with next := b.keepFrom } := by
  refine ⟨Nat.le_trans h.mark_le h.next_le, h.stop_le, ?_⟩
  change b.mark?.getD (b.mark?.getD b.next) ≤ b.mark?.getD b.next
  cases b.mark? <;> exact Nat.le_refl _

/-- Fetching a character keeps position and mark among the cells, brings no bytes back, and finds something if
there is any. -/
theorem within_fetch {b : Buffer} (h : b.Within) :
    b.fetch.2.Within ∧ b.fetch.2.fromMark ≤ b.fromMark ∧ (b.next < b.stop → b.fetch.1.found) := by
  unfold fetch
  split
  · next found hp =>
    obtain ⟨hw, hm⟩ := within_step h 1 b.pending? (lt_stop_of_plain? hp)
    exact ⟨hw, hm, fun _ => found_of_plain? hp⟩
  · obtain ⟨hw, hm, hlt⟩ := within_replenish h
    obtain ⟨n, pending?, ht, hn, hfound⟩ := exists_take hw
    obtain ⟨hw', hm'⟩ := within_step hw n pending? hn
    rw [ht]
    exact ⟨hw', Nat.le_trans hm' hm, fun h => hfound (hlt h)⟩

instance : Rewindable Buffer where
  Intact := Within
  intact_fetch h := (within_fetch h).1
  intact_setMark back h := ⟨h.next_le, h.stop_le, Nat.sub_le ..⟩
  intact_clearMark h := ⟨h.next_le, h.stop_le, Nat.le_refl _⟩
  intact_rewind h := within_rewind h
  fetch_le h := (within_fetch h).2.1
  setMark_le := by
    intro b back h
    change b.remaining + (b.next - (b.next - back)) ≤ b.remaining + back
    omega
  rewind_le := by
    intro b h
    change b.stop - b.mark?.getD b.next + b.reader.bytesLeft ≤
      b.stop - b.next + b.reader.bytesLeft + (b.next - b.mark?.getD b.next)
    omega
  found_rewind := by
    intro b h hs
    have hn := h.next_le
    change 0 < b.next - b.keepFrom at hs
    refine (within_fetch (within_rewind h)).2.2 ?_
    change b.keepFrom < b.stop
    omega

end Buffer

namespace CharStream

variable {ω : Type} [ByteWindow ω]

/-! ## Going forward -/

/-- Going forward brings no characters back. -/
theorem forward_remaining_le (start : Place) (k : Nat) :
    Forward start fun s t : CharStream ω => s = t ∧ s.remaining ≤ k :=
  .of_invariant start (fun h => Nat.le_trans (remaining_advance_le _) h) (fun _ h => h) fun h => by
    rwa [remaining_clearMark]

/-- A run of digits that starts with one takes it. -/
theorem remaining_digits_lt {s : CharStream ω} {c : Char} (hc : s.char? = some c) (hd : c.isDigit) :
    (s.digits .decimal .none).2.remaining < s.remaining := by
  have hlt := s.remaining_advance_lt (by rw [hc]; rfl)
  have hle (run : DigitRun) := ((forward_remaining_le s.place s.advance.remaining).digits .decimal run
    ⟨rfl, Nat.le_refl _⟩).2.2
  have hvalue : Radix.digit? .decimal c = some (c.toNat - '0'.toNat) := if_pos hd
  rw [digits_eq, hc]
  dsimp only
  split
  · exact Nat.lt_of_le_of_lt (hle _) hlt
  · rw [hvalue]
    exact Nat.lt_of_le_of_lt (hle _) hlt

/-- A fraction takes no bytes back. -/
theorem remaining_fraction_le (start : Place) (s : CharStream ω) :
    (s.fraction start).2.remaining ≤ s.remaining :=
  ((forward_remaining_le start s.remaining).fraction ⟨rfl, Nat.le_refl _⟩).2.2

/-- A number takes its first digit. -/
theorem remaining_number_lt {s : CharStream ω} {c : Char} (start : Place) (hc : s.char? = some c)
    (hd : c.isDigit) : (s.number start).2.remaining < s.remaining := by
  have hlt := s.remaining_advance_lt (by rw [hc]; rfl)
  have hle := forward_remaining_le (ω := ω) start s.advance.remaining
  have hdecimal : (s.decimal start).2.remaining < s.remaining := by
    have hdigits := remaining_digits_lt hc hd
    have hk := forward_remaining_le (ω := ω) start (s.digits .decimal .none).2.remaining
    unfold decimal
    dsimp only
    split
    · exact Nat.lt_of_le_of_lt (hk.fraction (hk.goOn ⟨rfl, Nat.le_refl _⟩)).2.2 hdigits
    · exact Nat.lt_of_le_of_lt (hk.exponent .int ⟨rfl, Nat.le_refl _⟩).2.2 hdigits
  unfold number
  split
  · split
    · exact Nat.lt_of_le_of_lt (hle.markedInteger _ (hle.goOn ⟨rfl, Nat.le_refl _⟩)).2.2 hlt
    · exact Nat.lt_of_le_of_lt (hle.decimal ⟨rfl, Nat.le_refl _⟩).2.2 hlt
  · exact hdecimal

/-! ## Going back -/

section

variable [Rewindable ω]

/-- The window can go back, and the width is that of the current character. -/
structure Sound (s : CharStream ω) : Prop where
  intact : Intact s.window
  width_eq : ∀ c, s.char? = some c → s.width = c.utf8Size

/-- What a window delivers leaves a sound stream, unless it is passed over. -/
theorem sound_receive (s : CharStream ω) {fetched : Fetched × ω} (hw : Intact fetched.2)
    (hp : ¬passedOver fetched.1) : (s.receive fetched).Sound := by
  obtain ⟨f, w⟩ := fetched
  refine ⟨by rwa [window_receive], ?_⟩
  unfold receive
  cases f with
  | char c =>
    dsimp only
    split <;> rintro _ ⟨⟩ <;> rfl
  | nul => exact absurd rfl hp
  | malformed => exact absurd rfl hp
  | finished failure? =>
    dsimp only
    split <;> rintro _ ⟨⟩

/-- Going on to the next character leaves a sound stream. -/
theorem sound_seek {s : CharStream ω} (h : Intact s.window) : s.seek.Sound := by
  fun_induction seek s with
  | case1 s hp ih =>
    apply ih
    rw [window_passChar, window_receive]
    exact Rewindable.intact_fetch h
  | case2 s hp => exact s.sound_receive (Rewindable.intact_fetch h) hp

/-- Passing the current character leaves a sound stream. -/
theorem sound_advance {s : CharStream ω} (h : Intact s.window) : s.advance.Sound :=
  sound_seek (by rwa [window_passChar])

/-- Whatever a scanner does to a sound stream, it stays sound. -/
theorem lockstep_sound : Lockstep fun s t : CharStream ω => s = t ∧ s.Sound where
  toForward start := .of_invariant start (fun h => sound_advance h.intact)
    (fun _ h => ⟨h.intact, h.width_eq⟩) fun h => ⟨Rewindable.intact_clearMark h.intact, h.width_eq⟩
  reports_eq h := congrArg CharStream.reports h.1
  setMark := by
    rintro s _ ⟨rfl, h⟩
    exact ⟨rfl, Rewindable.intact_setMark _ h.intact, h.width_eq⟩
  rewind := by
    rintro s _ ⟨rfl, h⟩
    exact ⟨rfl, sound_advance (Rewindable.intact_rewind h.intact)⟩
  dropReports := by
    rintro s _ ⟨rfl, h⟩
    exact ⟨rfl, h.intact, h.width_eq⟩

/-- The number of bytes since the mark and those to come. -/
def fromMark (s : CharStream ω) : Nat :=
  ByteWindow.remaining s.window + ByteWindow.sinceMark s.window

/-- Going on to the next character brings no bytes back, counted from the mark. -/
theorem fromMark_seek_le {s : CharStream ω} (h : Intact s.window) : s.seek.fromMark ≤ s.fromMark := by
  fun_induction seek s with
  | case1 s hp ih =>
    have hf := Rewindable.fetch_le h
    have hw : (s.receive (ByteWindow.fetch s.window)).passChar.window =
        (ByteWindow.fetch s.window).2 := by
      rw [window_passChar, window_receive]
    have := ih (hw ▸ Rewindable.intact_fetch h)
    unfold fromMark at this ⊢
    rw [hw] at this
    omega
  | case2 s hp =>
    unfold fromMark
    rw [window_receive]
    exact Rewindable.fetch_le h

/-- Passing the current character brings no bytes back, counted from the mark. -/
theorem fromMark_advance_le {s : CharStream ω} (h : Intact s.window) :
    s.advance.fromMark ≤ s.fromMark := by
  have := fromMark_seek_le (s := s.passChar) (by rwa [window_passChar])
  unfold fromMark at this ⊢
  rwa [window_passChar] at this

omit [Rewindable ω] in
/-- Two steps take a character that the first of them finds. -/
theorem remaining_advance_seek_lt {s : CharStream ω} (h : (ByteWindow.fetch s.window).1.found) :
    s.seek.advance.remaining < ByteWindow.remaining s.window := by
  have hlt := ByteWindow.remaining_fetch_lt s.window h
  have hle := s.seek.remaining_advance_le
  rw [seek] at hle ⊢
  split at hle
  · next hp =>
    have := (s.receive (ByteWindow.fetch s.window)).passChar.remaining_seek_le
    rw [window_passChar, window_receive] at this
    rw [if_pos hp]
    omega
  · next hp =>
    rw [if_neg hp]
    have hsome : (s.receive (ByteWindow.fetch s.window)).char?.isSome := by
      rwa [isSome_char?_receive]
    exact Nat.lt_of_lt_of_le (remaining_advance_lt _ hsome) s.remaining_receive_le

/-- Going back to the mark and on from there gets past the mark, or past the place before. -/
theorem remaining_advance_rewind_lt {s : CharStream ω} {k : Nat} (h : Intact s.window)
    (hmark : s.fromMark ≤ k) (hs : ByteWindow.remaining s.window < k) :
    s.rewind.advance.remaining < k := by
  have hr := Rewindable.rewind_le h
  unfold fromMark at hmark
  -- If bytes are given back the next advance takes one of them; if none are, it has not gone back at all.
  by_cases hsince : 0 < ByteWindow.sinceMark s.window
  · have hfound := Rewindable.found_rewind h hsince
    have := remaining_advance_seek_lt
      (s := passChar
        { s with
          window := ByteWindow.rewind s.window
          column := s.column + s.width - ByteWindow.sinceMark s.window
          width := 0 })
      (by rwa [window_passChar])
    rw [window_passChar] at this
    exact Nat.lt_of_lt_of_le this (Nat.le_trans hr hmark)
  · have hle := s.rewind.remaining_advance_le
    have : s.rewind.remaining ≤ ByteWindow.remaining (ByteWindow.rewind s.window) := by
      unfold rewind advance
      refine Nat.le_trans (remaining_seek_le _) (Nat.le_of_eq ?_)
      exact congrArg ByteWindow.remaining (window_passChar _)
    omega

end

end CharStream

namespace Scanner

variable {ω : Type} [ByteWindow ω] {s : CharStream ω}

/-! ## Tokens take characters -/

/-- An operator that may be joined with `=` brings no bytes back. -/
theorem remaining_assignable_le (l : Lexeme) (op : Operator) (s : CharStream ω) :
    (assignable l op s).stream.remaining ≤ s.remaining :=
  ((CharStream.forward_remaining_le l.place s.remaining).assignable l op ⟨rfl, Nat.le_refl _⟩).2.2

/-- A word takes a character. -/
theorem remaining_word_lt (l : Lexeme) (hs : s.char?.isSome) :
    (word l s).stream.remaining < s.remaining :=
  Nat.lt_of_le_of_lt (s.advance.remaining_skipWhile_le _) (s.remaining_advance_lt hs)

/-- What starts with a colon takes a character. -/
theorem remaining_colon_lt (l : Lexeme) (hs : s.char?.isSome) :
    (colon l s).stream.remaining < s.remaining := by
  have h₁ := s.remaining_advance_lt hs
  have h₂ := s.advance.remaining_advance_le
  unfold colon
  dsimp only
  split <;> dsimp only <;> omega

/-- What starts with a sign takes a character. -/
theorem remaining_sign_lt (l : Lexeme) (c : Char) (op : Operator) (hs : s.char?.isSome) :
    (sign l c op s).stream.remaining < s.remaining := by
  have h₁ := s.remaining_advance_lt hs
  have h₂ := s.advance.remaining_advance_le
  have h₃ := remaining_assignable_le l op s.advance
  unfold sign
  dsimp only
  split
  · dsimp only
    omega
  · omega

/-- What starts with a star takes a character. -/
theorem remaining_star_lt (l : Lexeme) (hs : s.char?.isSome) :
    (star l s).stream.remaining < s.remaining := by
  have h₁ := s.remaining_advance_lt hs
  have h₂ := s.advance.remaining_advance_le
  unfold star
  dsimp only
  split <;> dsimp only <;> omega

/-- What starts with an ampersand takes a character. -/
theorem remaining_ampersand_lt (l : Lexeme) (hs : s.char?.isSome) :
    (ampersand l s).stream.remaining < s.remaining := by
  have h₁ := s.remaining_advance_lt hs
  have h₂ := s.advance.remaining_advance_le
  have h₃ := remaining_assignable_le l .andNot s.advance.advance
  have h₄ := remaining_assignable_le l .and s.advance
  unfold ampersand
  dsimp only
  split
  · dsimp only
    omega
  · split <;> omega

/-- What starts with a bar takes a character. -/
theorem remaining_bar_lt (l : Lexeme) (hs : s.char?.isSome) :
    (bar l s).stream.remaining < s.remaining := by
  have h₁ := s.remaining_advance_lt hs
  have h₂ := s.advance.remaining_advance_le
  have h₃ := remaining_assignable_le l .or s.advance
  unfold bar
  dsimp only
  split
  · dsimp only
    omega
  · omega

/-- What starts with an angle bracket takes a character. -/
theorem remaining_angle_lt (l : Lexeme) (c : Char) (strict loose shift : Operator)
    (hs : s.char?.isSome) : (angle l c strict loose shift s).stream.remaining < s.remaining := by
  have h₁ := s.remaining_advance_lt hs
  have h₂ := s.advance.remaining_advance_le
  have h₃ := remaining_assignable_le l shift s.advance.advance
  unfold angle
  dsimp only
  split
  · dsimp only
    omega
  · split
    · omega
    · exact h₁

/-- What starts with an equals sign takes a character. -/
theorem remaining_equals_lt (l : Lexeme) (hs : s.char?.isSome) :
    (equals l s).stream.remaining < s.remaining := by
  have h₁ := s.remaining_advance_lt hs
  have h₂ := s.advance.remaining_advance_le
  unfold equals
  dsimp only
  split <;> dsimp only <;> omega

/-- What starts with an exclamation mark takes a character. -/
theorem remaining_exclamation_lt (l : Lexeme) (hs : s.char?.isSome) :
    (exclamation l s).stream.remaining < s.remaining := by
  have h₁ := s.remaining_advance_lt hs
  have h₂ := s.advance.remaining_advance_le
  unfold exclamation
  dsimp only
  split <;> dsimp only <;> omega

/-- A slash that starts a token takes a character. -/
theorem remaining_of_slash_eq_found {separable : Bool} {l : Lexeme} {x : Scanner ω}
    (h : slash separable l s = .found x) (hs : s.char?.isSome) :
    x.stream.remaining < s.remaining := by
  have h₁ := s.remaining_advance_lt hs
  have h₂ := s.advance.remaining_advance_le
  have h₃ := s.advance.advance.remaining_blockComment_le l.place
  have h₄ := remaining_assignable_le l .div s.advance
  unfold slash at h
  dsimp only at h
  split at h
  · cases h
  · split at h
    · split at h
      · cases h
        dsimp only
        omega
      · cases h
    · cases h
      omega

/-- A dot takes a character, even where the scanner goes back to it: what comes back has been counted from the
mark. -/
theorem remaining_dot_lt [Rewindable ω] (l : Lexeme) (hs : s.char?.isSome)
    (hw : Rewindable.Intact s.window) (hm : s.fromMark ≤ s.remaining) :
    (dot l s).stream.remaining < s.remaining := by
  have h₁ := s.remaining_advance_lt hs
  have h₂ := s.advance.remaining_advance_le
  have h₃ := s.advance.remaining_fraction_le l.place
  have h₄ := s.advance.advance.remaining_advance_le
  unfold dot
  dsimp only
  split
  · exact Nat.lt_of_le_of_lt h₃ h₁
  · split
    · split
      · dsimp only
        omega
      · have hw₁ := (CharStream.sound_advance hw).intact
        have hw₂ := (CharStream.sound_advance hw₁).intact
        -- Going back may give bytes back, but no more than down to the mark, which `hm` bounds.
        refine CharStream.remaining_advance_rewind_lt hw₂ ?_ ?_
        · have hm₁ := CharStream.fromMark_advance_le hw
          have hm₂ := CharStream.fromMark_advance_le hw₁
          omega
        · have : ByteWindow.remaining s.advance.advance.window ≤ s.advance.advance.remaining :=
            Nat.le_add_right ..
          omega
    · exact h₁

/-- Whatever token an attempt finds takes a character. -/
theorem remaining_of_attemptAt_eq_found [Rewindable ω] {separable : Bool} {l : Lexeme} {c : Char}
    {x : Scanner ω} (h : attemptAt separable l c s = .found x) (hc : s.char? = some c)
    (hw : Rewindable.Intact s.window) (hm : c = '.' → s.fromMark ≤ s.remaining) :
    x.stream.remaining < s.remaining := by
  have hs : s.char?.isSome := by rw [hc]; rfl
  have h₁ := s.remaining_advance_lt hs
  have hk := CharStream.forward_remaining_le (ω := ω) l.place s.advance.remaining
  unfold attemptAt at h
  -- Form by form, in the order of `attemptAt`; the dot alone needs what is known of the mark.
  split at h
  · cases h
    exact remaining_word_lt l hs
  · split at h
    · next hd =>
      cases h
      exact CharStream.remaining_number_lt l.place hc hd
    · split at h
      case h_1 => cases h; exact h₁
      case h_2 => cases h; exact h₁
      case h_3 => cases h; exact Nat.lt_of_le_of_lt (hk.stringRest _ ⟨rfl, Nat.le_refl _⟩).2.2 h₁
      case h_4 => cases h; exact Nat.lt_of_le_of_lt (hk.rawStringRest ⟨rfl, Nat.le_refl _⟩).2.2 h₁
      case h_5 => cases h; exact Nat.lt_of_le_of_lt (hk.runeRest _ _ ⟨rfl, Nat.le_refl _⟩).2.2 h₁
      case h_6 => cases h; exact remaining_colon_lt l hs
      case h_7 => cases h; exact remaining_dot_lt l hs hw (hm rfl)
      case h_8 => cases h; exact remaining_sign_lt l '+' .add hs
      case h_9 => cases h; exact remaining_sign_lt l '-' .sub hs
      case h_10 => cases h; exact remaining_star_lt l hs
      case h_11 => exact remaining_of_slash_eq_found h hs
      case h_12 => cases h; exact Nat.lt_of_le_of_lt (remaining_assignable_le l .rem _) h₁
      case h_13 => cases h; exact remaining_ampersand_lt l hs
      case h_14 => cases h; exact remaining_bar_lt l hs
      case h_15 => cases h; exact Nat.lt_of_le_of_lt (remaining_assignable_le l .xor _) h₁
      case h_16 => cases h; exact remaining_angle_lt l '<' .less .lessEqual .shiftLeft hs
      case h_17 => cases h; exact remaining_angle_lt l '>' .greater .greaterEqual .shiftRight hs
      case h_18 => cases h; exact remaining_equals_lt l hs
      case h_19 => cases h; exact remaining_exclamation_lt l hs
      case h_20 =>
        split at h
        · cases h
          exact h₁
        · cases h

variable [Rewindable ω]

/-- An attempt finds a token that takes a character, or it has come to the end. -/
theorem progress_attempt {separable : Bool} {l : Lexeme} {x : Scanner ω} (hs : s.Sound)
    (h : attempt separable l s = .found x) :
    x.stream.remaining < s.remaining ∨
      x.stream = toToken separable s ∧ x.stream.char? = none ∧ x.lexeme.token = if separable then .semi else .eof := by
  have hle := remaining_toToken_le separable s
  have hforward := CharStream.lockstep_sound.toForward (ω := ω) s.place
  have hskip := (hforward.skipWhile (isBlank separable) (hforward.clearMark ⟨rfl, hs⟩)).2
  have hsound := (CharStream.lockstep_sound.setMark ⟨rfl, hskip⟩).2
  have hmark := Rewindable.setMark_le (s.clearMark.skipWhile (isBlank separable)).width hskip.intact
  unfold attempt at h
  dsimp only at h
  split at h
  · next c hc =>
    left
    refine Nat.lt_of_lt_of_le (remaining_of_attemptAt_eq_found h hc hsound.intact ?_) hle
    rintro rfl
    -- A dot takes a single byte, so the bytes since the mark are as many as the characters.
    have hwidth : (s.clearMark.skipWhile (isBlank separable)).width = 1 := hskip.width_eq '.' hc
    rw [hwidth] at hmark
    unfold CharStream.remaining CharStream.fromMark
    rw [hc]
    unfold toToken CharStream.setMark
    dsimp only
    rw [hwidth, ByteWindow.remaining_setMark] at *
    exact hmark
  · next hc =>
    right
    cases h
    refine ⟨rfl, hc, ?_⟩
    split <;> rfl

/-- An attempt gets nothing back. -/
theorem remaining_attempt_le (separable : Bool) (l : Lexeme) (hs : s.Sound) :
    (attempt separable l s).stream.remaining ≤ s.remaining := by
  cases ha : attempt separable l s with
  | found x =>
    rcases progress_attempt hs ha with hlt | ⟨hend, -⟩
    · exact Nat.le_of_lt hlt
    · change x.stream.remaining ≤ s.remaining
      rw [hend]
      exact remaining_toToken_le separable s
  | passed t => exact Nat.le_of_lt (remaining_of_attempt_eq_passed ha)

/-- The next token takes a character, or it has come to the end. -/
theorem progress_find (separable : Bool) (l : Lexeme) (hs : s.Sound) :
    (find separable l s).stream.remaining < s.remaining ∨
      (find separable l s).stream.char? = none ∧
        (find separable l s).lexeme.token = if separable then .semi else .eof := by
  induction hn : s.remaining using Nat.strongRecOn generalizing s with
  | ind n ih =>
    subst hn
    have hsound := CharStream.lockstep_sound.attempt separable l ⟨rfl, hs⟩
    rw [find_eq]
    cases ha : attempt separable l s with
    | found x => exact (progress_attempt hs ha).imp_right And.right
    | passed s' =>
      have hlt := remaining_of_attempt_eq_passed ha
      rw [ha] at hsound
      cases hsound with
      | passed hs' =>
        rcases ih _ hlt hs'.2 rfl with h | h
        · exact .inl (Nat.lt_trans h hlt)
        · exact .inr h

/-! ## Scans -/

/-- A bound on the number of tokens to come: at the end, there is only the end itself, perhaps after a
separator. -/
def toGo (s : Scanner ω) : Nat :=
  if s.stream.char?.isSome then s.stream.remaining + 2
  else if s.lexeme.endsStatement then 2 else 1

omit [Rewindable ω] in
/-- There are no more tokens to come than characters, but for a separator and the end. -/
theorem toGo_le (s : Scanner ω) : s.toGo ≤ s.stream.remaining + 2 := by
  unfold toGo
  split
  · exact Nat.le_refl _
  · split <;> omega

/-- A sound scanner stays sound. -/
theorem sound_next {s : Scanner ω} (hs : s.stream.Sound) : s.next.stream.Sound := by
  have hstep : s.InStep (fun s t => s = t ∧ s.Sound) s := ⟨rfl, rfl, hs⟩
  exact (CharStream.lockstep_sound.next hstep).2.2

/-- Forgetting the reports leaves a sound stream. -/
theorem sound_dropReports {s : Scanner ω} (hs : s.stream.Sound) : s.dropReports.stream.Sound :=
  (CharStream.lockstep_sound.dropReports ⟨rfl, hs⟩).2

omit [Rewindable ω] in
/-- At the end, that is what is found, or a separator before it. -/
theorem find_eq_of_end (separable : Bool) (l : Lexeme) (hc : s.char? = none) :
    find separable l s = ⟨s.clearMark.setMark,
      if separable then { l with place := s.place }.withReason Lexeme.endReason
      else { l with place := s.place }.atEnd⟩ := by
  have hskip : s.clearMark.skipWhile (isBlank separable) = s.clearMark := by
    rw [CharStream.skipWhile, if_neg]
    change ¬s.char?.any _
    simp [hc]
  have hto : toToken separable s = s.clearMark.setMark := by
    unfold toToken
    rw [hskip]
  rw [find_eq]
  unfold attempt
  dsimp only
  rw [hto, show s.clearMark.setMark.char? = none from hc]
  rfl

omit [Rewindable ω] in
/-- At the end there is nothing but the end, perhaps after a separator. -/
theorem find_of_end (separable : Bool) (l : Lexeme) (hc : s.char? = none) :
    (find separable l s).stream.char? = none ∧
      (find separable l s).lexeme.token = if separable then .semi else .eof := by
  rw [find_eq_of_end separable l hc]
  refine ⟨hc, ?_⟩
  dsimp only
  split <;> rfl

/-- There are fewer tokens to come after each, up to the end of the input. -/
theorem toGo_next_lt {s : Scanner ω} (hs : s.stream.Sound) (he : s.next.lexeme.token ≠ .eof) :
    s.next.toGo < s.toGo := by
  -- At the end one more token may come, the inserted semicolon, hence the two that `toGo` adds.
  have hend (hc : s.next.stream.char? = none) (ht : s.next.lexeme.token =
      if s.lexeme.endsStatement then .semi else .eof) :
      s.next.toGo = 1 ∧ s.lexeme.endsStatement := by
    cases hsep : s.lexeme.endsStatement with
    | false =>
      rw [hsep] at ht
      exact absurd ht he
    | true =>
      rw [hsep] at ht
      unfold toGo
      rw [hc, s.endsStatement_next, ht]
      exact ⟨rfl, rfl⟩
  cases hc : s.stream.char? with
  | none =>
    obtain ⟨hc', ht⟩ := find_of_end s.lexeme.endsStatement s.lexeme.cleared hc
    obtain ⟨hone, hsep⟩ := hend hc' ht
    rw [hone]
    unfold toGo
    rw [hc, hsep]
    exact Nat.one_lt_two
  | some c =>
    have htwo : s.toGo = s.stream.remaining + 2 := by
      unfold toGo
      rw [hc]
      rfl
    rw [htwo]
    -- Before the end a call consumes something or finds the end.
    rcases progress_find s.lexeme.endsStatement s.lexeme.cleared hs with hlt | ⟨hc', ht⟩
    · have hle := s.next.toGo_le
      exact Nat.lt_of_le_of_lt hle (Nat.add_lt_add_right hlt 2)
    · rw [(hend hc' ht).1]
      omega

/-- Scans that come to the end of the input, once. -/
inductive Complete : List Scan → Prop
  | last {scan} : scan.lexeme.token = .eof → Complete [scan]
  | cons {scan rest} : scan.lexeme.token ≠ .eof → Complete rest → Complete (scan :: rest)

/-- What comes behind a token of complete scans is complete. -/
theorem Complete.tail {scan : Scan} {rest : List Scan} (h : Complete (scan :: rest))
    (hne : scan.lexeme.token ≠ .eof) : Complete rest := by
  cases h with
  | last he => exact absurd he hne
  | cons _ hrest => exact hrest

/-- The scans of a reader come to the end of the input. -/
theorem Complete.exists_eof {scans : List Scan} (h : Complete scans) :
    ∃ n scan, scans.length = n + 1 ∧ scans[n]? = some scan ∧ scan.lexeme.token = .eof := by
  induction h with
  | last he => exact ⟨0, _, rfl, rfl, he⟩
  | cons _ _ ih =>
    obtain ⟨n, scan, hlength, hget, he⟩ := ih
    exact ⟨n + 1, scan, congrArg (· + 1) hlength, hget, he⟩

omit [Rewindable ω] in
/-- There is always the end to come. -/
theorem toGo_pos (s : Scanner ω) : 0 < s.toGo := by
  unfold toGo
  split
  · omega
  · split <;> omega

/-- Scanning often enough gets to the end of the input. -/
theorem complete_scanUpTo {s : Scanner ω} (hs : s.stream.Sound) {n : Nat} (hn : s.toGo ≤ n) :
    Complete (s.scanUpTo n) := by
  induction n generalizing s with
  | zero =>
    have := s.toGo_pos
    omega
  | succ n ih =>
    unfold scanUpTo
    dsimp only
    split
    · next he => exact .last he
    · next he =>
      have hlt := toGo_next_lt hs he
      refine .cons he (ih ?_ ?_)
      · exact sound_dropReports (sound_next hs)
      · change s.next.toGo ≤ n
        omega

/-- Scanning more often than it takes to get to the end makes no difference. -/
theorem scanUpTo_eq {s : Scanner ω} (hs : s.stream.Sound) {n m : Nat} (hn : s.toGo ≤ n)
    (hm : s.toGo ≤ m) : s.scanUpTo n = s.scanUpTo m := by
  -- Either count covers what there is to go, which each scan makes smaller.
  induction n generalizing s m with
  | zero =>
    have := s.toGo_pos
    omega
  | succ n ih =>
    cases m with
    | zero =>
      have := s.toGo_pos
      omega
    | succ m =>
      unfold scanUpTo
      dsimp only
      split
      · rfl
      · next he =>
        have hlt := toGo_next_lt hs he
        rw [ih (s := s.next.dropReports) (m := m) (sound_dropReports (sound_next hs))]
        · change s.next.toGo ≤ n
          omega
        · change s.next.toGo ≤ m
          omega

/-- Either of two scanners may have the larger bound on the number of tokens, but both get to the end. -/
theorem exists_scans_eq {ω' : Type} [ByteWindow ω'] [Rewindable ω'] {s : Scanner ω} {t : Scanner ω'}
    (hs : s.stream.Sound) (ht : t.stream.Sound) :
    ∃ n, s.scans = s.scanUpTo n ∧ t.scans = t.scanUpTo n := by
  refine ⟨max (s.stream.remaining + 2) (t.stream.remaining + 2), ?_, ?_⟩
  · exact scanUpTo_eq hs s.toGo_le (Nat.le_trans s.toGo_le (Nat.le_max_left ..))
  · exact scanUpTo_eq ht t.toGo_le (Nat.le_trans t.toGo_le (Nat.le_max_right ..))

/-- The scans of a source come to its end. -/
theorem complete_scans {s : Scanner ω} (hs : s.stream.Sound) : Complete s.scans :=
  complete_scanUpTo hs s.toGo_le

end Scanner

/-- A scanner on bytes starts soundly. -/
theorem Cursor.sound_ofBytes (bytes : ByteArray) : (Scanner.ofWindow (Cursor.ofBytes bytes)).stream.Sound := by
  have hw : (Cursor.ofBytes bytes).Within := ⟨Nat.zero_le _, Nat.le_refl 0⟩
  exact CharStream.sound_seek hw

/-- A scanner on a reader starts soundly. -/
theorem Reader.sound_ofReader (r : Reader) : (Scanner.ofWindow (Buffer.ofReader r)).stream.Sound := by
  have hw : (Buffer.ofReader r).Within := ⟨Nat.le_refl 0, Nat.zero_le _, Nat.le_refl 0⟩
  exact CharStream.sound_seek hw

/-- The scans of what a reader delivers come to the end of the input, whatever that is. -/
theorem Reader.complete_scans (r : Reader) : Scanner.Complete r.scans :=
  Scanner.complete_scans r.sound_ofReader

end FrontEnd
