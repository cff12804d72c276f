import FrontEnd.Proofs.Places.Offset
import FrontEnd.Proofs.Refinement

/-!
# Streams know where they are

A stream through a buffer counts lines and columns as it goes. `Placed` says of one that it is at a
cursor on all the bytes: its current character is what stands there, and, as far as `exact` goes, its
place is that of the character's first byte. Going on keeps this (`Placed.advance`), over bytes that
are passed over as well. So does going back to the mark, except that the place is only right if the
character that is left for it is no newline (`Placed.rewound`).
-/

namespace FrontEnd

namespace Buffer

variable {b : Buffer} {outcome : Option ReadFailure} {c : Cursor}

/-- A buffer that tracks a cursor has its position and mark among its cells. -/
theorem Tracks.within (h : b.Tracks outcome c) : b.Within := by
  obtain ⟨before, held, ahead, h⟩ := h
  have hs := h.stop_eq
  refine ⟨h.next_le, ?_, h.keepFrom_le⟩
  rw [h.cells_eq, ByteArray.size_push]
  omega

/-- Filling loses no bytes. -/
theorem remaining_fill (h : b.Within) : b.fill.remaining = b.remaining := by
  have hn := h.next_le
  have hs := h.stop_le
  have hk := h.mark_le
  have hr := bytesLeft_request
    (b.roomFor (b.cells.extract b.keepFrom b.stop).size - 1 -
      (b.cells.extract b.keepFrom b.stop).size) requestsPerFill b.reader
  simp only [fill, remaining, ByteArray.size_append, ByteArray.size_extract] at hr ⊢
  omega

/-- Having enough bytes for a character takes none. -/
theorem remaining_replenish (h : b.Within) : b.replenish.remaining = b.remaining := by
  fun_induction Buffer.replenish b with
  | case1 b _ ih => rw [ih (within_fill h), remaining_fill h]
  | case2 b _ => rfl

/-- The bytes that a take passes over do not remain. -/
theorem remaining_take (h : b.Within) : b.take.2.remaining + b.take.1.width = b.remaining := by
  have hn := h.next_le
  unfold take
  split
  · next hlt =>
    split
    · next ch hd =>
      have := ByteArray.le_size_of_utf8DecodeChar?_eq_some hd
      rw [ByteArray.size_extract] at this
      simp only [remaining, Fetched.width]
      omega
    · simp only [remaining, Fetched.width]
      omega
  · split <;> rfl

/-- What a plain look finds is one byte wide. -/
theorem width_of_plain? {found : Fetched} (h : b.plain? = some found) : found.width = 1 := by
  unfold plain? at h
  split at h
  · split at h
    · split at h
      · next hlt =>
        cases h
        unfold ofByte
        split
        · rfl
        · exact Utf8.utf8Size_ofUInt8 hlt
      · cases h
    · cases h
  · cases h

/-- The bytes that a fetch passes over do not remain. -/
theorem remaining_fetch (h : b.Within) : b.fetch.2.remaining + b.fetch.1.width = b.remaining := by
  unfold Buffer.fetch
  cases hp : b.plain? with
  | some found =>
    have hlt := lt_stop_of_plain? hp
    simp only [remaining, width_of_plain? hp]
    omega
  | none =>
    dsimp only
    rw [remaining_take (within_replenish h).1, remaining_replenish h]

end Buffer

/-- The buffer is at the cursor on `bytes`, of what were `total` bytes at first, and `outcome` comes
after `bytes`. -/
structure Buffer.Views (b : Buffer) (bytes : ByteArray) (total : Nat) (outcome : Option ReadFailure)
    (c : Cursor) : Prop where
  tracks : b.Tracks outcome c
  bytes_eq : c.bytes = bytes
  total_eq : c.offset + b.remaining = total

namespace Buffer.Views

variable {b : Buffer} {bytes : ByteArray} {total : Nat} {outcome : Option ReadFailure} {c : Cursor}

/-- The cursor is within the bytes. -/
theorem offset_le (h : b.Views bytes total outcome c) : c.offset ≤ bytes.size := by
  obtain ⟨before, held, ahead, ht⟩ := h.tracks
  rw [← h.bytes_eq]
  exact ht.offset_le

/-- The position in the buffer is not behind that of the cursor. -/
theorem next_le (h : b.Views bytes total outcome c) : b.next ≤ c.offset := by
  obtain ⟨before, held, ahead, ht⟩ := h.tracks
  rw [ht.offset_eq]
  exact Nat.le_add_left ..

/-- A fetch finds what stands at the cursor and goes on behind it, or the reader has failed. -/
theorem fetch (h : b.Views bytes total outcome c) :
    (b.fetch.1.Stands bytes c.offset ∧ b.fetch.1.width ≤ b.fetch.2.next ∧
        b.fetch.2.Views bytes total outcome { c with offset := c.offset + b.fetch.1.width } ∧
        (¬b.fetch.1.found → outcome = none)) ∨
      ∃ failure, outcome = some failure ∧ b.fetch.1 = .finished (some failure) := by
  have hr := remaining_fetch h.tracks.within
  have ht := h.total_eq
  have hfetches := h.tracks.fetches
  rw [← h.bytes_eq]
  generalize b.fetch = x at hr hfetches
  cases hfetches with
  | stands hstands htracks hwidth hend =>
    refine .inl ⟨hstands, hwidth, ⟨htracks, rfl, ?_⟩, hend⟩
    dsimp only at hr ⊢
    omega
  | fails hf => exact .inr ⟨_, hf, rfl⟩

/-- The mark is set where the cursor sets it. -/
theorem setMark (h : b.Views bytes total outcome c) {back : Nat} (hback : back ≤ b.next) :
    (ByteWindow.setMark back b).Views bytes total outcome (ByteWindow.setMark back c) :=
  ⟨h.tracks.setMark hback, h.bytes_eq, h.total_eq⟩

/-- The mark is given up as by the cursor. -/
theorem clearMark (h : b.Views bytes total outcome c) :
    (ByteWindow.clearMark b).Views bytes total outcome (ByteWindow.clearMark c) :=
  ⟨h.tracks.clearMark, h.bytes_eq, h.total_eq⟩

/-- Going back gets where the cursor's mark is. -/
theorem rewind (h : b.Views bytes total outcome c) {m : Nat} (hm : c.mark? = some m) :
    (ByteWindow.rewind b).Views bytes total outcome { c with offset := m } := by
  -- The cursor goes back to its mark; the bytes left of the buffer grow by what lies between.
  have hrewind : ByteWindow.rewind c = { c with offset := m } := by
    change { c with offset := c.mark?.getD c.offset } = _
    rw [hm]
    rfl
  have ht := h.tracks.rewind
  rw [hrewind] at ht
  refine ⟨ht, h.bytes_eq, ?_⟩
  obtain ⟨before, held, ahead, hb⟩ := h.tracks
  have htotal := h.total_eq
  have hn := hb.next_le
  have ho := hb.offset_eq
  have hmark := hb.mark?_eq
  rw [hm] at hmark
  cases hk : b.mark? with
  | none =>
    rw [hk] at hmark
    cases hmark
  | some k =>
    rw [hk, Option.map_some, Option.some.injEq] at hmark
    have hle := hb.mark_le k hk
    change m + (b.stop - b.mark?.getD b.next + b.reader.bytesLeft) = total
    unfold remaining at htotal
    rw [hk, Option.getD_some]
    omega

end Buffer.Views

/-- A buffer starts at the first byte. -/
theorem Buffer.views_ofReader {r : Reader} {bytes : ByteArray} {outcome : Option ReadFailure}
    (hr : r.Hands bytes outcome) :
    (Buffer.ofReader r).Views bytes r.bytesLeft outcome (.ofBytes bytes) := by
  refine ⟨Buffer.tracks_ofReader hr, rfl, ?_⟩
  change 0 + (0 - 0 + r.bytesLeft) = r.bytesLeft
  omega

/-! ## Streams -/

namespace CharStream

/-- What the stream has fetched last. -/
def current {ω : Type} (s : CharStream ω) : Fetched := s.char?.elim (.finished none) .char

/-- The number of bytes before the current character, of what were `total` bytes at first. -/
def offset {ω : Type} [ByteWindow ω] (total : Nat) (s : CharStream ω) : Nat :=
  total - (ByteWindow.remaining s.window + s.width)

/-- The stream is about to fetch what stands at the cursor, and counts from there. -/
structure Reached (bytes : ByteArray) (total : Nat) (outcome : Option ReadFailure) (exact : Prop)
    (c : Cursor) (s : CharStream Buffer) : Prop where
  views : s.window.Views bytes total outcome c
  place_eq : exact → s.place = .ofOffset bytes c.offset

/-- The stream has fetched its current character from right before the cursor, or has come to the end,
and its place is that of the character. -/
structure Placed (bytes : ByteArray) (total : Nat) (outcome : Option ReadFailure) (exact : Prop)
    (c : Cursor) (s : CharStream Buffer) : Prop where
  views : s.window.Views bytes total outcome c
  width_le : s.width ≤ s.window.next
  width_eq : s.width = s.current.width
  stands : s.current.Stands bytes (c.offset - s.width)
  ended : s.char? = none → outcome = none
  place_eq : exact → s.place = .ofOffset bytes (c.offset - s.width)

/-- The stream has told that the reader failed. -/
def Fails {ω : Type} (outcome : Option ReadFailure) (s : CharStream ω) : Prop :=
  ∃ failure place, outcome = some failure ∧ .error ⟨.reading failure, place⟩ ∈ s.reports

/-- Without a failure none is told. -/
theorem not_fails_none {ω : Type} (s : CharStream ω) : ¬s.Fails none := by
  rintro ⟨failure, place, h, -⟩
  cases h

variable {bytes : ByteArray} {total : Nat} {outcome : Option ReadFailure} {exact : Prop} {c : Cursor}
  {s : CharStream Buffer}

/-- The current character is among the bytes passed by the cursor. -/
theorem Placed.width_le_offset (h : Placed bytes total outcome exact c s) : s.width ≤ c.offset :=
  Nat.le_trans h.width_le h.views.next_le

/-- The current character starts by its width before the cursor. -/
theorem Placed.offset_eq (h : Placed bytes total outcome exact c s) :
    s.offset total = c.offset - s.width := by
  have ht : c.offset + ByteWindow.remaining s.window = total := h.views.total_eq
  unfold offset
  omega

/-- What is known of the place may be forgotten. -/
theorem Placed.mono {exact' : Prop} (h : Placed bytes total outcome exact c s)
    (hexact : exact' → exact) : Placed bytes total outcome exact' c s :=
  { h with place_eq := fun he => h.place_eq (hexact he) }

/-- What has been fetched is a newline exactly if that is the current character. -/
theorem current_eq_newline : s.current = .char '\n' ↔ s.char? = some '\n' := by
  unfold current
  cases s.char? with
  | none => simp
  | some ch => simp

/-- Where there is no character, the bytes are at their end. -/
theorem Placed.offset_of_end (h : Placed bytes total outcome exact c s) (hc : s.char? = none) :
    s.offset total = bytes.size := by
  have hstands := h.stands
  have hcurrent : s.current = .finished none := by
    unfold current
    rw [hc]
    rfl
  rw [hcurrent] at hstands
  cases hstands with
  | finished he => exact h.offset_eq.trans he

/-- Passing the current character counts its bytes. -/
theorem Placed.passChar (h : Placed bytes total outcome exact c s) :
    Reached bytes total outcome exact c s.passChar := by
  have hle := h.width_le_offset
  have hsize := h.stands.width_le
  rw [← h.width_eq] at hsize
  refine ⟨by rw [window_passChar]; exact h.views, fun he => ?_⟩
  have hplace := h.place_eq he
  unfold CharStream.passChar
  by_cases hc : s.char? = some '\n'
  · -- A newline starts the next line; any other character moves on the column by its width.
    have hcurrent := current_eq_newline.mpr hc
    have hwidth : s.width = 1 := by
      rw [h.width_eq, hcurrent]
      rfl
    obtain ⟨hi, hb⟩ := (hcurrent ▸ h.stands).getElem_newline
    have hnext := Place.ofOffset_newline hi hb
    rw [show c.offset - s.width + 1 = c.offset by omega, ← hplace] at hnext
    rw [if_pos hc, hnext]
    rfl
  · have hsame := h.stands.sameLine (mt current_eq_newline.mp hc)
    rw [← h.width_eq] at hsame
    have hnext := Place.ofOffset_of_sameLine hsame (by omega)
    rw [show c.offset - s.width + s.width = c.offset by omega, ← hplace] at hnext
    rw [if_neg hc, hnext]
    unfold place
    rw [Nat.add_right_comm]

/-- Reporting does not move a stream. -/
theorem place_receive (s : CharStream Buffer) (fetched : Fetched × Buffer) :
    (s.receive fetched).place = s.place := by
  unfold receive
  rcases fetched with ⟨_ | _ | _ | _, _⟩ <;> dsimp only <;> split <;> rfl

/-- Receiving something does not change the line. -/
theorem line_receive (s : CharStream Buffer) (fetched : Fetched × Buffer) :
    (s.receive fetched).line = s.line :=
  Nat.succ.inj (congrArg Place.line (place_receive s fetched))

/-- Receiving something does not change the column. -/
theorem column_receive (s : CharStream Buffer) (fetched : Fetched × Buffer) :
    (s.receive fetched).column = s.column :=
  Nat.succ.inj (congrArg Place.column (place_receive s fetched))

/-- A fault is told where the stream is. -/
theorem reports_receive (s : CharStream Buffer) (fetched : Fetched × Buffer) :
    (s.receive fetched).reports.toList = s.reports.toList ++
      ((s.fault? fetched.1).map fun fault => Report.error ⟨fault, s.place⟩).toList := by
  unfold receive
  dsimp only
  cases hf : s.fault? fetched.1 with
  | none => rcases fetched with ⟨_ | _ | _ | _, _⟩ <;> simp
  | some fault =>
    rcases fetched with ⟨_ | _ | _ | _, _⟩ <;>
      simp [complain, complainAt, CharStream.report, place]

/-- The current character after something has been fetched. -/
theorem char?_receive (s : CharStream Buffer) (fetched : Fetched × Buffer) :
    (s.receive fetched).char? = match fetched.1 with
      | .char c => some c
      | .nul => some '\x00'
      | .malformed => some Utf8.replacement
      | .finished _ => none := by
  unfold receive
  rcases fetched with ⟨_ | _ | _ | _, _⟩ <;> dsimp only <;> split <;> rfl

/-- A newline is only received if one is fetched. -/
theorem char?_receive_ne (s : CharStream Buffer) (fetched : Fetched × Buffer)
    (h : fetched.1 ≠ .char '\n') : (s.receive fetched).char? ≠ some '\n' := by
  rw [char?_receive]
  rcases fetched with ⟨f, b⟩
  cases f with
  | char ch =>
    rintro ⟨⟩
    exact h rfl
  | _ => simp [Utf8.replacement]

/-- The width of the current character is that of what has been fetched. -/
theorem width_receive {ω : Type} (s : CharStream ω) (fetched : Fetched × ω) :
    (s.receive fetched).width = fetched.1.width := by
  unfold receive
  rcases fetched with ⟨_ | _ | _ | _, _⟩ <;> dsimp only <;> split <;> rfl

/-- A newline is not passed over. -/
theorem ne_newline_of_passedOver {f : Fetched} (h : passedOver f) : f ≠ .char '\n' := by
  rintro rfl
  exact absurd h (by decide)

/-- What is passed over is counted. -/
theorem Reached.pass (h : Reached bytes total outcome exact c s) (hp : passedOver s.window.fetch.1) :
    Reached bytes total outcome exact { c with offset := c.offset + s.window.fetch.1.width }
      (s.receive s.window.fetch).passChar := by
  have hfound := found_of_passedOver hp
  obtain ⟨hstands, hwidth, hviews, -⟩ := h.views.fetch.resolve_right fun ⟨failure, _, hf⟩ => by
    rw [hf] at hfound
    cases hfound
  have hne := ne_newline_of_passedOver hp
  have hchar := char?_receive_ne s s.window.fetch hne
  have hline := Place.ofOffset_of_sameLine (hstands.sameLine hne) hstands.width_le
  refine ⟨by rw [window_passChar, window_receive]; exact hviews, fun he => ?_⟩
  have hplace := place_receive s s.window.fetch
  rw [h.place_eq he] at hplace
  unfold CharStream.passChar
  rw [if_neg hchar, width_receive, hline, ← hplace]
  unfold place
  rw [Nat.add_right_comm]

/-- What is not passed over becomes the current character, or it is a failure and told as that. -/
theorem Reached.receive (h : Reached bytes total outcome exact c s)
    (hp : ¬passedOver s.window.fetch.1) :
    Placed bytes total outcome exact { c with offset := c.offset + s.window.fetch.1.width }
        (s.receive s.window.fetch) ∨
      (s.receive s.window.fetch).Fails outcome := by
  rcases h.views.fetch with ⟨hstands, hwidth, hviews, hend⟩ | ⟨failure, ho, hf⟩
  -- The reader failed: the failure is reported and stands for all the rest.
  case inr =>
    refine .inr ⟨failure, s.place, ho, ?_⟩
    unfold CharStream.receive fault?
    rw [hf]
    exact Array.mem_push_self
  left
  -- What is not passed over is now current.
  have hcurrent : (s.receive s.window.fetch).current = s.window.fetch.1 := by
    unfold current
    rw [char?_receive]
    cases hf : s.window.fetch.1 with
    | char ch => rfl
    | nul =>
      rw [hf] at hp
      exact absurd rfl hp
    | malformed =>
      rw [hf] at hp
      exact absurd rfl hp
    | finished failure? =>
      rw [hf] at hstands
      cases hstands
      rfl
  have hback : c.offset + s.window.fetch.1.width - s.window.fetch.1.width = c.offset :=
    Nat.add_sub_cancel ..
  constructor
  case views =>
    rw [window_receive]
    exact hviews
  case width_le =>
    rw [width_receive, window_receive]
    exact hwidth
  case width_eq => rw [width_receive, hcurrent]
  case stands =>
    dsimp only
    rwa [hcurrent, width_receive, hback]
  case ended =>
    intro hc
    refine hend fun hfound => ?_
    rw [← isSome_char?_receive s s.window.fetch, hc] at hfound
    cases hfound
  case place_eq =>
    intro he
    dsimp only
    rw [place_receive, width_receive, hback]
    exact h.place_eq he

/-- What stands at the cursor is found, and the stream is placed behind it. -/
theorem Reached.seek (h : Reached bytes total outcome exact c s) :
    (∃ n, s.seek.width ≤ n ∧
        Placed bytes total outcome exact { c with offset := c.offset + n } s.seek) ∨
      s.seek.Fails outcome := by
  fun_induction CharStream.seek s generalizing c with
  | case1 s hp ih =>
    refine (ih (h.pass hp)).imp_left fun hlater => ?_
    obtain ⟨n, hn, hplaced⟩ := hlater
    dsimp only at hplaced
    rw [Nat.add_assoc] at hplaced
    exact ⟨_, Nat.le_trans hn (Nat.le_add_left ..), hplaced⟩
  | case2 s hp =>
    exact (h.receive hp).imp_left fun hplaced => ⟨_, Nat.le_of_eq (width_receive ..), hplaced⟩

/-- Going on, a stream stays where it says it is. -/
theorem Placed.advance (h : Placed bytes total outcome exact c s) :
    (∃ n, s.advance.width ≤ n ∧
        Placed bytes total outcome exact { c with offset := c.offset + n } s.advance) ∨
      s.advance.Fails outcome :=
  h.passChar.seek

/-- A report does not move a stream. -/
theorem Placed.report (h : Placed bytes total outcome exact c s) (r : Report) :
    Placed bytes total outcome exact c (s.report r) :=
  ⟨h.views, h.width_le, h.width_eq, h.stands, h.ended, h.place_eq⟩

/-- Forgetting the reports does not move a stream. -/
theorem Placed.dropReports (h : Placed bytes total outcome exact c s) :
    Placed bytes total outcome exact c s.dropReports :=
  ⟨h.views, h.width_le, h.width_eq, h.stands, h.ended, h.place_eq⟩

/-- The mark is set at the current character. -/
theorem Placed.setMark (h : Placed bytes total outcome exact c s) :
    Placed bytes total outcome exact { c with mark? := some (c.offset - s.width) } s.setMark :=
  ⟨h.views.setMark h.width_le, h.width_le, h.width_eq, h.stands, h.ended, h.place_eq⟩

/-- Giving up the mark does not move a stream. -/
theorem Placed.clearMark (h : Placed bytes total outcome exact c s) :
    Placed bytes total outcome exact { c with mark? := none } s.clearMark :=
  ⟨h.views.clearMark, h.width_le, h.width_eq, h.stands, h.ended, h.place_eq⟩

/-- What is marked are the bytes from the mark up to the current character. -/
theorem Placed.marked_eq (h : Placed bytes total outcome exact c s) :
    s.marked = match c.mark? with
      | some m => bytes.extract m (c.offset - s.width)
      | none => .empty := by
  rw [← h.views.bytes_eq]
  exact h.views.tracks.marked_eq h.width_le

/-! ## Going back -/

/-- Nothing but a newline starts another line. -/
theorem line_passChar (s : CharStream Buffer) (h : s.char? ≠ some '\n') :
    s.passChar.line = s.line := by
  unfold CharStream.passChar
  rw [if_neg h]

/-- Going on to the next character starts no other line: what is passed over is no newline. -/
theorem line_seek (s : CharStream Buffer) : s.seek.line = s.line := by
  fun_induction CharStream.seek s with
  | case1 s hp ih =>
    rw [ih, line_passChar _ (char?_receive_ne s _ (ne_newline_of_passedOver hp)), line_receive]
  | case2 s hp => exact line_receive ..

/-- Only a newline changes the line. -/
theorem line_advance (s : CharStream Buffer) (h : s.char? ≠ some '\n') : s.advance.line = s.line := by
  unfold CharStream.advance
  rw [line_seek, line_passChar s h]

/-- The stream back at the mark, with the current character passed but nothing fetched yet. -/
def rewound (s : CharStream Buffer) : CharStream Buffer :=
  CharStream.passChar
    { s with
      window := ByteWindow.rewind s.window
      column := s.column + s.width - ByteWindow.sinceMark s.window
      width := 0 }

/-- Going back is to pass the current character at the mark and to fetch the next one. -/
theorem rewind_eq (s : CharStream Buffer) : s.rewind = s.rewound.seek := rfl

/-- Back at the mark, the place is right if the line has not changed since then and the character that
is left is no newline. -/
theorem Placed.rewound (h : Placed bytes total outcome exact c s) {m : Nat} (hm : c.mark? = some m)
    (hle : m ≤ c.offset - s.width) (hline : exact → s.place.line = (Place.ofOffset bytes m).line) :
    Reached bytes total outcome (exact ∧ s.char? ≠ some '\n') { c with offset := m }
      s.rewound := by
  have hwidth := h.width_le_offset
  have hoffset := h.views.offset_le
  have hsince : ByteWindow.sinceMark s.window = c.offset - m := by
    rw [h.views.tracks.sinceMark_eq]
    change c.offset - c.mark?.getD c.offset = _
    rw [hm]
    rfl
  unfold CharStream.rewound
  refine ⟨by rw [window_passChar]; exact h.views.rewind hm, ?_⟩
  rintro ⟨he, hne⟩
  have hplace := h.place_eq he
  -- Nothing between the mark and here ends a line, so the columns differ by the bytes between.
  have hsame : (Place.ofOffset bytes m).line =
      (Place.ofOffset bytes (m + (c.offset - s.width - m))).line := by
    rw [show m + (c.offset - s.width - m) = c.offset - s.width by omega, ← hplace]
    exact (hline he).symm
  have hk : m + (c.offset - s.width - m) ≤ bytes.size := by omega
  have hcolumn := Place.ofOffset_of_sameLine (Place.sameLine_of_line_eq hk hsame) hk
  rw [show m + (c.offset - s.width - m) = c.offset - s.width by omega, ← hplace] at hcolumn
  have hpos := Place.column_ofOffset_pos bytes m
  unfold CharStream.passChar
  rw [if_neg hne]
  unfold place at hcolumn ⊢
  rw [Place.mk.injEq] at hcolumn
  cases hp : Place.ofOffset bytes m with
  | mk line column =>
    rw [hp] at hcolumn hpos
    dsimp only at hcolumn hpos ⊢
    rw [Place.mk.injEq, hsince]
    omega

/-- Without a mark, the stream stays where it is. -/
theorem Placed.rewound_of_unmarked (h : Placed bytes total outcome exact c s) (hm : c.mark? = none) :
    Reached bytes total outcome exact c s.rewound := by
  have hpass := h.passChar
  have hsince : ByteWindow.sinceMark s.window = 0 := by
    rw [h.views.tracks.sinceMark_eq]
    change c.offset - c.mark?.getD c.offset = _
    rw [hm]
    exact Nat.sub_self _
  -- Without a mark there is nowhere to go back to.
  have hwindow : ByteWindow.rewind s.window = s.window := by
    obtain ⟨before, held, ahead, hb⟩ := h.views.tracks
    have hmark := hb.mark?_eq
    rw [hm] at hmark
    have hnone : s.window.mark? = none := Option.map_eq_none_iff.mp hmark.symm
    change { s.window with next := s.window.mark?.getD s.window.next } = s.window
    rw [hnone]
    rfl
  unfold CharStream.rewound
  rw [hwindow, hsince]
  refine ⟨by rw [window_passChar]; exact h.views, fun he => ?_⟩
  rw [← hpass.place_eq he]
  unfold CharStream.passChar
  split <;> rfl

end CharStream

end FrontEnd
