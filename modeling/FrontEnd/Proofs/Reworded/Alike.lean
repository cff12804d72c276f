import FrontEnd.Proofs.Progress
import FrontEnd.Proofs.Refill

/-!
# Streams up to the start of a comment

Two sources start the same, up to the marker that opens a comment in one of them, and go on in different
ways. A stream that is not past the first character of the marker is the same on both sources, but for the
bytes (`CharStream.Alike`): no character before it is decoded by looking beyond the marker, since that is
made of characters of one byte. Going on keeps this from any character but a slash, and also from a slash as
long as the stream does not get past the marker, that is, as long as enough bytes remain.
-/

namespace FrontEnd

/-- The second characters of the markers that open a comment. -/
def markerSeconds : List Char := ['/', '*']

/-- Behind its slash, a marker has another one or a star. -/
theorem eq_of_mem_markerSeconds {x : Char} (hx : x ∈ markerSeconds) : x = '/' ∨ x = '*' := by
  simpa [markerSeconds] using hx

/-- A source up to the marker that opens a comment behind `front`. -/
def opened (front : ByteArray) (x : Char) : ByteArray := front ++ (String.ofList ['/', x]).toUTF8

section

variable {front rest : ByteArray} {x : Char}

/-- The marker is made of two characters. -/
theorem opened_eq (front : ByteArray) (x : Char) : opened front x = front ++ ['/', x].utf8Encode :=
  congrArg (front ++ ·) String.toByteArray_ofList

/-- The marker has two bytes. -/
theorem size_opened (front : ByteArray) (hx : x ∈ markerSeconds) : (opened front x).size = front.size + 2 := by
  have hsize : (['/', x].utf8Encode).size = 2 := by
    rcases eq_of_mem_markerSeconds hx with rfl | rfl <;> decide
  rw [opened_eq, ByteArray.size_append, hsize]

/-- Behind `front` is a slash. -/
theorem utf8DecodeChar?_slash (front : ByteArray) (x : Char) (rest : ByteArray) :
    (opened front x ++ rest).utf8DecodeChar? front.size = some '/' := by
  rw [opened_eq]
  exact Utf8.utf8DecodeChar?_append front rest '/' [x]

/-- Behind the slash is the second character of the marker. -/
theorem utf8DecodeChar?_second (front : ByteArray) (x : Char) (rest : ByteArray) :
    (opened front x ++ rest).utf8DecodeChar? (front.size + 1) = some x := by
  have hsplit : opened front x = front ++ ['/'].utf8Encode ++ [x].utf8Encode := by
    rw [opened_eq, ByteArray.append_assoc, ← List.utf8Encode_append]
    rfl
  have hsize : (front ++ ['/'].utf8Encode).size = front.size + 1 := by
    rw [ByteArray.size_append]
    rfl
  rw [hsplit, ← hsize]
  exact Utf8.utf8DecodeChar?_append _ rest x []

/-- The marker settles every character before it, and itself. -/
theorem settled_opened (front : ByteArray) (hx : x ∈ markerSeconds) :
    Utf8.settled (opened front x) = true := by
  have hmarker : ['/', x].utf8Encode.data.toList = [0x2f, x.val.toUInt8] := by
    rcases eq_of_mem_markerSeconds hx with rfl | rfl <;> decide
  have hlist : (opened front x).data.toList = front.data.toList ++ [0x2f, x.val.toUInt8] := by
    rw [opened_eq, ByteArray.data_append, Array.toList_append, hmarker]
  unfold Utf8.settled
  rw [hlist]
  cases front.data.toList with
  | nil => rfl
  | cons lead tail =>
    have hany : (tail ++ [0x2f, x.val.toUInt8]).any (!Utf8.isContinuation ·) = true :=
      List.any_eq_true.mpr ⟨0x2f, by simp, by decide⟩
    dsimp only [List.cons_append]
    rw [hany, Bool.or_true]

/-- What is decoded up to the marker does not depend on what comes behind it. -/
theorem utf8DecodeChar?_opened (hx : x ∈ markerSeconds) {i : Nat} (hi : i ≤ front.size)
    (rest rest' : ByteArray) :
    (opened front x ++ rest).utf8DecodeChar? i = (opened front x ++ rest').utf8DecodeChar? i := by
  have hle : i ≤ (opened front x).size := by
    rw [size_opened front hx]
    omega
  have hpiece : (opened front x).extract i (opened front x).size = opened (front.extract i front.size) x := by
    rw [opened, ByteArray.size_append,
      ByteArray.extract_eq_extract_append_extract front.size hi (Nat.le_add_right ..),
      ByteArray.extract_append_size_left, ByteArray.extract_append_eq_right rfl rfl]
    rfl
  have hfrom (more : ByteArray) : (opened front x ++ more).utf8DecodeChar? i =
      (opened (front.extract i front.size) x ++ more).utf8DecodeChar? 0 := by
    rw [ByteArray.utf8DecodeChar?_eq_utf8DecodeChar?_extract, ByteArray.size_append,
      ByteArray.extract_eq_extract_append_extract (opened front x).size hle (Nat.le_add_right ..),
      ByteArray.extract_append_size_left, ByteArray.extract_append_eq_right rfl rfl, hpiece]
  have hsettled := settled_opened (front.extract i front.size) hx
  rw [hfrom, hfrom, ← Utf8.utf8DecodeChar?_extract_of_settled (.inl hsettled),
    ← Utf8.utf8DecodeChar?_extract_of_settled (.inl hsettled)]

/-- A character that is decoded before the marker ends before it. -/
theorem le_of_utf8DecodeChar?_opened {i : Nat} (hi : i < front.size) {c : Char}
    (hc : (opened front x ++ rest).utf8DecodeChar? i = some c) : i + c.utf8Size ≤ front.size := by
  refine Nat.le_of_not_lt fun hlt => ?_
  have hslash := utf8DecodeChar?_slash front x rest
  have hsize : front.size < (opened front x ++ rest).size :=
    ByteArray.lt_size_of_isSome_utf8DecodeChar? (by rw [hslash]; rfl)
  have hinside := Utf8.isContinuation_getElem hc hi hlt hsize
  rw [Utf8.getElem_of_utf8DecodeChar? hslash rfl hsize] at hinside
  exact absurd hinside (by decide)

namespace Cursor

/-- A fetch up to the marker that opens a comment behind `front`: the same is found on the source that goes on
in another way, and at most the first character of the marker is taken, a slash. -/
structure FetchesAlike (front : ByteArray) (other : ByteArray) (c : Cursor) (f : Fetched) (d : Cursor) :
    Prop where
  fetch_eq : c.fetch = (f, d)
  fetch_other : { c with bytes := other }.fetch = (f, { d with bytes := other })
  found : f.found
  bytes_eq : d.bytes = c.bytes
  mark?_eq : d.mark? = c.mark?
  offset_le : c.offset ≤ d.offset
  stops : d.offset ≤ front.size ∨ f = .char '/' ∧ d.offset = front.size + 1

/-- A fetch from before the marker finds the same, however the source goes on. -/
theorem fetch_opened (hx : x ∈ markerSeconds) (rest' : ByteArray) {c : Cursor}
    (hbytes : c.bytes = opened front x ++ rest) (hle : c.offset ≤ front.size) :
    ∃ f d, FetchesAlike front (opened front x ++ rest') c f d := by
  have hsame := utf8DecodeChar?_opened hx hle rest rest'
  rw [← hbytes] at hsame
  cases hd : c.bytes.utf8DecodeChar? c.offset with
  | none =>
    have hlt (more : ByteArray) : c.offset < (opened front x ++ more).size := by
      rw [ByteArray.size_append, size_opened front hx]
      omega
    -- The slash that the marker starts with is decoded, so this byte is before it.
    have hbefore : c.offset ≠ front.size := by
      intro hat
      rw [hbytes, hat, utf8DecodeChar?_slash] at hd
      cases hd
    exact ⟨_, _, fetch_of_none hd (hbytes ▸ hlt rest), fetch_of_none (hsame.symm.trans hd) (hlt rest'), rfl,
      rfl, rfl, Nat.le_add_right .., .inl (Nat.lt_of_le_of_ne hle hbefore)⟩
  | some ch =>
    refine ⟨_, _, fetch_of_some hd, fetch_of_some (hsame.symm.trans hd), ?_, rfl, rfl,
      Nat.le_add_right .., ?_⟩
    · unfold ofChar
      split <;> rfl
    · -- A character before the marker ends before it, since its bytes continue one another.
      rcases Nat.lt_or_eq_of_le hle with hbefore | hat
      · rw [hbytes] at hd
        exact .inl (le_of_utf8DecodeChar?_opened hbefore hd)
      · rw [hbytes, hat, utf8DecodeChar?_slash] at hd
        cases hd
        exact .inr ⟨rfl, congrArg (· + 1) hat⟩

/-- Behind the slash comes the other character of the marker. -/
theorem fetch_second (hx : x ∈ markerSeconds) {c : Cursor} (hbytes : c.bytes = opened front x ++ rest)
    (hat : c.offset = front.size + 1) : c.fetch = (.char x, { c with offset := front.size + 2 }) := by
  have hd : c.bytes.utf8DecodeChar? c.offset = some x := by
    rw [hbytes, hat, utf8DecodeChar?_second]
  rw [fetch_of_some hd, hat]
  rcases eq_of_mem_markerSeconds hx with rfl | rfl <;> rfl

end Cursor

end

namespace CharStream

/-- The stream on other bytes. -/
def withBytes (bytes : ByteArray) (s : CharStream Cursor) : CharStream Cursor :=
  { s with window := { s.window with bytes } }

section

variable (bytes : ByteArray) (s : CharStream Cursor)

/-- Counting a character does not look at the bytes. -/
theorem passChar_withBytes : (s.withBytes bytes).passChar = s.passChar.withBytes bytes := by
  unfold passChar
  split
  · next h => rw [if_pos (show s.char? = some '\n' from h)]; rfl
  · next h => rw [if_neg (show ¬s.char? = some '\n' from h)]; rfl

/-- What a window delivers is received without a look at the bytes. -/
theorem receive_withBytes (f : Fetched) (c : Cursor) :
    (s.withBytes bytes).receive (f, { c with bytes }) = (s.receive (f, c)).withBytes bytes := by
  have hfault : (s.withBytes bytes).fault? f = s.fault? f := by cases f <;> rfl
  unfold receive
  dsimp only
  rw [hfault]
  cases s.fault? f <;> cases f <;> rfl

end

/-- The stream has not got past the first character of the marker that opens a comment behind `front`, and
the other is the same on a source that goes on in another way behind the marker. -/
structure Alike (front : ByteArray) (x : Char) (rest rest' : ByteArray) (s t : CharStream Cursor) :
    Prop where
  other : t = s.withBytes (opened front x ++ rest')
  bytes_eq : s.window.bytes = opened front x ++ rest
  mark_le : s.window.mark?.getD s.window.offset ≤ s.window.offset
  found : s.char?.isSome
  offset_le : s.window.offset ≤ front.size ∨ s.window.offset = front.size + 1 ∧ s.char? = some '/'

variable {front rest rest' : ByteArray} {x : Char} {s t : CharStream Cursor}

/-- A character that is fetched is the current one. -/
theorem char?_receive_char (s : CharStream Cursor) (c : Char) (w : Cursor) :
    (s.receive (.char c, w)).char? = some c := by
  unfold receive
  dsimp only
  split <;> rfl

/-- What comes next up to the marker is the same on both sources. -/
theorem alike_seek_of_le (hx : x ∈ markerSeconds) (hbytes : s.window.bytes = opened front x ++ rest)
    (hmark : s.window.mark?.getD s.window.offset ≤ s.window.offset) (hle : s.window.offset ≤ front.size) :
    Alike front x rest rest' s.seek (s.withBytes (opened front x ++ rest')).seek := by
  -- One fetch at a time, as the search goes on only over what is passed over.
  fun_induction seek s with
  | case1 s hp ih =>
    obtain ⟨f, d, hf⟩ := Cursor.fetch_opened hx rest' hbytes hle
    have hfetch : ByteWindow.fetch s.window = (f, d) := hf.fetch_eq
    have hother : ByteWindow.fetch (s.withBytes (opened front x ++ rest')).window = _ := hf.fetch_other
    rw [hfetch] at hp ih
    rw [hfetch, seek.eq_def (s.withBytes _), hother, if_pos hp, receive_withBytes, passChar_withBytes]
    have hwindow : (s.receive (f, d)).passChar.window = d := by rw [window_passChar, window_receive]
    rw [hwindow] at ih
    refine ih (hf.bytes_eq.trans hbytes) ?_ ?_
    · rw [hf.mark?_eq]
      exact Cursor.getD_mark_le hmark hf.offset_le
    · -- A slash is not passed over.
      refine hf.stops.resolve_right ?_
      rintro ⟨rfl, -⟩
      exact absurd (show passedOver (.char '/') = true from hp) (by decide)
  | case2 s hp =>
    obtain ⟨f, d, hf⟩ := Cursor.fetch_opened hx rest' hbytes hle
    have hfetch : ByteWindow.fetch s.window = (f, d) := hf.fetch_eq
    have hother : ByteWindow.fetch (s.withBytes (opened front x ++ rest')).window = _ := hf.fetch_other
    rw [hfetch] at hp
    rw [hfetch, seek.eq_def (s.withBytes _), hother, if_neg hp, receive_withBytes]
    have hwindow : (s.receive (f, d)).window = d := window_receive s (f, d)
    constructor
    · rfl
    · rw [hwindow]
      exact hf.bytes_eq.trans hbytes
    · rw [hwindow, hf.mark?_eq]
      exact Cursor.getD_mark_le hmark hf.offset_le
    · rw [isSome_char?_receive]
      exact hf.found
    · rw [hwindow]
      refine hf.stops.imp_right ?_
      rintro ⟨rfl, hat⟩
      exact ⟨hat, char?_receive_char s '/' d⟩

/-- As many bytes as there are from the marker on. -/
def fromMarker (front : ByteArray) (x : Char) (rest : ByteArray) : Nat :=
  (opened front x ++ rest).size - front.size

/-- What comes next is the same on both sources, unless the stream gets past the marker with it. -/
theorem alike_seek (hx : x ∈ markerSeconds) (hbytes : s.window.bytes = opened front x ++ rest)
    (hmark : s.window.mark?.getD s.window.offset ≤ s.window.offset)
    (hle : s.window.offset ≤ front.size + 1) (hk : fromMarker front x rest ≤ s.seek.remaining) :
    Alike front x rest rest' s.seek (s.withBytes (opened front x ++ rest')).seek := by
  rcases Nat.lt_or_eq_of_le hle with hlt | hat
  · exact alike_seek_of_le hx hbytes hmark (Nat.le_of_lt_succ hlt)
  · -- Behind the slash comes the rest of the marker, and then fewer bytes remain than there are from it on.
    have hfetch : ByteWindow.fetch s.window = (.char x, { s.window with offset := front.size + 2 }) :=
      Cursor.fetch_second hx hbytes hat
    have hnot : ¬passedOver (.char x) = true := by
      rcases eq_of_mem_markerSeconds hx with rfl | rfl <;> decide
    rw [seek, hfetch, if_neg hnot] at hk
    have hremaining : (s.receive (.char x, { s.window with offset := front.size + 2 })).remaining =
        s.window.bytes.size - (front.size + 2) + 1 := by
      unfold remaining
      rw [window_receive, isSome_char?_receive]
      rfl
    rw [hremaining, hbytes, fromMarker, ByteArray.size_append, size_opened front hx] at hk
    omega

namespace Alike

variable (h : Alike front x rest rest' s t)
include h

/-- The stream has taken one character of the marker at most. -/
theorem offset_le_succ : s.window.offset ≤ front.size + 1 :=
  h.offset_le.elim Nat.le_succ_of_le fun hat => Nat.le_of_eq hat.1

/-- Going on from a character that is no slash, the streams stay alike. -/
theorem pass (hx : x ∈ markerSeconds) {c : Char} (hc : s.char? = some c) (hslash : c ≠ '/') :
    Alike front x rest rest' s.advance t.advance := by
  have hle : s.window.offset ≤ front.size := by
    refine h.offset_le.resolve_right fun hat => hslash ?_
    rw [hc] at hat
    exact Option.some.inj hat.2
  rw [h.other, advance, advance, passChar_withBytes]
  apply alike_seek_of_le hx <;> rw [window_passChar]
  · exact h.bytes_eq
  · exact h.mark_le
  · exact hle

/-- Going on, they stay alike unless they get past the marker. -/
theorem advance (hx : x ∈ markerSeconds) (hk : fromMarker front x rest ≤ s.advance.remaining) :
    Alike front x rest rest' s.advance t.advance := by
  rw [h.other, CharStream.advance, CharStream.advance, passChar_withBytes]
  apply alike_seek hx
  · rw [window_passChar]
    exact h.bytes_eq
  · rw [window_passChar]
    exact h.mark_le
  · rw [window_passChar]
    exact h.offset_le_succ
  · exact hk

/-- A report is told by both. -/
theorem report (r : Report) : Alike front x rest rest' (s.report r) (t.report r) :=
  { h with other := by rw [h.other]; rfl }

/-- The mark is given up by both. -/
theorem clearMark : Alike front x rest rest' s.clearMark t.clearMark :=
  { h with other := by rw [h.other]; rfl, mark_le := Nat.le_refl _ }

/-- The mark is set by both. -/
theorem setMark : Alike front x rest rest' s.setMark t.setMark :=
  { h with other := by rw [h.other]; rfl, mark_le := Nat.sub_le .. }

/-- The reports are forgotten by both. -/
theorem dropReports : Alike front x rest rest' s.dropReports t.dropReports :=
  { h with other := by rw [h.other]; rfl }

/-- The current character is the same. -/
theorem char?_eq : s.char? = t.char? := by rw [h.other]; rfl

/-- The place is the same. -/
theorem place_eq : s.place = t.place := by rw [h.other]; rfl

/-- What has been reported is the same. -/
theorem reports_eq : s.reports = t.reports := by rw [h.other]; rfl

/-- What is marked is the same: the mark is before the marker, and so is where the stream is. -/
theorem marked_eq (hx : x ∈ markerSeconds) : s.marked = t.marked := by
  have hle : s.window.offset - s.width ≤ (opened front x).size := by
    have := h.offset_le_succ
    rw [size_opened front hx]
    omega
  have hmark : (CharStream.withBytes (opened front x ++ rest') s).window.mark? = s.window.mark? := rfl
  rw [h.other]
  unfold CharStream.marked
  dsimp only [ByteWindow.marked]
  rw [hmark, h.bytes_eq]
  cases s.window.mark? with
  | none => rfl
  | some m =>
    change ByteArray.extract _ m (s.window.offset - s.width) =
      (opened front x ++ rest').extract m (s.window.offset - s.width)
    rw [Buffer.extract_append_of_le hle, Buffer.extract_append_of_le hle]

/-- Back at the mark they are alike again, unless what comes next is past the marker. -/
theorem rewind (hx : x ∈ markerSeconds) (hk : fromMarker front x rest ≤ s.rewind.remaining) :
    Alike front x rest rest' s.rewind t.rewind := by
  -- Both streams go back to the same mark, in front of the words that differ.
  have hback : t.rewind = (CharStream.withBytes (opened front x ++ rest')
      { s with
        window := ByteWindow.rewind s.window
        column := s.column + s.width - ByteWindow.sinceMark s.window
        width := 0 }).advance := by
    rw [h.other]
    rfl
  rw [hback, CharStream.advance, passChar_withBytes]
  unfold CharStream.rewind CharStream.advance at hk ⊢
  apply alike_seek hx
  · rw [window_passChar]
    exact h.bytes_eq
  · rw [window_passChar]
    change s.window.mark?.getD (s.window.mark?.getD s.window.offset) ≤ s.window.mark?.getD s.window.offset
    cases s.window.mark? <;> exact Nat.le_refl _
  · rw [window_passChar]
    exact Nat.le_trans h.mark_le h.offset_le_succ
  · exact hk

end Alike

/-- The streams stay alike up to the next slash, whatever is told. -/
theorem along_alike (front : ByteArray) (rest rest' : ByteArray) (hx : x ∈ markerSeconds) (start : Place) :
    Along start (Alike front x rest rest') where
  char?_eq := Alike.char?_eq
  place_eq := Alike.place_eq
  marked_eq h := h.marked_eq hx
  pass hc hslash h := h.pass hx hc hslash
  complain := by
    intro s t fault _ h
    unfold complain
    rw [h.place_eq]
    exact h.report _
  blame _ h := h.report _

end CharStream

end FrontEnd
