import FrontEnd.Bytes.Cursor
import FrontEnd.Proofs.Decoding
import FrontEnd.Proofs.Words.Coming

/-!
# Streams on clean text

In text without NUL characters and byte order marks nothing is passed over, so a stream on it is always
before one of its characters or at its end, and has taken all those before it (`CharStream.Before`). Going
on takes one character (`Before.advance`) and tells nothing; the text since a mark is what has been taken
since then (`Before.markedText_eq`).
-/

namespace FrontEnd

/-- There are no characters among these that a stream passes over. -/
def IsClean (cs : List Char) : Prop := ∀ c ∈ cs, c ≠ '\x00' ∧ c ≠ CharStream.byteOrderMark

instance (cs : List Char) : Decidable (IsClean cs) :=
  inferInstanceAs (Decidable (∀ c ∈ cs, c ≠ '\x00' ∧ c ≠ CharStream.byteOrderMark))

/-- The bytes of some characters, cut out of those of a text. -/
theorem extract_utf8Encode (front cs behind : List Char) : (front ++ cs ++ behind).utf8Encode.extract
    front.utf8Encode.size (front ++ cs).utf8Encode.size = cs.utf8Encode := by
  have hfront := ByteArray.extract_append_size_add (a := front.utf8Encode)
    (b := cs.utf8Encode ++ behind.utf8Encode) (i := 0) (j := cs.utf8Encode.size)
  rw [Nat.add_zero] at hfront
  rw [List.append_assoc, List.utf8Encode_append, List.utf8Encode_append, List.utf8Encode_append,
    ByteArray.size_append, hfront]
  exact ByteArray.extract_append_eq_left rfl

namespace CharStream

variable {s t : CharStream Cursor} {taken cs rest : List Char} {c : Char}

/-- The number of bytes of the first character. -/
def headWidth (cs : List Char) : Nat := (cs.head?.map Char.utf8Size).getD 0

/-- The stream at the first of the characters `rest`, which start at the given offset. -/
def atFirst (rest : List Char) (offset : Nat) (s : CharStream Cursor) : CharStream Cursor :=
  { s with
    window := { s.window with offset := offset + headWidth rest }
    char? := rest.head?
    width := headWidth rest }

/-- Before clean text, the first character is fetched and nothing else changes. -/
theorem seek_eq (hbytes : s.window.bytes = (taken ++ rest).utf8Encode)
    (hoffset : s.window.offset = taken.utf8Encode.size) (hrest : IsClean rest) :
    s.seek = s.atFirst rest taken.utf8Encode.size := by
  rw [List.utf8Encode_append] at hbytes
  -- At the end the fetch finds nothing; otherwise it decodes `c`, which is neither passed over nor a fault.
  cases rest with
  | nil =>
    have hfetch : ByteWindow.fetch s.window = (.finished none, s.window) := by
      change Cursor.fetch s.window = _
      unfold Cursor.fetch
      rw [if_neg]
      rw [hbytes, hoffset, ByteArray.size_append]
      simp
    rw [seek.eq_def, hfetch, if_neg (by simp [passedOver])]
    unfold receive atFirst headWidth
    simp only [fault?, List.head?_nil, Option.map_none, Option.getD_none, Nat.add_zero]
    rw [← hoffset]
  | cons c cs =>
    obtain ⟨hnul, hmark⟩ := hrest c List.mem_cons_self
    have hdecode : s.window.bytes.utf8DecodeChar? s.window.offset = some c := by
      rw [hbytes, hoffset, ByteArray.utf8DecodeChar?_eq_utf8DecodeChar?_extract,
        ByteArray.extract_append_eq_right rfl (by rw [ByteArray.size_append]),
        List.utf8DecodeChar?_utf8Encode_cons]
    have hfetch : ByteWindow.fetch s.window =
        (.char c, { s.window with offset := s.window.offset + c.utf8Size }) := by
      change Cursor.fetch s.window = _
      unfold Cursor.fetch
      rw [if_pos (ByteArray.lt_size_of_isSome_utf8DecodeChar? (by rw [hdecode]; rfl)), hdecode]
      dsimp only
      rw [Cursor.ofChar, if_neg hnul]
    rw [seek.eq_def, hfetch, if_neg (by simpa [passedOver] using hmark)]
    unfold receive atFirst headWidth fault?
    simp only [hmark, decide_false, Bool.false_and, Bool.false_eq_true, if_false, List.head?_cons,
      Option.map_some, Option.getD_some, hoffset]

/-- The stream is before `rest` and has taken all before that, and nothing is wrong. -/
structure Before (taken rest : List Char) (s : CharStream Cursor) : Prop where
  bytes_eq : s.window.bytes = (taken ++ rest).utf8Encode
  char?_eq : s.char? = rest.head?
  width_eq : s.width = headWidth rest
  offset_eq : s.window.offset = taken.utf8Encode.size + headWidth rest
  clean : IsClean rest
  fine : ∀ e, .error e ∉ s.reports

/-- A stream on clean characters finds the next one. -/
theorem before_seek (hbytes : s.window.bytes = (taken ++ rest).utf8Encode)
    (hoffset : s.window.offset = taken.utf8Encode.size) (hrest : IsClean rest)
    (hfine : ∀ e, .error e ∉ s.reports) : s.seek.Before taken rest := by
  rw [seek_eq hbytes hoffset hrest]
  exact ⟨hbytes, rfl, rfl, rfl, hrest, hfine⟩

namespace Before

/-- Behind a clean character the rest is clean. -/
theorem clean_tail (h : s.Before taken (c :: rest)) : IsClean rest :=
  fun d hd => h.clean d (List.mem_cons_of_mem _ hd)

/-- The bytes of the characters behind the first one are to come. -/
theorem bytes_passChar (h : s.Before taken (c :: rest)) :
    s.passChar.window.bytes = ((taken ++ [c]) ++ rest).utf8Encode ∧
      s.passChar.window.offset = (taken ++ [c]).utf8Encode.size := by
  refine ⟨?_, ?_⟩
  · rw [window_passChar, h.bytes_eq, List.append_assoc, List.singleton_append]
  · rw [window_passChar, h.offset_eq, List.utf8Encode_append, ByteArray.size_append,
      List.utf8Encode_singleton]
    simp [headWidth]

/-- What going on makes of a stream. -/
theorem advance_eq (h : s.Before taken (c :: rest)) :
    s.advance = s.passChar.atFirst rest (taken ++ [c]).utf8Encode.size :=
  seek_eq h.bytes_passChar.1 h.bytes_passChar.2 h.clean_tail

/-- Going on over clean characters tells nothing. -/
theorem reports_advance (h : s.Before taken (c :: rest)) : s.advance.reports = s.reports := by
  rw [h.advance_eq]
  exact reports_passChar s

/-- Going on takes the first character. -/
theorem advance (h : s.Before taken (c :: rest)) : s.advance.Before (taken ++ [c]) rest ∧
    s.advance.window.mark? = s.window.mark? ∧ (c ≠ '\n' → s.advance.line = s.line) := by
  have hfine : ∀ e, .error e ∉ s.passChar.reports := by
    rw [reports_passChar]
    exact h.fine
  refine ⟨before_seek h.bytes_passChar.1 h.bytes_passChar.2 h.clean_tail hfine, ?_, fun hc => ?_⟩
  · rw [h.advance_eq, atFirst, window_passChar]
  · rw [h.advance_eq, atFirst]
    unfold passChar
    rw [if_neg (by rw [h.char?_eq]; exact fun he => hc (Option.some.inj he))]

/-- Behind what comes first, the stream has taken it. -/
theorem of_comes (h : s.Before taken (cs ++ rest)) (hcs : s.Comes cs t) : t.Before (taken ++ cs) rest ∧
    t.window.mark? = s.window.mark? ∧ ('\n' ∉ cs → t.line = s.line) := by
  induction cs generalizing s taken with
  | nil =>
    cases hcs
    rw [List.append_nil]
    exact ⟨h, rfl, fun _ => rfl⟩
  | cons c cs ih =>
    obtain ⟨hfirst, hmark, hline⟩ := h.advance
    obtain ⟨hall, hmark', hline'⟩ := ih hfirst hcs.2
    rw [List.append_assoc, List.singleton_append] at hall
    refine ⟨hall, hmark'.trans hmark, fun hn => ?_⟩
    rw [List.mem_cons, not_or] at hn
    rw [hline' hn.2, hline (Ne.symm hn.1)]

/-- Passing clean characters tells nothing. -/
theorem reports_of_comes (h : s.Before taken (cs ++ rest)) (hcs : s.Comes cs t) : t.reports = s.reports := by
  induction cs generalizing s taken with
  | nil =>
    cases hcs
    rfl
  | cons c cs ih =>
    rw [ih h.advance.1 hcs.2, h.reports_advance]

/-- The characters that the stream is before come next. -/
theorem exists_comes (h : s.Before taken (cs ++ rest)) : ∃ t, s.Comes cs t := by
  induction cs generalizing s taken with
  | nil => exact ⟨s, rfl⟩
  | cons c cs ih =>
    obtain ⟨t, ht⟩ := ih h.advance.1
    exact ⟨t, h.char?_eq, ht⟩

/-- Setting the mark changes nothing about what comes. -/
theorem setMark (h : s.Before taken rest) : s.setMark.Before taken rest :=
  ⟨h.bytes_eq, h.char?_eq, h.width_eq, h.offset_eq, h.clean, h.fine⟩

/-- Giving up the mark changes nothing about what comes. -/
theorem clearMark (h : s.Before taken rest) : s.clearMark.Before taken rest :=
  ⟨h.bytes_eq, h.char?_eq, h.width_eq, h.offset_eq, h.clean, h.fine⟩

/-- Forgetting the reports changes nothing about what comes. -/
theorem dropReports (h : s.Before taken rest) : s.dropReports.Before taken rest :=
  ⟨h.bytes_eq, h.char?_eq, h.width_eq, h.offset_eq, h.clean, fun _ => Array.not_mem_empty _⟩

/-- Reporting a directive changes nothing about what comes. -/
theorem reportDirective (h : s.Before taken rest) (start : Place) :
    (s.reportDirective start).Before taken rest := by
  refine ⟨h.bytes_eq, h.char?_eq, h.width_eq, h.offset_eq, h.clean, fun e he => ?_⟩
  rcases Array.mem_push.mp he with he | he
  · exact h.fine e he
  · cases he

/-- The text since a mark is what has been taken since then. -/
theorem markedText_eq (h : s.Before taken (cs ++ rest)) (hcs : s.setMark.Comes cs t) :
    t.markedText = String.ofList cs := by
  obtain ⟨ht, hmark, -⟩ := h.setMark.of_comes hcs
  have hmark' : t.window.mark? = some taken.utf8Encode.size := by
    rw [hmark]
    change some (s.window.offset - s.width) = _
    rw [h.offset_eq, h.width_eq, Nat.add_sub_cancel]
  have hend : t.window.offset - t.width = (taken ++ cs).utf8Encode.size := by
    rw [ht.offset_eq, ht.width_eq, Nat.add_sub_cancel]
  have hmarked : t.marked = cs.utf8Encode := by
    unfold marked
    dsimp only [ByteWindow.marked]
    rw [hmark', hend, ht.bytes_eq]
    exact extract_utf8Encode taken cs rest
  have hclean : cs.filter (· ≠ '\x00') = cs :=
    List.filter_eq_self.mpr fun c hc => decide_eq_true (h.clean c (List.mem_append_left _ hc)).1
  unfold markedText
  rw [hmarked, Utf8.lossyChars_utf8Encode, hclean]

/-- There is at least a byte to come for each character. -/
theorem length_le_remaining (h : s.Before taken rest) : rest.length ≤ s.remaining := by
  -- Every character takes a byte at least.
  have hsize (cs : List Char) : cs.length ≤ cs.utf8Encode.size := by
    induction cs with
    | nil => exact Nat.zero_le _
    | cons c cs ih =>
      have hpos := c.utf8Size_pos
      rw [List.utf8Encode_cons, ByteArray.size_append, List.utf8Encode_singleton, List.size_toByteArray,
        String.length_utf8EncodeChar, List.length_cons]
      omega
  cases rest with
  | nil => exact Nat.zero_le _
  | cons c cs =>
    have hle := hsize cs
    have hleft : ByteWindow.remaining s.window = cs.utf8Encode.size := by
      change s.window.bytes.size - s.window.offset = _
      rw [h.bytes_eq, h.offset_eq, List.utf8Encode_append, List.utf8Encode_cons, ByteArray.size_append,
        ByteArray.size_append, List.utf8Encode_singleton, List.size_toByteArray,
        String.length_utf8EncodeChar]
      simp only [headWidth, List.head?_cons, Option.map_some, Option.getD_some]
      omega
    unfold remaining
    rw [hleft, h.char?_eq]
    simpa using hle

end Before

end CharStream

end FrontEnd
