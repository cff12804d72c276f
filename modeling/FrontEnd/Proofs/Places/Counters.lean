import Mathlib.Data.String.Basic
import FrontEnd.Proofs.Order.Scans

/-!
# Counters stay below what there is to read

Lines and columns are natural numbers here, where a program keeps them in 32 bits. `Counts` bounds them
along a stream: the lines counted so far and the bytes that are left are never more than the bytes there
were at first, and so are the columns and the bytes that are left. Every byte moves the column on by one,
or the line. Only going back to the first of two dots gives bytes back, and the newline that may have been
looked at by then counts already; but the dot that is fetched again makes up for it (`Counts.advance_rewind`).

So whatever stands in a source of `n` bytes, and whatever is reported there, is on line `n + 1` at most,
and in column `n + 1` at most (`Reader.scan_upTo`). If `n + 1` fits into 32 bits, so does every place, and
counters of that width do not start over.
-/

namespace FrontEnd

/-! ## Bounds -/

/-- The place is one that `n` bytes may lead to. -/
structure Place.UpTo (n : Nat) (p : Place) : Prop where
  line_pos : 0 < p.line
  line_le : p.line ≤ n + 1
  column_pos : 0 < p.column
  column_le : p.column ≤ n + 1

/-- What few bytes lead to fits. -/
theorem Place.UpTo.fits {n : Nat} {p : Place} (h : p.UpTo n) (hn : n + 1 < UInt32.size) : p.Fits :=
  ⟨Nat.lt_of_le_of_lt h.line_le hn, Nat.lt_of_le_of_lt h.column_le hn⟩

/-- What is reported is one of the things that `n` bytes may lead to. A comment reaches further than its
bytes, if they cannot be decoded: each of them may stand for a replacement character of three. -/
def Report.UpTo (n : Nat) : Report → Prop
  | .error e => e.place.UpTo n
  | .directive place comment => place.UpTo n ∧ place.column + comment.utf8ByteSize ≤ 3 * n + 1

/-- Reading bytes as text makes three of one at most. -/
theorem Utf8.utf8ByteSize_lossyChars_le (bytes : ByteArray) (i : Nat) :
    (String.ofList (lossyChars bytes i)).utf8ByteSize ≤ 3 * (bytes.size - i) := by
  rw [String.utf8ByteSize_ofList]
  fun_induction lossyChars bytes i with
  | case1 i hi c hc ih =>
    have hle := ByteArray.le_size_of_utf8DecodeChar?_eq_some hc
    rw [String.utf8Len_cons]
    omega
  | case2 i hi _ ih =>
    have hwidth := brokenWidth_pos bytes i
    have hreplacement : replacement.utf8Size = 3 := by decide
    rw [String.utf8Len_cons, hreplacement]
    omega
  | case3 => exact Nat.zero_le _

/-! ## Dots in a buffer -/

namespace Buffer

/-- The byte of a dot. -/
def dotByte : UInt8 := 0x2e

/-- A dot is at `i`, among the cells up to `stop`. -/
def DotAt (cells : ByteArray) (stop i : Nat) : Prop :=
  i < stop ∧ cells.extract i (i + 1) = [dotByte].toByteArray

/-- The mark of the buffer is at a dot. -/
def MarksDot (b : Buffer) : Prop := ∃ m, b.mark? = some m ∧ DotAt b.cells b.stop m

variable {b : Buffer}

/-- Filling moves the dot at the mark to the front. -/
theorem MarksDot.fill (hb : b.Within) (h : b.MarksDot) : b.fill.MarksDot := by
  obtain ⟨m, hm, hlt, hdot⟩ := h
  have hstop := hb.stop_le
  have hkeep : b.keepFrom = m := congrArg (·.getD b.next) hm
  have hkept : 1 ≤ (b.cells.extract m b.stop).size := by
    rw [ByteArray.size_extract]
    omega
  refine ⟨0, congrArg (·.map fun _ => 0) hm, ?_, ?_⟩
  · unfold Buffer.fill
    dsimp only
    rw [hkeep, ByteArray.size_append]
    omega
  · unfold Buffer.fill
    dsimp only
    rw [hkeep, extract_push_of_le (by rw [ByteArray.size_append]; omega), extract_append_of_le (by omega),
      ByteArray.extract_extract, Nat.add_zero, Nat.min_eq_left (by omega), hdot]

/-- A refill keeps the dot at the mark. -/
theorem MarksDot.replenish (hb : b.Within) (h : b.MarksDot) : b.replenish.MarksDot := by
  fun_induction Buffer.replenish b with
  | case1 b _ ih => exact ih (within_fill hb) (h.fill hb)
  | case2 b _ => exact h

/-- A dot at the mark stays there while the buffer fetches. -/
theorem MarksDot.fetch (hb : b.Within) (h : b.MarksDot) : b.fetch.2.MarksDot := by
  unfold Buffer.fetch
  split
  · exact h
  · obtain ⟨n, pending?, htake, -, -⟩ := exists_take (within_replenish hb).1
    rw [htake]
    exact h.replenish hb

/-- Back at the mark, the dot there is fetched again. -/
theorem MarksDot.fetch_rewind (hb : b.Within) (h : b.MarksDot) :
    (ByteWindow.rewind b).fetch.1 = .char '.' := by
  obtain ⟨m, hm, hlt, hdot⟩ := h
  have hsize : m < b.cells.size := Nat.lt_of_lt_of_le hlt hb.stop_le
  have hcell : b.cells[m] = dotByte := by
    rw [ByteArray.extract_add_one hsize] at hdot
    simpa using congrArg (·.data.toList) hdot
  have hrewind : ByteWindow.rewind b = { b with next := m } := by
    change { b with next := b.mark?.getD b.next } = _
    rw [hm, Option.getD_some]
  have hplain : ({ b with next := m } : Buffer).plain? = some (.char '.') := by
    unfold plain?
    dsimp only
    rw [if_pos hlt, getElem?_pos b.cells m hsize, hcell]
    rfl
  rw [hrewind, Buffer.fetch, hplain]

/-- Only the byte of a dot says that it is one. -/
theorem eq_dotByte_of_ofByte {x : UInt8} (h : ofByte x = .char '.') : x = dotByte := by
  unfold ofByte at h
  split at h
  · cases h
  · have hval := congrArg Char.toNat (Fetched.char.inj h)
    exact UInt8.toNat_inj.mp hval

/-- Where a dot has just been fetched, it is right before the position. -/
theorem dotAt_of_fetch (hb : b.Within) (h : b.fetch.1 = .char '.') :
    0 < b.fetch.2.next ∧ DotAt b.fetch.2.cells b.fetch.2.stop (b.fetch.2.next - 1) := by
  unfold Buffer.fetch at h ⊢
  -- The dot was a plain byte in the buffer, or it was decoded after the buffer had been filled up.
  cases hp : b.plain? with
  | some found =>
    rw [hp] at h
    obtain rfl : found = .char '.' := h
    have hlt := lt_stop_of_plain? hp
    have hsize : b.next < b.cells.size := Nat.lt_of_lt_of_le hlt hb.stop_le
    unfold plain? at hp
    rw [if_pos hlt, getElem?_pos b.cells b.next hsize] at hp
    dsimp only at hp
    split at hp
    · have hcell := eq_dotByte_of_ofByte (Option.some.inj hp)
      refine ⟨Nat.succ_pos _, hlt, ?_⟩
      dsimp only
      rw [Nat.add_sub_cancel, ByteArray.extract_add_one hsize, hcell]
    · cases hp
  | none =>
    rw [hp] at h
    have hw := (within_replenish hb).1
    generalize b.replenish = b at h hw
    have hstop := hw.stop_le
    unfold take at h ⊢
    dsimp only at h ⊢
    by_cases hlt : b.next < b.stop
    · rw [if_pos hlt] at h ⊢
      cases hc : (b.cells.extract b.next (min (b.next + Utf8.maxWidth) b.stop)).utf8DecodeChar? 0 with
      | some c =>
        rw [hc] at h
        obtain rfl : c = '.' := Fetched.char.inj h
        -- A dot is encoded by its one byte, so that byte stands before `next`.
        have hdecoded := Utf8.extract_of_utf8DecodeChar? hc
        have hmin : min (b.next + 1) (min (b.next + Utf8.maxWidth) b.stop) = b.next + 1 := by
          unfold Utf8.maxWidth
          omega
        refine ⟨Nat.succ_pos _, hlt, ?_⟩
        rw [ByteArray.extract_extract] at hdecoded
        change b.cells.extract b.next (min (b.next + 1) _) = _ at hdecoded
        rw [hmin] at hdecoded
        exact hdecoded
      | none =>
        rw [hc] at h
        cases h
    · rw [if_neg hlt] at h
      split at h <;> cases h

end Buffer

/-! ## Streams count bytes -/

namespace CharStream

/-- The stream has counted no more, of `n` bytes, than what is not left of them, and is about to fetch
more. -/
structure Counting (n : Nat) (s : CharStream Buffer) : Prop where
  within : s.window.Within
  line_le : s.line + s.window.remaining ≤ n
  column_le : s.column + s.window.remaining ≤ n
  upTo : ∀ report ∈ s.reports.toList, report.UpTo n

/-- The stream has counted no more, of `n` bytes, than what comes before its current character, and what it
has fetched is what the cells say. -/
structure Counts (n : Nat) (s : CharStream Buffer) : Prop where
  within : s.window.Within
  line_le : s.line + (s.width + s.window.remaining) ≤ n
  column_le : s.column + (s.width + s.window.remaining) ≤ n
  newline : s.char? = some '\n' → 0 < s.width
  dot : s.char? = some '.' → s.width = 1 ∧ 0 < s.window.next ∧
    Buffer.DotAt s.window.cells s.window.stop (s.window.next - 1)
  upTo : ∀ report ∈ s.reports.toList, report.UpTo n

variable {n : Nat} {s : CharStream Buffer} {start : Place}

/-- The current character is at one of the places that the bytes may lead to. -/
theorem Counts.place_upTo (h : s.Counts n) : s.place.UpTo n where
  line_pos := Nat.succ_pos _
  line_le := Nat.succ_le_succ (Nat.le_trans (Nat.le_add_right ..) h.line_le)
  column_pos := Nat.succ_pos _
  column_le := Nat.succ_le_succ (Nat.le_trans (Nat.le_add_right ..) h.column_le)

/-- One more thing that is told, as long as it is one that the bytes may lead to. -/
theorem Counts.report (h : s.Counts n) (report : Report) (hreport : report.UpTo n) :
    (s.report report).Counts n := by
  refine { h with upTo := ?_ }
  rw [CharStream.report, Array.toList_push]
  exact List.forall_mem_append.mpr ⟨h.upTo, List.forall_mem_singleton.mpr hreport⟩

/-- A complaint counts nothing. -/
theorem Counts.complain (h : s.Counts n) (fault : LexFault) : (s.complain fault).Counts n :=
  h.report (.error ⟨fault, s.place⟩) h.place_upTo

/-- Forgetting the reports counts nothing. -/
theorem Counts.dropReports (h : s.Counts n) : s.dropReports.Counts n :=
  { h with upTo := fun _ hr => (List.not_mem_nil hr).elim }

/-- Giving up the mark counts nothing. -/
theorem Counts.clearMark (h : s.Counts n) : s.clearMark.Counts n :=
  { h with within := ⟨h.within.next_le, h.within.stop_le, Nat.le_refl _⟩ }

/-- Setting the mark counts nothing. -/
theorem Counts.setMark (h : s.Counts n) : s.setMark.Counts n :=
  { h with within := ⟨h.within.next_le, h.within.stop_le, Nat.sub_le ..⟩ }

/-- A newline trades a byte for a line, and whatever else is passed trades its bytes for columns. -/
theorem Counts.passChar (h : s.Counts n) : s.passChar.Counting n := by
  have hline := h.line_le
  have hcolumn := h.column_le
  unfold CharStream.passChar
  split
  · next hc =>
    have hwidth := h.newline hc
    refine ⟨h.within, ?_, ?_, h.upTo⟩
    · dsimp only
      omega
    · dsimp only
      omega
  · refine ⟨h.within, ?_, ?_, h.upTo⟩
    · dsimp only
      omega
    · dsimp only
      omega

/-- What is fetched is counted with what was left. -/
theorem Counting.receive (h : s.Counting n) : (s.receive s.window.fetch).Counts n := by
  have hline := h.line_le
  have hcolumn := h.column_le
  have hfetch := Buffer.remaining_fetch h.within
  have hplace : s.place.UpTo n :=
    ⟨Nat.succ_pos _, Nat.succ_le_succ (by omega), Nat.succ_pos _, Nat.succ_le_succ (by omega)⟩
  constructor
  case within =>
    rw [window_receive]
    exact (Buffer.within_fetch h.within).1
  case line_le =>
    rw [width_receive, window_receive, line_receive]
    omega
  case column_le =>
    rw [width_receive, window_receive, column_receive]
    omega
  -- A newline or a dot was delivered as a character, which has taken its bytes.
  case newline =>
    intro hc
    refine width_pos_of_found ?_
    rw [← isSome_char?_receive s, hc]
    rfl
  case dot =>
    intro hc
    have hdot : s.window.fetch.1 = .char '.' := by
      rw [char?_receive] at hc
      cases hf : s.window.fetch.1 with
      | char c =>
        rw [hf] at hc
        rw [Option.some.inj hc]
      | nul | malformed =>
        rw [hf] at hc
        exact absurd hc (by decide)
      | finished =>
        rw [hf] at hc
        cases hc
    rw [width_receive, window_receive, hdot]
    exact ⟨rfl, Buffer.dotAt_of_fetch h.within hdot⟩
  -- The report about what came is at the current place.
  case upTo =>
    rw [reports_receive]
    refine List.forall_mem_append.mpr ⟨h.upTo, ?_⟩
    cases s.fault? s.window.fetch.1 with
    | none => exact fun _ hr => (List.not_mem_nil hr).elim
    | some fault => exact List.forall_mem_singleton.mpr hplace

/-- What comes next is counted once it is passed. -/
theorem Counting.seek (h : s.Counting n) : s.seek.Counts n := by
  fun_induction CharStream.seek s with
  | case1 s _ ih => exact ih h.receive.passChar
  | case2 s _ => exact h.receive

/-- Going on, a stream counts no more than it passes. -/
theorem Counts.advance (h : s.Counts n) : s.advance.Counts n := h.passChar.seek

/-! ## Going back to a dot -/

/-- Going on to the next character keeps the dot at the mark. -/
theorem marksDot_seek (hw : s.window.Within) (h : s.window.MarksDot) : s.seek.window.MarksDot := by
  fun_induction CharStream.seek s with
  | case1 s _ ih =>
    refine ih ?_ ?_
    · rw [window_passChar, window_receive]
      exact (Buffer.within_fetch hw).1
    · rw [window_passChar, window_receive]
      exact h.fetch hw
  | case2 s _ =>
    rw [window_receive]
    exact h.fetch hw

/-- Passing the current character keeps the dot at the mark. -/
theorem marksDot_advance (hw : s.window.Within) (h : s.window.MarksDot) : s.advance.window.MarksDot :=
  marksDot_seek (by rwa [window_passChar]) (by rwa [window_passChar])

/-- The window is back at the mark before anything is fetched. -/
theorem window_rewound (s : CharStream Buffer) : s.rewound.window = ByteWindow.rewind s.window := by
  unfold rewound
  rw [window_passChar]

/-- A newline that has been looked at counts when the stream goes back. -/
theorem rewound_le (s : CharStream Buffer) : s.rewound.line ≤ s.line + 1 ∧
    s.rewound.column ≤ s.column + s.width - ByteWindow.sinceMark s.window := by
  unfold rewound passChar
  split
  · exact ⟨Nat.le_refl _, Nat.zero_le _⟩
  · exact ⟨Nat.le_succ _, Nat.le_refl _⟩

/-- Back at the mark, the dot there is received at once: it is no mark of the byte order. -/
theorem rewind_eq_receive (hw : s.window.Within) (h : s.window.MarksDot) :
    s.rewind = s.rewound.receive (ByteWindow.rewind s.window).fetch := by
  have hpassed : ¬passedOver (ByteWindow.rewind s.window).fetch.1 := by
    rw [h.fetch_rewind hw]
    decide
  have hwindow := s.window_rewound
  rw [rewind_eq]
  generalize s.rewound = t at hwindow ⊢
  rw [← hwindow] at hpassed ⊢
  rw [CharStream.seek]
  exact if_neg hpassed

/-- The dot at the mark is fetched again, and the byte that it takes makes up for a newline that has been
looked at. -/
theorem Counts.advance_rewind (h : s.Counts n) (hdot : s.window.MarksDot) {line fromMark : Nat}
    (hline : s.line ≤ line) (hmark : s.fromMark ≤ fromMark) (hall : line + fromMark ≤ n) :
    s.rewind.advance.Counts n := by
  have hcolumn := h.column_le
  have hback : (ByteWindow.rewind s.window).remaining ≤ s.window.remaining + ByteWindow.sinceMark s.window :=
    Rewindable.rewind_le (w := s.window) h.within
  have hfrom : s.fromMark = s.window.remaining + ByteWindow.sinceMark s.window := rfl
  -- Going back stays in the buffer, and what is fetched there again is the marked dot, one byte wide.
  have hwithin : (ByteWindow.rewind s.window).Within := Buffer.within_rewind h.within
  have hfetch := hdot.fetch_rewind h.within
  have hne : (ByteWindow.rewind s.window).fetch.1 ≠ .char '\n' := by
    rw [hfetch]
    decide
  have hwidth : (ByteWindow.rewind s.window).fetch.1.width = 1 := by
    rw [hfetch]
    rfl
  have hremaining := Buffer.remaining_fetch hwithin
  rw [hwidth] at hremaining
  have hreports : (s.rewound.receive (ByteWindow.rewind s.window).fetch).reports.toList = s.reports.toList := by
    rw [reports_receive, hfetch]
    change s.rewound.reports.toList ++ [] = _
    rw [List.append_nil, rewound, reports_passChar]
  obtain ⟨hline', hcolumn'⟩ := s.rewound_le
  rw [CharStream.advance, rewind_eq_receive h.within hdot]
  -- The bytes gone back over are counted a second time, which `fromMark` leaves room for.
  refine Counting.seek ⟨?_, ?_, ?_, ?_⟩
  · rw [window_passChar, window_receive]
    exact (Buffer.within_fetch hwithin).1
  · rw [window_passChar, window_receive, line_passChar _ (char?_receive_ne _ _ hne), line_receive]
    omega
  · rw [window_passChar, window_receive, column_passChar _ (char?_receive_ne _ _ hne), column_receive,
      width_receive, hwidth]
    omega
  · rw [reports_passChar, hreports]
    exact h.upTo

/-! ## Going forward -/

/-- What is marked is among the bytes from the mark on. -/
theorem size_marked_le (s : CharStream Buffer) : s.marked.size ≤ s.fromMark := by
  simp only [marked, fromMark, ByteWindow.marked, ByteWindow.sinceMark]
  split
  next m hm =>
    rw [ByteArray.size_extract, hm, Option.getD_some]
    omega
  next => exact Nat.zero_le _

/-- Without a mark there are no more bytes to come. -/
theorem fromMark_clearMark_le (s : CharStream Buffer) : s.clearMark.fromMark ≤ s.fromMark := by
  change s.window.remaining + (s.window.next - s.window.next) ≤
    s.window.remaining + (s.window.next - s.window.mark?.getD s.window.next)
  omega

/-- A comment that starts at `start` has no more bytes than are left from there. -/
theorem upTo_directive (hstart : start.UpTo n) (h : start.column + s.fromMark ≤ n + 1) :
    (Report.directive start (Utf8.decodeLossy s.marked)).UpTo n := by
  have hmarked := s.size_marked_le
  have hlossy := Utf8.utf8ByteSize_lossyChars_le s.marked 0
  have hcolumn := hstart.column_pos
  refine ⟨hstart, ?_⟩
  unfold Utf8.decodeLossy
  omega

/-- Going forward counts no more than it passes, and tells of the token that starts at `start`, with no more
bytes in it than are left from there. -/
theorem forward_counts (hstart : start.UpTo n) : Forward start fun s t : CharStream Buffer =>
    s = t ∧ s.Counts n ∧ start.column + s.fromMark ≤ n + 1 where
  -- The start of the token was counted before, and each operation counts a byte at most once.
  toOnward := .of_invariant start
    (fun _ ⟨h, hfrom⟩ =>
      ⟨h.advance, Nat.le_trans (Nat.add_le_add_left (fromMark_advance_le h.within) _) hfrom⟩)
    (fun _ ⟨h, hfrom⟩ => ⟨h.complain _, hfrom⟩)
    fun {_ fault} _ ⟨h, hfrom⟩ => ⟨h.report (.error ⟨fault, start⟩) hstart, hfrom⟩
  goOn := by
    rintro s _ ⟨rfl, h, hfrom⟩
    exact ⟨rfl, h.advance, Nat.le_trans (Nat.add_le_add_left (fromMark_advance_le h.within) _) hfrom⟩
  clearMark := by
    rintro s _ ⟨rfl, h, hfrom⟩
    exact ⟨rfl, h.clearMark, Nat.le_trans (Nat.add_le_add_left s.fromMark_clearMark_le _) hfrom⟩
  reportDirective := by
    rintro s _ ⟨rfl, h, hfrom⟩
    exact ⟨rfl, h.report _ (upTo_directive hstart hfrom), hfrom⟩
  reject := by
    rintro s _ c ⟨rfl, h, hfrom⟩
    exact ⟨rfl, h.report (.error ⟨.unexpectedCharacter c, start⟩) hstart, hfrom⟩
  leaveOpen := by
    rintro s _ ⟨rfl, h, hfrom⟩
    exact ⟨rfl, h.report (.error ⟨.unterminatedComment, start⟩) hstart, hfrom⟩

end CharStream

/-! ## Scanners -/

namespace Scanner

open CharStream

variable {n : Nat} {s : CharStream Buffer} {l : Lexeme} {c : Char} {separable : Bool}

/-- The stream is at the first character of a token, with the mark there. -/
structure Fresh (n : Nat) (s : CharStream Buffer) : Prop where
  counts : s.Counts n
  fromMark_le : s.fromMark ≤ s.width + s.window.remaining
  marksDot : s.char? = some '.' → s.window.MarksDot

/-- At the start of a token its column and the bytes from there on are all that there is. -/
theorem Fresh.column_le (h : Fresh n s) : s.place.column + s.fromMark ≤ n + 1 := by
  have hcolumn := h.counts.column_le
  have hfrom := h.fromMark_le
  change s.column + 1 + s.fromMark ≤ n + 1
  omega

/-- What starts with a dot is counted right, also where the scanner goes back to the first of two. -/
theorem counts_dot (h : Fresh n s) (hl : l.place = s.place) (hc : s.char? = some '.') :
    (dot l s).stream.Counts n := by
  have hplace : l.place.UpTo n := hl ▸ h.counts.place_upTo
  have hF := forward_counts hplace
  have ha := h.counts.advance
  have hforward : s.advance = s.advance ∧ s.advance.Counts n ∧ l.place.column + s.advance.fromMark ≤ n + 1 :=
    hF.goOn ⟨rfl, h.counts, hl ▸ h.column_le⟩
  unfold dot
  dsimp only
  split
  · exact (hF.foundNumber l (hF.fraction hforward)).2.2.1
  · split
    · next hdot =>
      split
      · exact ha.advance.advance
      · -- The mark is at the first of the two dots, to which the stream goes back.
        have hmarks := marksDot_advance ha.within (marksDot_advance h.counts.within (h.marksDot hc))
        have hline : s.advance.advance.line = s.line := by
          rw [line_advance _ (by rw [hdot]; decide), line_advance _ (by rw [hc]; decide)]
        have hfrom : s.advance.advance.fromMark ≤ s.width + s.window.remaining :=
          Nat.le_trans (fromMark_advance_le ha.within)
            (Nat.le_trans (fromMark_advance_le h.counts.within) h.fromMark_le)
        exact ha.advance.advance_rewind hmarks (Nat.le_of_eq hline) hfrom h.counts.line_le
    · exact ha

/-- Whatever an attempt starts with, it counts no more than it passes. -/
theorem counts_attemptAt (h : Fresh n s) (hl : l.place = s.place) (hc : s.char? = some c) :
    (attemptAt separable l c s).stream.Counts n := by
  have hplace : l.place.UpTo n := hl ▸ h.counts.place_upTo
  have hF := forward_counts hplace
  have hstart : s = s ∧ s.Counts n ∧ l.place.column + s.fromMark ≤ n + 1 := ⟨rfl, h.counts, hl ▸ h.column_le⟩
  refine hF.toOnward.attemptAt (Q := fun a _ => a.stream.Counts n) separable rfl hc hstart
    (fun hfound => hfound.2.2.1) ?_ (fun hdot => counts_dot h hl (hdot ▸ hc)) fun _ => ?_
  · exact (hF.goOn (hF.reject hstart)).2.1
  · have hslash := hF.slash separable (l := l) rfl hstart
    cases ha : slash separable l s <;> rw [ha] at hslash <;> cases hslash
    case found.found hfound => exact hfound.2.2.1
    case passed.passed hpassed => exact hpassed.2.1

/-- Behind blanks, with the mark set, a token may start. -/
theorem fresh_toToken (separable : Bool) (h : s.Counts n) : Fresh n (toToken separable s) := by
  have hskip : (s.clearMark.skipWhile (isBlank separable)).Counts n :=
    (skipWhile_of_pass (R := fun s t => s = t ∧ s.Counts n) (fun hst => congrArg CharStream.char? hst.1)
      (by rintro s _ c - - ⟨rfl, h⟩; exact ⟨rfl, h.advance⟩) ⟨rfl, h.clearMark⟩).2
  unfold toToken
  generalize s.clearMark.skipWhile (isBlank separable) = t at hskip
  refine ⟨hskip.setMark, ?_, fun hc => ?_⟩
  · change t.window.remaining + (t.window.next - (t.window.next - t.width)) ≤ t.width + t.window.remaining
    omega
  · obtain ⟨hwidth, -, hdot⟩ := hskip.dot hc
    refine ⟨t.window.next - t.width, rfl, ?_⟩
    rw [hwidth]
    exact hdot

/-- What an attempt finds is at one of the places that the bytes may lead to. -/
theorem counts_attempt (separable : Bool) (l : Lexeme) (h : s.Counts n) :
    (attempt separable l s).stream.Counts n ∧
      ∀ x, attempt separable l s = .found x → x.lexeme.place.UpTo n := by
  have hfresh := fresh_toToken separable h
  have hplace := hfresh.counts.place_upTo
  unfold attempt
  dsimp only
  cases hc : (toToken separable s).char? with
  | none =>
    refine ⟨hfresh.counts, fun x hx => ?_⟩
    cases hx
    cases separable <;> exact hplace
  | some c =>
    refine ⟨counts_attemptAt hfresh rfl hc, fun x hx => ?_⟩
    rw [(found_attemptAt hx).place_eq]
    exact hplace

/-- Finding a token counts no more than it passes, and starts it at a place that has been counted. -/
theorem counts_find (separable : Bool) (l : Lexeme) (h : s.Counts n) :
    (find separable l s).stream.Counts n ∧ (find separable l s).lexeme.place.UpTo n := by
  fun_induction find separable l s with
  | case1 s x hx =>
    obtain ⟨hcounts, hplace⟩ := counts_attempt separable l h
    rw [hx] at hcounts
    exact ⟨hcounts, hplace x hx⟩
  | case2 s t ht ih =>
    have hcounts := (counts_attempt separable l h).1
    rw [ht] at hcounts
    exact ih hcounts

/-- After any number of tokens, a stream has counted no more than it has passed. -/
theorem counts_after {x : Scanner Buffer} (h : x.stream.Counts n) (k : Nat) :
    (x.after k).stream.Counts n := by
  induction k generalizing x with
  | zero => exact h
  | succ k ih => exact ih (x := x.next.dropReports) (counts_find _ _ h).1.dropReports

/-- Every token and every report of the scans is where the bytes may lead to. -/
theorem upTo_scanUpTo {x : Scanner Buffer} (h : x.stream.Counts n) (k : Nat) :
    ∀ scan ∈ x.scanUpTo k, scan.lexeme.place.UpTo n ∧ ∀ report ∈ scan.reports, report.UpTo n := by
  induction k generalizing x with
  | zero => exact fun _ hs => (List.not_mem_nil hs).elim
  | succ k ih =>
    obtain ⟨hcounts, hplace⟩ : x.next.stream.Counts n ∧ x.next.lexeme.place.UpTo n := counts_find _ _ h
    by_cases heof : x.next.lexeme.token = .eof
    · rw [scanUpTo_of_eof k heof]
      exact List.forall_mem_singleton.mpr ⟨hplace, hcounts.upTo⟩
    · rw [scanUpTo_of_ne k heof]
      exact List.forall_mem_cons.mpr ⟨⟨hplace, hcounts.upTo⟩, ih (x := x.next.dropReports) hcounts.dropReports⟩

end Scanner

/-! ## Readers -/

namespace Reader

variable (r : Reader)

/-- The stream on a reader counts what that has. -/
theorem counts_ofReader : (Scanner.ofWindow (Buffer.ofReader r)).stream.Counts r.bytesLeft := by
  refine CharStream.Counting.seek ⟨?_, ?_, ?_, fun _ hr => (List.not_mem_nil hr).elim⟩
  · exact ⟨Nat.le_refl _, Nat.zero_le _, Nat.le_refl _⟩
  · change 0 + (0 - 0 + r.bytesLeft) ≤ r.bytesLeft
    omega
  · change 0 + (0 - 0 + r.bytesLeft) ≤ r.bytesLeft
    omega

/-- All lexemes of a reader, and all that is reported, are at places that its bytes may lead to. -/
theorem scan_upTo : ∀ scan ∈ r.scans, scan.lexeme.place.UpTo r.bytesLeft ∧
    ∀ report ∈ scan.reports, report.UpTo r.bytesLeft :=
  Scanner.upTo_scanUpTo r.counts_ofReader _

/-- If 32 bits can count the bytes of a reader, and one more, the line and the column of its stream never start
over, however many tokens are found. -/
theorem fits_after (hsize : r.bytesLeft + 1 < UInt32.size) (k : Nat) :
    ((Scanner.ofWindow (Buffer.ofReader r)).after k).stream.place.Fits :=
  (Scanner.counts_after r.counts_ofReader k).place_upTo.fits hsize

end Reader

end FrontEnd
