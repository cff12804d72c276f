import FrontEnd.Parser.File
import FrontEnd.Proofs.Progress
import FrontEnd.Proofs.Refill

/-!
# Scanning from a reader is scanning the bytes

A scanner that reads through a buffer and one that has all the bytes before it go in lockstep, however
the reader divides the bytes and however long it takes (`lockstep_follows`). So both find the same
lexemes, cut out the same bytes and report the same (`Lockstep.sights`), and a parser that reads from
the one does what it does from the other, since their scans are the same (`Reader.scans_eq`).
-/

namespace FrontEnd

namespace Buffer

variable {b : Buffer} {outcome : Option ReadFailure} {c : Cursor}

/-! ## Marks -/

/-- The mark is set at the same byte. -/
theorem Tracks.setMark (h : b.Tracks outcome c) {back : Nat} (hback : back ≤ b.next) :
    (ByteWindow.setMark back b).Tracks outcome (ByteWindow.setMark back c) := by
  obtain ⟨before, held, ahead, h⟩ := h
  have ho := h.offset_eq
  refine ⟨before, held, ahead, { h with mark_le := ?_, mark?_eq := ?_ }⟩
  · intro m hm
    cases hm
    exact Nat.sub_le ..
  · change some (c.offset - back) = some (before.size + (b.next - back))
    rw [ho, Nat.add_sub_assoc hback]

/-- The mark is given up by both. -/
theorem Tracks.clearMark (h : b.Tracks outcome c) :
    (ByteWindow.clearMark b).Tracks outcome (ByteWindow.clearMark c) := by
  obtain ⟨before, held, ahead, h⟩ := h
  refine ⟨before, held, ahead, { h with mark_le := ?_, mark?_eq := rfl }⟩
  intro m hm
  cases hm

/-- There are as many bytes since the mark. -/
theorem Tracks.sinceMark_eq (h : b.Tracks outcome c) :
    ByteWindow.sinceMark b = ByteWindow.sinceMark c := by
  obtain ⟨before, held, ahead, h⟩ := h
  change b.next - b.mark?.getD b.next = c.offset - c.mark?.getD c.offset
  rw [h.mark?_eq, h.offset_eq]
  cases b.mark? with
  | none => simp
  | some m =>
    simp only [Option.getD_some, Option.map_some]
    omega

/-- What is marked are the same bytes. -/
theorem Tracks.marked_eq (h : b.Tracks outcome c) {back : Nat} (hback : back ≤ b.next) :
    ByteWindow.marked back b = ByteWindow.marked back c := by
  obtain ⟨before, held, ahead, h⟩ := h
  have hs := h.stop_eq
  have hn := h.next_le
  have hm := h.mark?_eq
  dsimp only [ByteWindow.marked]
  rw [hm]
  cases b.mark? with
  | none => rfl
  | some m =>
    simp only [Option.map_some]
    rw [h.cells_eq, extract_push_of_le (by omega), h.bytes_eq, h.offset_eq,
      Nat.add_sub_assoc hback, ByteArray.extract_append_size_add, extract_append_of_le (by omega)]

/-- Going back gets to the same byte. -/
theorem Tracks.rewind (h : b.Tracks outcome c) :
    (ByteWindow.rewind b).Tracks outcome (ByteWindow.rewind c) := by
  obtain ⟨before, held, ahead, h⟩ := h
  have hle : b.mark?.getD b.next ≤ b.next := h.keepFrom_le
  have hoffset : c.mark?.getD c.offset = before.size + b.mark?.getD b.next := by
    rw [h.mark?_eq, h.offset_eq]
    cases b.mark? <;> rfl
  -- Going back only uncovers bytes that the buffer has kept, so what has been sighted stays sighted.
  have hback : c.mark?.getD c.offset ≤ c.offset := by
    rw [hoffset, h.offset_eq]
    omega
  refine ⟨before, held, ahead,
    { h with
      next_le := Nat.le_trans hle h.next_le
      mark_le := ?_
      offset_eq := hoffset
      sighted := h.sighted.mono hback (Nat.le_refl _) }⟩
  intro m hm
  change b.mark? = some m at hm
  change m ≤ b.mark?.getD b.next
  rw [hm]
  exact Nat.le_refl m

end Buffer

/-! ## Streams -/

/-- A stream through a buffer is at the same place as one on all of `bytes`. -/
structure Follows (bytes : ByteArray) (s : CharStream Buffer) (t : CharStream Cursor) : Prop where
  tracks : s.window.Tracks none t.window
  bytes_eq : t.window.bytes = bytes
  width_le : s.width ≤ s.window.next
  line_eq : s.line = t.line
  column_eq : s.column = t.column
  char?_eq : s.char? = t.char?
  width_eq : s.width = t.width
  reports_eq : s.reports = t.reports

namespace Follows

variable {bytes : ByteArray} {s : CharStream Buffer} {t : CharStream Cursor}

/-- The place is the same. -/
theorem place_eq (h : Follows bytes s t) : s.place = t.place := by
  unfold CharStream.place
  rw [h.line_eq, h.column_eq]

/-- Counting a character does the same. -/
theorem passChar (h : Follows bytes s t) : Follows bytes s.passChar t.passChar := by
  unfold CharStream.passChar
  rw [← h.char?_eq]
  split
  · exact { h with line_eq := congrArg (· + 1) h.line_eq, column_eq := rfl, char?_eq := rfl }
  · have hcolumn : s.column + s.width = t.column + t.width := by rw [h.column_eq, h.width_eq]
    exact { h with column_eq := hcolumn, char?_eq := rfl }

/-- A report is told by both. -/
theorem report (h : Follows bytes s t) (r : Report) : Follows bytes (s.report r) (t.report r) :=
  { h with reports_eq := congrArg (·.push r) h.reports_eq }

/-- A complaint is told by both. -/
theorem complain (h : Follows bytes s t) (fault : LexFault) :
    Follows bytes (s.complain fault) (t.complain fault) := by
  unfold CharStream.complain
  rw [h.place_eq]
  exact h.report _

/-- After a fetch that finds the same, both have received the same. -/
theorem receive (h : Follows bytes s t) {f : Fetched} {b : Buffer} {c : Cursor} (hb : b.Tracks none c)
    (hc : c.bytes = bytes) (hf : f.width ≤ b.next) :
    Follows bytes (s.receive (f, b)) (t.receive (f, c)) := by
  have hfault : s.fault? f = t.fault? f := by
    unfold CharStream.fault?
    rw [h.line_eq, h.column_eq]
  unfold CharStream.receive
  dsimp only
  rw [hfault]
  cases t.fault? f with
  | none => cases f <;> exact ⟨hb, hc, hf, h.line_eq, h.column_eq, rfl, rfl, h.reports_eq⟩
  | some fault =>
    refine complain ?_ fault
    cases f <;> exact ⟨hb, hc, hf, h.line_eq, h.column_eq, rfl, rfl, h.reports_eq⟩

/-- What is marked are the same bytes. -/
theorem marked_eq (h : Follows bytes s t) : s.marked = t.marked := by
  unfold CharStream.marked
  rw [h.tracks.marked_eq h.width_le, h.width_eq]

/-- The mark is set by both. -/
theorem setMark (h : Follows bytes s t) : Follows bytes s.setMark t.setMark := by
  refine { h with tracks := ?_ }
  change (ByteWindow.setMark s.width s.window).Tracks none (ByteWindow.setMark t.width t.window)
  rw [← h.width_eq]
  exact h.tracks.setMark h.width_le

/-- The mark is given up by both. -/
theorem clearMark (h : Follows bytes s t) : Follows bytes s.clearMark t.clearMark :=
  { h with tracks := h.tracks.clearMark }

/-- The reports are forgotten by both. -/
theorem dropReports (h : Follows bytes s t) : Follows bytes s.dropReports t.dropReports :=
  { h with reports_eq := rfl }

/-- Both are at the same place when they have gone back to the mark. -/
theorem rewound (h : Follows bytes s t) : Follows bytes
    { s with
      window := ByteWindow.rewind s.window
      column := s.column + s.width - ByteWindow.sinceMark s.window
      width := 0 }
    { t with
      window := ByteWindow.rewind t.window
      column := t.column + t.width - ByteWindow.sinceMark t.window
      width := 0 } := by
  have hcolumn : s.column + s.width - ByteWindow.sinceMark s.window =
      t.column + t.width - ByteWindow.sinceMark t.window := by
    rw [h.column_eq, h.width_eq, h.tracks.sinceMark_eq]
  exact { h with
    tracks := h.tracks.rewind, width_le := Nat.zero_le _, column_eq := hcolumn, width_eq := rfl }

variable (hb : NulsBreakOff bytes)
include hb

/-- Both fetch the same, and receive it alike. -/
theorem fetch (h : Follows bytes s t) :
    (ByteWindow.fetch s.window).1 = (ByteWindow.fetch t.window).1 ∧
      Follows bytes (s.receive (ByteWindow.fetch s.window))
        (t.receive (ByteWindow.fetch t.window)) := by
  obtain ⟨hf, hw, hwidth⟩ := h.tracks.fetch (by rwa [h.bytes_eq])
  have hbytes : t.window.fetch.2.bytes = bytes := by
    rw [Cursor.bytes_fetch, h.bytes_eq]
  refine ⟨hf, ?_⟩
  have hr := h.receive (f := s.window.fetch.1) hw hbytes hwidth
  have ht : t.window.fetch = (s.window.fetch.1, t.window.fetch.2) := by rw [hf]
  rw [← ht] at hr
  exact hr

/-- Going on finds the same next character. -/
theorem seek (h : Follows bytes s t) : Follows bytes s.seek t.seek :=
  CharStream.seek_of_fetch (fun h => h.fetch hb) passChar h

/-- Going back finds the same character. -/
theorem rewind (h : Follows bytes s t) : Follows bytes s.rewind t.rewind := h.rewound.passChar.seek hb

end Follows

/-- A stream through a buffer and one on all the bytes go in lockstep. -/
theorem lockstep_follows {bytes : ByteArray} (hb : NulsBreakOff bytes) : Lockstep (Follows bytes) where
  toForward start := .of_report start Follows.char?_eq Follows.place_eq Follows.marked_eq
    (fun h => h.passChar.seek hb) (fun r h => h.report r) Follows.clearMark
  reports_eq := Follows.reports_eq
  setMark := Follows.setMark
  rewind h := h.rewind hb
  dropReports := Follows.dropReports

/-! ## Scans -/

/-- What can be seen of a scanner after it has found a token. -/
structure Sight where
  lexeme : Lexeme
  segment : ByteArray
  reports : List Report

/-- What can be seen of a scanner at each of its next `n` tokens. -/
def Scanner.sights {ω : Type} [ByteWindow ω] : Nat → Scanner ω → List Sight
  | 0, _ => []
  | n + 1, s => ⟨s.next.lexeme, s.next.segment, s.next.reports⟩ :: sights n s.next.dropReports

/-- In lockstep the same is seen. -/
theorem Lockstep.sights {ω ω' : Type} [ByteWindow ω] [ByteWindow ω']
    {R : CharStream ω → CharStream ω' → Prop} (hR : Lockstep R) (n : Nat) {s : Scanner ω}
    {t : Scanner ω'} (h : s.InStep R t) : s.sights n = t.sights n := by
  induction n generalizing s t with
  | zero => rfl
  | succ n ih =>
    have hn := hR.next h
    have hsegment : s.next.segment = t.next.segment := (hR.toForward s.stream.place).marked_eq hn.2
    have hreports : s.next.reports = t.next.reports := congrArg Array.toList (hR.reports_eq hn.2)
    unfold Scanner.sights
    rw [hn.1, hsegment, hreports, ih (hR.dropScannerReports hn)]

section

variable {bytes : ByteArray} {r : Reader}

/-- Before their first token, a scanner on a reader and one on all the bytes are in step. -/
theorem inStep_ofWindow (hb : NulsBreakOff bytes) (hr : r.Hands bytes none) :
    (Scanner.ofWindow (Buffer.ofReader r)).InStep (Follows bytes)
      (Scanner.ofWindow (Cursor.ofBytes bytes)) := by
  refine ⟨rfl, Follows.seek hb ?_⟩
  exact ⟨Buffer.tracks_ofReader hr, rfl, Nat.zero_le _, rfl, rfl, rfl, rfl, rfl⟩

/-- The scans of what a reader delivers are those of the bytes. -/
theorem Reader.scans_eq (hb : NulsBreakOff bytes) (hr : r.Hands bytes none) :
    r.scans = (Scanner.ofWindow (Cursor.ofBytes bytes)).scans := by
  have hstep := inStep_ofWindow hb hr
  obtain ⟨n, hreader, hbytes⟩ := Scanner.exists_scans_eq r.sound_ofReader (Cursor.sound_ofBytes bytes)
  calc r.scans = (Scanner.ofWindow (Buffer.ofReader r)).scanUpTo n := hreader
    _ = (Scanner.ofWindow (Cursor.ofBytes bytes)).scanUpTo n := (lockstep_follows hb).scanUpTo _ hstep
    _ = (Scanner.ofWindow (Cursor.ofBytes bytes)).scans := hbytes.symm

/-- A scanner and a parser cannot tell a reader from the bytes that it delivers, all of them at once or
through a cursor, if every NUL byte among these breaks off a character. -/
theorem buffer_refines_cursor (hb : NulsBreakOff bytes) (hr : r.Delivers bytes) :
    (∀ n, (Scanner.ofWindow (Buffer.ofReader r)).sights n =
        (Scanner.ofWindow (Cursor.ofBytes bytes)).sights n ∧
      (Scanner.ofWindow (Buffer.ofReader (.ofBytes bytes))).sights n =
        (Scanner.ofWindow (Cursor.ofBytes bytes)).sights n) ∧
    ∀ base tolerant verbose,
      (Parser.start base r.scans tolerant verbose).parseFile =
        (Parser.start base (Scanner.ofWindow (Cursor.ofBytes bytes)).scans tolerant
          verbose).parseFile ∧
      (Parser.start base (Reader.ofBytes bytes).scans tolerant verbose).parseFile =
        (Parser.start base (Scanner.ofWindow (Cursor.ofBytes bytes)).scans tolerant
          verbose).parseFile := by
  have hwhole := (Reader.delivers_ofBytes bytes).hands
  have hlockstep := lockstep_follows hb
  refine ⟨fun n => ⟨?_, ?_⟩, fun base tolerant verbose => ⟨?_, ?_⟩⟩
  · exact hlockstep.sights n (inStep_ofWindow hb hr.hands)
  · exact hlockstep.sights n (inStep_ofWindow hb hwhole)
  · rw [Reader.scans_eq hb hr.hands]
  · rw [Reader.scans_eq hb hwhole]

end

/-- A reader that stops in the middle of a character and has to be asked again. -/
theorem buffer_refines_cursor_split :
    let bytes := [0x61, 0xc3, 0xa9].toByteArray
    let r : Reader := ⟨[.stall, .data [0x61, 0xc3].toByteArray, .stall, .stall,
      .data [0xa9].toByteArray, .stall], none, .finished⟩
    NulsBreakOff bytes ∧ r.Delivers bytes ∧
      ∀ n, (Scanner.ofWindow (Buffer.ofReader r)).sights n =
        (Scanner.ofWindow (Cursor.ofBytes bytes)).sights n := by
  intro bytes r
  have hb : NulsBreakOff bytes := by
    have hne : ∀ i : Fin 3, bytes.get i ≠ 0 := by decide
    exact fun i h hz => absurd hz (hne ⟨i, h⟩)
  -- A character of two bytes arrives in two pieces, with stalls before, between and behind.
  have hr : r.Delivers bytes := by
    refine ⟨rfl, by simp [r], ?_⟩
    have hlast : Reader.Brings Reader.patience [.stall] .empty := .stall .finished
    have hsecond : Reader.Brings Reader.patience
        [.stall, .stall, .data [0xa9].toByteArray, .stall] ([0xa9].toByteArray ++ .empty) :=
      .stall (.stall (.data (by decide) hlast))
    have hfirst : Reader.Brings 8 (.data [0x61, 0xc3].toByteArray :: r.events.drop 2)
        ([0x61, 0xc3].toByteArray ++ ([0xa9].toByteArray ++ .empty)) :=
      .data (by decide) hsecond
    exact .stall hfirst
  exact ⟨hb, hr, fun n => ((buffer_refines_cursor hb hr).1 n).1⟩

end FrontEnd
