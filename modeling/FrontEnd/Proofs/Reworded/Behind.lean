import FrontEnd.Proofs.Bases.Blind
import FrontEnd.Proofs.Progress
import FrontEnd.Proofs.Refill

/-!
# Streams behind a difference

Two sources end the same behind some bytes, of which there are equally many in both. Streams on them that are
behind these bytes, at the same offset and on the same line and column, go in lockstep (`finding_behind`). What
has been reported may differ in reports about which nothing is said, so that the scans to come are the same up
to these (`Scanner.audible_scanUpTo_of_behind`).
-/

namespace FrontEnd

variable {a a' back : ByteArray}

/-- What is decoded behind some bytes does not depend on what they are. -/
theorem utf8DecodeChar?_behind (hsize : a'.size = a.size) {i : Nat} (hi : a.size ≤ i) :
    (a' ++ back).utf8DecodeChar? i = (a ++ back).utf8DecodeChar? i := by
  obtain ⟨k, rfl⟩ := Nat.exists_eq_add_of_le hi
  have hfrom (b : ByteArray) (hb : b.size = a.size) :
      (b ++ back).utf8DecodeChar? (a.size + k) = (back.extract k back.size).utf8DecodeChar? 0 := by
    rw [ByteArray.utf8DecodeChar?_eq_utf8DecodeChar?_extract, ByteArray.size_append, ← hb,
      ByteArray.extract_append_size_add]
  rw [hfrom a' hsize, hfrom a rfl]

namespace Cursor

/-- A fetch behind these bytes finds the same on the other source. -/
theorem fetch_behind (hsize : a'.size = a.size) {c : Cursor} (hbytes : c.bytes = a ++ back)
    (hle : a.size ≤ c.offset) :
    ({ c with bytes := a' ++ back } : Cursor).fetch =
      (c.fetch.1, { c.fetch.2 with bytes := a' ++ back }) := by
  have hlength : (a' ++ back).size = c.bytes.size := by
    rw [hbytes, ByteArray.size_append, ByteArray.size_append, hsize]
  unfold fetch
  dsimp only
  rw [hlength, utf8DecodeChar?_behind hsize hle, ← hbytes]
  split
  · split <;> rfl
  · rfl

/-- A fetch only moves the offset on, by as much as it finds. -/
theorem fetch_snd (c : Cursor) : c.fetch.2 = { c with offset := c.offset + c.fetch.1.width } := by
  unfold fetch
  split
  · split
    · unfold ofChar
      split
      · next hz => rw [hz]; rfl
      · rfl
    · rfl
  · rfl

end Cursor

namespace CharStream

/-- The reports about which something is said. -/
def audible (s : CharStream Cursor) : List Report := s.reports.toList.filter (!·.isSilent)

/-- Both streams are about to fetch the same, behind bytes of which there are equally many. -/
structure Coming (a a' back : ByteArray) (s t : CharStream Cursor) : Prop where
  bytes_eq : s.window.bytes = a ++ back
  window_eq : t.window = { s.window with bytes := a' ++ back }
  line_eq : s.line = t.line
  column_eq : s.column = t.column
  audible_eq : s.audible = t.audible
  offset_le : a.size ≤ s.window.offset
  mark_le : ∀ m, s.window.mark? = some m → a.size ≤ m

/-- Both streams are at the same character behind these bytes. -/
structure Behind (a a' back : ByteArray) (s t : CharStream Cursor) : Prop extends Coming a a' back s t where
  char?_eq : s.char? = t.char?
  width_eq : s.width = t.width
  width_le : a.size + s.width ≤ s.window.offset

variable {s t : CharStream Cursor}

/-- A report is heard behind those before it, if something is said about it. -/
theorem audible_report (s : CharStream Cursor) (r : Report) :
    (s.report r).audible = s.audible ++ [r].filter (!·.isSilent) := by
  unfold audible report
  rw [Array.toList_push, List.filter_append]

namespace Coming

/-- Both are at the same place. -/
theorem place_eq (h : Coming a a' back s t) : s.place = t.place := by
  unfold place
  rw [h.line_eq, h.column_eq]

/-- Both report the same. -/
theorem report (h : Coming a a' back s t) (r : Report) : Coming a a' back (s.report r) (t.report r) :=
  { h with audible_eq := by rw [audible_report, audible_report, h.audible_eq] }

end Coming

namespace Behind

/-- Both report the same. -/
theorem report (h : Behind a a' back s t) (r : Report) : Behind a a' back (s.report r) (t.report r) :=
  { h with toComing := h.toComing.report r }

/-- Both complain about the same. -/
theorem complain (h : Behind a a' back s t) (fault : LexFault) :
    Behind a a' back (s.complain fault) (t.complain fault) := by
  unfold CharStream.complain
  rw [h.place_eq]
  exact h.report _

/-- Both count the character. -/
theorem passChar (h : Behind a a' back s t) : Coming a a' back s.passChar t.passChar := by
  unfold CharStream.passChar
  rw [← h.char?_eq]
  split
  · exact { h.toComing with line_eq := congrArg (· + 1) h.line_eq, column_eq := rfl }
  · have hcolumn : s.column + s.width = t.column + t.width := by rw [h.column_eq, h.width_eq]
    exact { h.toComing with column_eq := hcolumn }

end Behind

/-- After a fetch that finds the same, both have received the same. -/
theorem Coming.receive (h : Coming a a' back s t) (f : Fetched) :
    Behind a a' back (s.receive (f, { s.window with offset := s.window.offset + f.width }))
      (t.receive (f, { s.window with bytes := a' ++ back, offset := s.window.offset + f.width })) := by
  -- The fault is read off the line and the column, which agree behind the words.
  have hfault : s.fault? f = t.fault? f := by
    unfold fault?
    rw [h.line_eq, h.column_eq]
  have hle := Nat.le_trans h.offset_le (Nat.le_add_right s.window.offset f.width)
  have hwidth := Nat.add_le_add_right h.offset_le f.width
  have hreceived : Behind a a' back
      { s with
        window := { s.window with offset := s.window.offset + f.width }
        char? := s.char?, width := f.width }
      { t with
        window := { s.window with bytes := a' ++ back, offset := s.window.offset + f.width }
        char? := s.char?, width := f.width } :=
    ⟨⟨h.bytes_eq, rfl, h.line_eq, h.column_eq, h.audible_eq, hle, h.mark_le⟩, rfl, rfl, hwidth⟩
  unfold CharStream.receive
  dsimp only
  rw [hfault]
  cases t.fault? f with
  | none => cases f <;> exact { hreceived with char?_eq := rfl }
  | some fault =>
    refine Behind.complain ?_ fault
    cases f <;> exact { hreceived with char?_eq := rfl }

variable (hsize : a'.size = a.size)
include hsize

/-- Both fetch the same, and receive it alike. -/
theorem Coming.fetch (h : Coming a a' back s t) :
    (ByteWindow.fetch s.window).1 = (ByteWindow.fetch t.window).1 ∧
      Behind a a' back (s.receive (ByteWindow.fetch s.window)) (t.receive (ByteWindow.fetch t.window)) := by
  have hown : ByteWindow.fetch s.window = ((ByteWindow.fetch s.window).1,
      { s.window with offset := s.window.offset + (ByteWindow.fetch s.window).1.width }) :=
    Prod.ext rfl s.window.fetch_snd
  have hother : ByteWindow.fetch t.window =
      ((ByteWindow.fetch s.window).1, { (ByteWindow.fetch s.window).2 with bytes := a' ++ back }) := by
    rw [h.window_eq]
    exact Cursor.fetch_behind hsize h.bytes_eq h.offset_le
  rw [hother, hown]
  exact ⟨rfl, h.receive _⟩

/-- Both find the same next character. -/
theorem Coming.seek (h : Coming a a' back s t) : Behind a a' back s.seek t.seek :=
  CharStream.seek_of_fetch (fun h => h.fetch hsize) Behind.passChar h

namespace Behind

/-- Both go on to the same character. -/
theorem advance (h : Behind a a' back s t) : Behind a a' back s.advance t.advance :=
  h.passChar.seek hsize

/-- What is marked is the same, since the mark is behind the comment. -/
theorem marked_eq (h : Behind a a' back s t) : s.marked = t.marked := by
  have hstop := h.width_le
  unfold CharStream.marked
  dsimp only [ByteWindow.marked]
  rw [h.window_eq, h.bytes_eq, ← h.width_eq]
  cases hm : s.window.mark? with
  | none => rfl
  | some m =>
    obtain ⟨i, rfl⟩ := Nat.exists_eq_add_of_le (h.mark_le m hm)
    obtain ⟨j, hj⟩ := Nat.exists_eq_add_of_le (Nat.le_sub_of_add_le hstop)
    -- The mark and the current character are both behind the bytes that differ.
    dsimp only
    rw [hj, ByteArray.extract_append_size_add, ← hsize, ByteArray.extract_append_size_add]

/-- Both go back to the same character. -/
theorem rewind (h : Behind a a' back s t) : Behind a a' back s.rewind t.rewind := by
  have hback : a.size ≤ s.window.mark?.getD s.window.offset := by
    cases hm : s.window.mark? with
    | none => exact h.offset_le
    | some m => exact h.mark_le m hm
  have hsince : ByteWindow.sinceMark t.window = ByteWindow.sinceMark s.window := by
    rw [h.window_eq]
    rfl
  have hcolumn : s.column + s.width - ByteWindow.sinceMark s.window =
      t.column + t.width - ByteWindow.sinceMark t.window := by
    rw [h.column_eq, h.width_eq, hsince]
  have hwindow : ByteWindow.rewind t.window =
      { ByteWindow.rewind s.window with bytes := a' ++ back } := by
    rw [h.window_eq]
    rfl
  unfold CharStream.rewind
  refine advance hsize ?_
  exact ⟨⟨h.bytes_eq, hwindow, h.line_eq, hcolumn, h.audible_eq, hback, h.mark_le⟩, h.char?_eq, rfl, hback⟩

end Behind

/-- Streams behind these bytes find the same. -/
theorem finding_behind : Finding (Behind a a' back) where
  toForward start := by
    refine .of_report start Behind.char?_eq (fun h => h.place_eq) (fun h => h.marked_eq hsize)
      (fun h => h.advance hsize) (fun r h => h.report r) fun h => { h with window_eq := ?_, mark_le := nofun }
    exact congrArg ByteWindow.clearMark h.window_eq
  setMark := by
    intro s t h
    refine { h with window_eq := ?_, mark_le := ?_ }
    · change ByteWindow.setMark t.width t.window = _
      rw [h.window_eq, ← h.width_eq]
      rfl
    · rintro m ⟨⟩
      exact Nat.le_sub_of_add_le h.width_le
  rewind h := h.rewind hsize

end CharStream

namespace Scanner

variable {s t : Scanner Cursor}

/-- Behind these bytes the same is found, and the same is said, up to the end. -/
theorem audible_scanUpTo_of_behind (hsize : a'.size = a.size) (n : Nat) (h : s.InStep (CharStream.Behind a a' back) t) :
    (s.scanUpTo n).map Scan.audible = (t.scanUpTo n).map Scan.audible := by
  induction n generalizing s t with
  | zero => rfl
  | succ n ih =>
    have hn := (CharStream.finding_behind hsize).next h
    have hscan : Scan.audible ⟨s.next.lexeme, s.next.reports⟩ = Scan.audible ⟨t.next.lexeme, t.next.reports⟩ := by
      unfold Scan.audible
      rw [hn.1]
      exact congrArg (Scan.mk _) hn.2.audible_eq
    have hdropped : s.next.dropReports.InStep (CharStream.Behind a a' back) t.next.dropReports :=
      ⟨hn.1, { hn.2 with audible_eq := rfl }⟩
    unfold scanUpTo
    dsimp only
    rw [← hn.1]
    split
    · rw [List.map_singleton, List.map_singleton, hscan, hn.1]
    · rw [List.map_cons, List.map_cons, hscan, hn.1, ih hdropped]

end Scanner

end FrontEnd
