import FrontEnd.Proofs.Endings.Text
import FrontEnd.Proofs.Whole.Stream

/-!
# Two streams on the same lines

Of two streams the one is on a text and the other on the text with a carriage return before every newline.
They are level if they have taken the same but for the returns (`CharStream.Level`). Then they are at the
same place, and look the same unless the one is at a newline, where the other is at the return before it.
Going on from any other character keeps them level (`Level.advance`), and so does going on past the end of
a line, for which the other takes two steps (`Level.advance_newline`).
-/

namespace FrontEnd

/-- What a report says to whoever follows it: a fault, or where a comment stands and what it says about
positions. -/
def Report.gist : Report → LexError ⊕ Place × Option LineDirective.Candidate
  | .error e => .inl e
  | .directive place comment => .inr (place, LineDirective.candidate? place comment)

namespace CharStream

section

variable {s : CharStream Cursor} {taken rest : List Char} {c : Char}

/-- Without a mark nothing is marked. -/
theorem marked_of_unmarked (h : s.window.mark? = none) : s.marked = .empty := by
  unfold marked
  dsimp only [ByteWindow.marked]
  rw [h]

namespace Before

/-- Going on leaves the mark where it is. -/
theorem mark?_advance (h : s.Before taken (c :: rest)) :
    s.advance.window.mark? = s.window.mark? := h.advance.2.1

/-- Behind a character that is no newline, the column has moved by its bytes. -/
theorem column_advance (h : s.Before taken (c :: rest)) (hc : c ≠ '\n') :
    s.advance.column = s.column + c.utf8Size := by
  have hchar : s.char? ≠ some '\n' := by
    rw [h.char?_eq]
    exact fun he => hc (Option.some.inj he)
  have hwidth : s.width = c.utf8Size := h.width_eq
  rw [h.advance_eq, ← hwidth]
  unfold atFirst passChar
  rw [if_neg hchar]

/-- Behind a newline another line starts. -/
theorem line_advance_newline (h : s.Before taken ('\n' :: rest)) : s.advance.line = s.line + 1 := by
  have hchar : s.char? = some '\n' := h.char?_eq
  rw [h.advance_eq]
  unfold atFirst passChar
  rw [if_pos hchar]

/-- Behind a newline the column is the first one. -/
theorem column_advance_newline (h : s.Before taken ('\n' :: rest)) : s.advance.column = 0 := by
  have hchar : s.char? = some '\n' := h.char?_eq
  rw [h.advance_eq]
  unfold atFirst passChar
  rw [if_pos hchar]

/-- The mark is set behind what has been taken. -/
theorem mark?_setMark (h : s.Before taken rest) :
    s.setMark.window.mark? = some taken.utf8Encode.size := by
  change some (s.window.offset - s.width) = _
  rw [h.offset_eq, h.width_eq, Nat.add_sub_cancel]

/-- What has been marked is what has been taken since the mark. -/
theorem marked_eq {front cs : List Char} (h : s.Before (front ++ cs) rest)
    (hm : s.window.mark? = some front.utf8Encode.size) : s.marked = cs.utf8Encode := by
  have hend : s.window.offset - s.width = (front ++ cs).utf8Encode.size := by
    rw [h.offset_eq, h.width_eq, Nat.add_sub_cancel]
  unfold marked
  dsimp only [ByteWindow.marked]
  rw [hm, hend, h.bytes_eq]
  exact extract_utf8Encode front cs rest

/-- A report other than an error changes nothing about what comes. -/
theorem report (h : s.Before taken rest) {r : Report} (hr : ∀ e, r ≠ .error e) :
    (s.report r).Before taken rest := by
  refine ⟨h.bytes_eq, h.char?_eq, h.width_eq, h.offset_eq, h.clean, fun e he => ?_⟩
  rcases Array.mem_push.mp he with he | he
  · exact h.fine e he
  · exact hr e he.symm

/-- It does not matter whether something is told before going on or after it. -/
theorem advance_report (h : s.Before taken (c :: rest)) {r : Report} (hr : ∀ e, r ≠ .error e) :
    (s.report r).advance = s.advance.report r := by
  have hpass : (s.report r).passChar = s.passChar.report r := by
    unfold passChar CharStream.report
    dsimp only
    split <;> rfl
  rw [h.advance_eq, (h.report hr).advance_eq, hpass]
  rfl

end Before

end

/-! ## Being level -/

/-- The streams have taken `front` and then `cs`, the one as it is and the other with carriage returns,
and have `rest` before them. If there is a mark, it is behind `front`. -/
structure Level (front cs rest : List Char) (s t : CharStream Cursor) : Prop where
  before : s.Before (front ++ cs) rest
  returned : t.Before (withReturns (front ++ cs)) (withReturns rest)
  noReturn : '\r' ∉ front ++ cs ++ rest
  line_eq : t.line = s.line
  column_eq : t.column = s.column
  marks : s.window.mark? = none ∧ t.window.mark? = none ∨
    s.window.mark? = some front.utf8Encode.size ∧
      t.window.mark? = some (withReturns front).utf8Encode.size
  told : s.reports.toList.map Report.gist = t.reports.toList.map Report.gist

namespace Level

variable {front cs rest : List Char} {c : Char} {s t : CharStream Cursor}

/-- Both are at the same place. -/
theorem place_eq (h : Level front cs rest s t) : t.place = s.place := by
  unfold place
  rw [h.line_eq, h.column_eq]

/-- Both look the same, unless the one is at a newline. -/
theorem char?_eq (h : Level front cs rest s t) (hn : s.char? ≠ some '\n') : t.char? = s.char? := by
  rw [h.before.char?_eq] at hn ⊢
  rw [h.returned.char?_eq, head?_withReturns hn]

/-- Both go on over a character that is no newline. -/
theorem advance (h : Level front cs (c :: rest) s t) (hc : c ≠ '\n') :
    Level front (cs ++ [c]) rest s.advance t.advance := by
  have hs := h.before.advance
  have hreturned := h.returned
  rw [withReturns_cons hc] at hreturned
  have ht := hreturned.advance
  -- A character other than a newline is the same in both texts and adds itself to both.
  have htaken : withReturns (front ++ cs) ++ [c] = withReturns (front ++ (cs ++ [c])) := by
    rw [← List.append_assoc, withReturns_append (front ++ cs), withReturns_cons hc, withReturns_nil]
  rw [htaken] at ht
  rw [List.append_assoc] at hs
  exact {
    before := hs.1
    returned := ht.1
    noReturn := by simpa using h.noReturn
    line_eq := by rw [ht.2.2 hc, hs.2.2 hc, h.line_eq]
    column_eq := by rw [hreturned.column_advance hc, h.before.column_advance hc, h.column_eq]
    marks := by
      rw [hs.2.1, ht.2.1]
      exact h.marks
    told := by
      rw [h.before.reports_advance, hreturned.reports_advance]
      exact h.told }

/-- At the end of a line, the one stream is before the newline and the other before a carriage return
and the newline. -/
theorem advance_newline (h : Level front cs ('\n' :: rest) s t) :
    t.char? = some '\r' ∧ t.advance.char? = some '\n' ∧
      Level front (cs ++ ['\n']) rest s.advance t.advance.advance := by
  have hs := h.before.advance
  have hreturned := h.returned
  rw [withReturns_newline] at hreturned
  have hmiddle := hreturned.advance.1
  have ht := hmiddle.advance
  -- One step of the first text against two of the second, return and newline.
  have htaken : withReturns (front ++ cs) ++ ['\r'] ++ ['\n'] = withReturns (front ++ (cs ++ ['\n'])) := by
    rw [← List.append_assoc, withReturns_append (front ++ cs), List.append_assoc]
    rfl
  rw [htaken] at ht
  rw [List.append_assoc] at hs
  refine ⟨hreturned.char?_eq, hmiddle.char?_eq, ?_⟩
  exact {
    before := hs.1
    returned := ht.1
    noReturn := by simpa using h.noReturn
    line_eq := by
      rw [hmiddle.line_advance_newline, h.before.line_advance_newline,
        hreturned.advance.2.2 (by decide), h.line_eq]
    column_eq := by rw [hmiddle.column_advance_newline, h.before.column_advance_newline]
    marks := by
      rw [hs.2.1, ht.2.1, hreturned.mark?_advance]
      exact h.marks
    told := by
      rw [h.before.reports_advance, hmiddle.reports_advance, hreturned.reports_advance]
      exact h.told }

/-- Both set the mark. -/
theorem setMark (h : Level front cs rest s t) : Level (front ++ cs) [] rest s.setMark t.setMark := by
  have htaken : front ++ cs ++ [] = front ++ cs := List.append_nil _
  exact {
    before := by
      rw [htaken]
      exact h.before.setMark
    returned := by
      rw [htaken]
      exact h.returned.setMark
    noReturn := by
      rw [htaken]
      exact h.noReturn
    line_eq := h.line_eq
    column_eq := h.column_eq
    marks := .inr ⟨h.before.mark?_setMark, h.returned.mark?_setMark⟩
    told := h.told }

/-- Both give up the mark. -/
theorem clearMark (h : Level front cs rest s t) : Level front cs rest s.clearMark t.clearMark :=
  ⟨h.before.clearMark, h.returned.clearMark, h.noReturn, h.line_eq, h.column_eq, .inl ⟨rfl, rfl⟩,
    h.told⟩

/-- Both forget their reports. -/
theorem dropReports (h : Level front cs rest s t) : Level front cs rest s.dropReports t.dropReports :=
  ⟨h.before.dropReports, h.returned.dropReports, h.noReturn, h.line_eq, h.column_eq, h.marks, rfl⟩

/-- What has been marked: nothing in either, or what has been taken since the mark. -/
theorem marked_cases (h : Level front cs rest s t) : s.marked = .empty ∧ t.marked = .empty ∨
    s.marked = cs.utf8Encode ∧ t.marked = (withReturns cs).utf8Encode := by
  have hreturned := h.returned
  rw [withReturns_append] at hreturned
  rcases h.marks with ⟨hs, ht⟩ | ⟨hs, ht⟩
  · exact .inl ⟨marked_of_unmarked hs, marked_of_unmarked ht⟩
  · exact .inr ⟨h.before.marked_eq hs, hreturned.marked_eq ht⟩

/-- The same where the one stream is at the end of a line, and the other has taken the carriage return. -/
theorem marked_cases_return (h : Level front cs ('\n' :: rest) s t) :
    s.marked = .empty ∧ t.advance.marked = .empty ∨
      s.marked = cs.utf8Encode ∧ t.advance.marked = (withReturns cs ++ ['\r']).utf8Encode := by
  have hreturned := h.returned
  rw [withReturns_newline] at hreturned
  have hmark := hreturned.mark?_advance
  have hmiddle := hreturned.advance.1
  rw [withReturns_append, List.append_assoc] at hmiddle
  rcases h.marks with ⟨hs, ht⟩ | ⟨hs, ht⟩
  · exact .inl ⟨marked_of_unmarked hs, marked_of_unmarked (hmark.trans ht)⟩
  · exact .inr ⟨h.before.marked_eq hs, hmiddle.marked_eq (hmark.trans ht)⟩

/-- Comments that say the same may be told. -/
theorem report (h : Level front cs rest s t) {place : Place} {comment comment' : String}
    (hsame : LineDirective.candidate? place comment = LineDirective.candidate? place comment') :
    Level front cs rest (s.report (.directive place comment)) (t.report (.directive place comment')) where
  before := h.before.report fun _ => Report.noConfusion
  returned := h.returned.report fun _ => Report.noConfusion
  noReturn := h.noReturn
  line_eq := h.line_eq
  column_eq := h.column_eq
  marks := h.marks
  told := by
    unfold CharStream.report
    have hgist : Report.gist (.directive place comment) = Report.gist (.directive place comment') :=
      congrArg (fun candidate? => Sum.inr (place, candidate?)) hsame
    rw [Array.toList_push, Array.toList_push, List.map_append, List.map_append, h.told,
      List.map_singleton, List.map_singleton, hgist]

end Level

end CharStream

end FrontEnd
