import FrontEnd.Proofs.Failing.Twin
import FrontEnd.Proofs.Whole.Stream

/-!
# Scanning up to a failure

Two streams, the one through a buffer whose reader ends and the other through one whose reader fails
there, look the same and report the same but for the failures (`CharStream.Twin`). Nothing a scanner does
takes them apart, so that the scans of the two readers are the same without the failures
(`Reader.withoutReadings_scans_failing`).
-/

namespace FrontEnd

/-- It is reported that the reader has failed. -/
def Report.isReading : Report → Bool
  | .error ⟨.reading _, _⟩ => true
  | _ => false

/-- A malformed token is no failure of the reader. -/
theorem Report.isReading_of_isMalformation {fault : LexFault} (h : fault.isMalformation) (place : Place) :
    (Report.error ⟨fault, place⟩).isReading = false := by
  cases fault <;> first | rfl | cases h

namespace CharStream

/-- The failures that have been reported. -/
def readings (s : CharStream Buffer) : List Report := s.reports.toList.filter Report.isReading

/-- The one stream looks the same as the other and reports the same but for failures, of which it
reports none. -/
structure Twin (message : String) (s t : CharStream Buffer) : Prop where
  window : s.window.Twin message t.window
  width_le : s.width ≤ s.window.next
  width_le' : s.width ≤ t.window.next
  line_eq : t.line = s.line
  column_eq : t.column = s.column
  char?_eq : t.char? = s.char?
  width_eq : t.width = s.width
  reports_eq : t.reports.toList.filter (!·.isReading) = s.reports.toList

variable {message : String} {s t : CharStream Buffer}

/-- The failure that a stream reports when it has come to the end. -/
def failures (message : String) (s : CharStream Buffer) : List Report :=
  if s.char? = none then [.error ⟨.reading (.failed message), s.place⟩] else []

/-- Before the end no failure is reported. -/
theorem failures_of_isSome (h : s.char?.isSome) : s.failures message = [] :=
  if_neg (Option.isSome_iff_ne_none.mp h)

namespace Twin

/-- Both are at the same place. -/
theorem place_eq (h : Twin message s t) : t.place = s.place := by
  unfold CharStream.place
  rw [h.line_eq, h.column_eq]

/-- Both report what is no failure. -/
theorem report (h : Twin message s t) {r : Report} (hr : r.isReading = false) :
    Twin message (s.report r) (t.report r) := by
  refine { h with reports_eq := ?_ }
  simp [CharStream.report, hr, h.reports_eq]

/-- Both complain about what is no failure. -/
theorem complain (h : Twin message s t) {fault : LexFault}
    (hr : ∀ place, (Report.error ⟨fault, place⟩).isReading = false) :
    Twin message (s.complain fault) (t.complain fault) := by
  unfold CharStream.complain
  rw [h.place_eq]
  exact h.report (hr _)

/-- Both forget their reports. -/
theorem dropReports (h : Twin message s t) : Twin message s.dropReports t.dropReports :=
  { h with reports_eq := rfl }

/-- Both count the character. -/
theorem passChar (h : Twin message s t) : Twin message s.passChar t.passChar := by
  unfold CharStream.passChar
  rw [h.char?_eq]
  split
  · exact { h with line_eq := congrArg (· + 1) h.line_eq, column_eq := rfl, char?_eq := rfl }
  · exact { h with column_eq := by dsimp only; rw [h.column_eq, h.width_eq], char?_eq := rfl }

/-- Both set the mark. -/
theorem setMark (h : Twin message s t) : Twin message s.setMark t.setMark := by
  have hmark := h.window.setMark h.width_le h.width_le'
  unfold CharStream.setMark
  rw [h.width_eq]
  exact { h with window := hmark, width_eq := rfl }

/-- Both give up the mark. -/
theorem clearMark (h : Twin message s t) : Twin message s.clearMark t.clearMark :=
  { h with window := h.window.clearMark }

/-- What is marked is the same. -/
theorem marked_eq (h : Twin message s t) : s.marked = t.marked := by
  obtain ⟨c, ht, ht'⟩ := h.window.tracks
  unfold CharStream.marked
  rw [h.width_eq, ht.marked_eq h.width_le, ht'.marked_eq h.width_le']

/-- A fault of what has been found is none of the reader. -/
theorem isReading_fault? {f : Fetched} (hf : f.found) {fault : LexFault} (h : s.fault? f = some fault)
    (place : Place) : (Report.error ⟨fault, place⟩).isReading = false := by
  unfold fault? at h
  cases f with
  | char c =>
    dsimp only at h
    split at h <;> cases h
    rfl
  | nul => cases h; rfl
  | malformed => cases h; rfl
  | finished => cases hf

/-- Twins receive the same, and the failure is reported at the end. -/
theorem receive (h : Twin message s t) {x y : Fetched × Buffer} (hxy : Buffer.Twin.Fetches message x y) :
    Twin message (s.receive x) (t.receive y) ∧
      (t.receive y).readings = t.readings ++ (t.receive y).failures message := by
  obtain ⟨f, b⟩ := x
  obtain ⟨f', b'⟩ := y
  obtain ⟨hb, hwidth, hwidth', hsame⟩ := hxy
  dsimp only at hb hwidth hwidth' hsame
  -- The same character came on both sides, or the one side has ended where the other has failed.
  rcases hsame with ⟨hf, rfl⟩ | ⟨rfl, rfl⟩
  · have hfault : t.fault? f' = s.fault? f' := by
      unfold fault?
      rw [h.line_eq, h.column_eq]
    have hnone : (t.receive (f', b')).failures message = [] :=
      failures_of_isSome (by rw [isSome_char?_receive]; exact hf)
    rw [hnone, List.append_nil]
    unfold CharStream.receive
    dsimp only
    rw [hfault]
    cases hs : s.fault? f' with
    | none => cases f' <;> exact ⟨⟨hb, hwidth, hwidth', h.line_eq, h.column_eq, rfl, rfl, h.reports_eq⟩, rfl⟩
    | some fault =>
      have hr := isReading_fault? hf hs
      constructor
      · refine complain ?_ hr
        cases f' <;> exact ⟨hb, hwidth, hwidth', h.line_eq, h.column_eq, rfl, rfl, h.reports_eq⟩
      · unfold readings CharStream.complain CharStream.complainAt CharStream.report
        cases f' <;> simp [hr]
  · unfold CharStream.receive
    dsimp only [fault?, Option.map_some, Option.map_none]
    have hr (place : Place) : (Report.error ⟨.reading (.failed message), place⟩).isReading = true := rfl
    refine ⟨⟨hb, hwidth, hwidth', h.line_eq, h.column_eq, rfl, rfl, ?_⟩, ?_⟩
    · simp [CharStream.complain, CharStream.complainAt, CharStream.report, hr, h.reports_eq]
    · simp [readings, failures, CharStream.complain, CharStream.complainAt, CharStream.report, hr,
        CharStream.place]

/-- Both find the same next character; at the end the second one reports the failure. -/
theorem seek (h : Twin message s t) :
    Twin message s.seek t.seek ∧ t.seek.readings = t.readings ++ t.seek.failures message := by
  -- Along the loop that passes NULs and marks over: a failure is not passed over, so it can only come at the
  -- exit.
  fun_induction CharStream.seek s generalizing t with
  | case1 s hp ih =>
    have hfetch : Buffer.Twin.Fetches message (ByteWindow.fetch s.window) (ByteWindow.fetch t.window) :=
      h.window.fetch
    obtain ⟨hr, hreadings⟩ := h.receive hfetch
    have hfound := found_of_passedOver hp
    obtain ⟨-, -, -, hsame⟩ := hfetch
    have heq : (ByteWindow.fetch t.window).1 = (ByteWindow.fetch s.window).1 := by
      rcases hsame with ⟨-, heq⟩ | ⟨hend, -⟩
      · exact heq
      · rw [hend] at hp
        cases hp
    have hsome : (t.receive (ByteWindow.fetch t.window)).char?.isSome := by
      rwa [isSome_char?_receive, heq]
    rw [failures_of_isSome hsome, List.append_nil] at hreadings
    have hp' : passedOver (ByteWindow.fetch t.window).1 := by rwa [heq]
    rw [CharStream.seek.eq_def t, if_pos hp']
    obtain ⟨hseek, hmore⟩ := ih hr.passChar
    have hpass : (t.receive (ByteWindow.fetch t.window)).passChar.readings = t.readings := by
      unfold readings
      rw [reports_passChar]
      exact hreadings
    rw [hpass] at hmore
    exact ⟨hseek, hmore⟩
  | case2 s hp =>
    have hfetch : Buffer.Twin.Fetches message (ByteWindow.fetch s.window) (ByteWindow.fetch t.window) :=
      h.window.fetch
    have hp' : ¬passedOver (ByteWindow.fetch t.window).1 := by
      rcases hfetch.2.2.2 with ⟨-, heq⟩ | ⟨-, hend⟩
      · rw [heq]
        exact hp
      · rw [hend]
        exact Bool.false_ne_true
    rw [CharStream.seek.eq_def t, if_neg hp']
    exact h.receive hfetch

/-- Where twins go on, a failure is told at the end. -/
theorem advance (h : Twin message s t) :
    Twin message s.advance t.advance ∧
      t.advance.readings = t.readings ++ t.advance.failures message := by
  obtain ⟨hseek, hreadings⟩ := h.passChar.seek
  refine ⟨hseek, ?_⟩
  unfold readings at hreadings ⊢
  rw [reports_passChar] at hreadings
  exact hreadings

/-- Both go back to the same character; at the end behind it the second one reports the failure. -/
theorem rewind (h : Twin message s t) :
    Twin message s.rewind t.rewind ∧
      t.rewind.readings = t.readings ++ t.rewind.failures message := by
  obtain ⟨c, ht, ht'⟩ := h.window.tracks
  have hsince : ByteWindow.sinceMark t.window = ByteWindow.sinceMark s.window := by
    rw [ht.sinceMark_eq, ht'.sinceMark_eq]
  unfold CharStream.rewind
  exact advance (s := { s with window := _, column := _, width := 0 })
    (t := { t with window := _, column := _, width := 0 })
    { h with
      window := h.window.rewind
      width_le := Nat.zero_le _
      width_le' := Nat.zero_le _
      column_eq := by dsimp only; rw [h.column_eq, h.width_eq, hsince]
      width_eq := rfl }

end Twin

/-- Nothing that a scanner does takes twins apart. -/
theorem finding_twin (message : String) : Finding (Twin message) where
  toForward start :=
    { char?_eq := fun h => h.char?_eq.symm
      place_eq := fun h => h.place_eq.symm
      marked_eq := Twin.marked_eq
      advance := fun _ h => h.advance.1
      goOn := fun h => h.advance.1
      complain := fun hf h => h.complain (Report.isReading_of_isMalformation hf)
      blame := fun hf h => h.report (Report.isReading_of_isMalformation hf _)
      clearMark := Twin.clearMark
      reportDirective := by
        intro s t h
        unfold CharStream.reportDirective
        rw [h.marked_eq]
        exact h.report rfl
      reject := fun h => h.report rfl
      leaveOpen := fun h => h.report rfl }
  setMark := Twin.setMark
  rewind h := h.rewind.1

end CharStream

/-! ## Scans -/

/-- The same scan without the failures of the reader among what is reported. -/
def Scan.withoutReadings (scan : Scan) : Scan :=
  { scan with reports := scan.reports.filter (!·.isReading) }

namespace Scanner

variable {message : String} {s t : Scanner Buffer}

/-- Both find the same lexeme. -/
theorem twin_next (h : s.InStep (CharStream.Twin message) t) :
    s.next.InStep (CharStream.Twin message) t.next :=
  (CharStream.finding_twin message).next h

/-- Both forget what the scanner reports. -/
theorem twin_dropReports (h : s.InStep (CharStream.Twin message) t) :
    s.dropReports.InStep (CharStream.Twin message) t.dropReports :=
  ⟨h.1, h.2.dropReports⟩

/-- Twins scan the same, but for the failures. -/
theorem withoutReadings_scanUpTo (h : s.InStep (CharStream.Twin message) t) (n : Nat) :
    (t.scanUpTo n).map Scan.withoutReadings = s.scanUpTo n := by
  induction n generalizing s t with
  | zero => rfl
  | succ n ih =>
    have hn := twin_next h
    have hscan : Scan.withoutReadings ⟨t.next.lexeme, t.next.reports⟩ =
        ⟨s.next.lexeme, s.next.reports⟩ := by
      rw [hn.1]
      exact congrArg (Scan.mk t.next.lexeme) hn.2.reports_eq
    unfold scanUpTo
    dsimp only
    rw [hn.1]
    split
    · rw [List.map_singleton, hscan, hn.1]
    · rw [List.map_cons, hscan, ih (twin_dropReports hn), hn.1]

/-- Before the first token, scanners on a reader and on one that fails where it ends are twins. -/
theorem twin_ofWindow {r : Reader} {bytes : ByteArray} (hr : r.Delivers bytes)
    (hn : .endOfInput ∉ r.events) (message : String) :
    (ofWindow (Buffer.ofReader r)).InStep (CharStream.Twin message)
        (ofWindow (Buffer.ofReader (r.failing message))) ∧
      (ofWindow (Buffer.ofReader (r.failing message))).stream.readings =
        (ofWindow (Buffer.ofReader (r.failing message))).stream.failures message := by
  have hstart : CharStream.Twin message
      { window := Buffer.ofReader r, line := 0, column := 0, char? := none, width := 0,
        reports := #[] }
      { window := Buffer.ofReader (r.failing message), line := 0, column := 0, char? := none,
        width := 0, reports := #[] } :=
    ⟨Buffer.twin_ofReader hr hn message, Nat.zero_le _, Nat.zero_le _, rfl, rfl, rfl, rfl, rfl⟩
  obtain ⟨hseek, hreadings⟩ := hstart.seek
  exact ⟨⟨rfl, hseek⟩, hreadings⟩

end Scanner

namespace Reader

variable {r : Reader} {bytes : ByteArray}

/-- A reader that fails where another ends is scanned the same, but for the failures. -/
theorem withoutReadings_scans_failing (hr : r.Delivers bytes) (hn : .endOfInput ∉ r.events)
    (message : String) : (r.failing message).scans.map Scan.withoutReadings = r.scans := by
  obtain ⟨n, hscans, hfailing⟩ := Scanner.exists_scans_eq r.sound_ofReader (r.failing message).sound_ofReader
  unfold scans
  rw [hscans, hfailing]
  exact Scanner.withoutReadings_scanUpTo (Scanner.twin_ofWindow hr hn message).1 n

end Reader

end FrontEnd
