import FrontEnd.Proofs.Bases.Governed
import FrontEnd.Proofs.Directives.Written
import FrontEnd.Proofs.Places.Counters

/-!
# Where positions are

All positions in a tree, and those of all diagnostics, are at places that the bytes of the source may lead to
(`Reader.upTo_parseFile`). Only what is wrong with the number in a directive may be further behind than there
are bytes, since it is said where the number stands in the comment as it is read.
-/

namespace FrontEnd

namespace LineDirective

variable {place : Place} {comment : String} {candidate : Candidate} {base : Base} {d : Diagnostic}
  {text body cs : List Char} {offset : Nat} {cause : Cause}

/-! ## Where a directive is rejected -/

/-- The bytes of a text are those of its characters. -/
theorem byteLength_toList (text : String) : byteLength text.toList = text.utf8ByteSize := by
  rw [byteLength_eq_sum, ← utf8ByteSize_eq_sum, String.ofList_toList]

/-- A text is not rejected beyond its end. -/
theorem le_of_rejected (h : read text = .rejected offset cause) : offset ≤ byteLength text := by
  -- Whatever is rejected starts behind a colon.
  have hcolon {cs front back : List Char} (hcs : splitLast? cs = some (front, back)) :
      byteLength front + 1 ≤ byteLength cs := by
    rw [eq_append_of_splitLast? hcs, byteLength_append]
    exact Nat.add_le_add_left (Nat.le_add_right 1 _) _
  have hline {file lineText : List Char} {n : Nat} {column? : Option Nat}
      (h : withLine file lineText n column? = .rejected offset cause) : offset = byteLength file + 1 := by
    unfold withLine at h
    split at h
    · cases h
    · cases h
      rfl
  unfold read at h
  split at h
  · cases h
  · next front lastText hlast =>
    have hfront := hcolon hlast
    split at h
    · cases h
      exact hfront
    · split at h
      · exact hline h ▸ hfront
      · next file lineText hfile =>
        split at h
        · exact hline h ▸ hfront
        · split at h
          · rw [hline h]
            exact Nat.le_trans (hcolon hfile) (Nat.le_of_succ_le hfront)
          · cases h
            exact hfront

/-- What stands behind the word for a directive is shorter than the comment, by its marker and the word. -/
theorem byteLength_operand?_le {ending : List Char} (h : operand? (dropEnding ending cs) = some text) :
    "line ".length + byteLength text ≤ byteLength cs := by
  have hdrop : byteLength (dropEnding ending cs) ≤ byteLength cs := by
    unfold dropEnding
    split
    · have hsplit := byteLength_append (cs.take (cs.length - ending.length)) (cs.drop (cs.length - ending.length))
      rw [List.take_append_drop] at hsplit
      omega
    · exact Nat.le_refl _
  refine Nat.le_trans ?_ hdrop
  unfold operand? at h
  dsimp only at h
  split at h
  · next hword =>
    obtain ⟨rest, hrest⟩ := List.isPrefixOf_iff_prefix.mp hword
    rw [← hrest, List.drop_left] at h
    rw [← hrest, byteLength_append, Option.some.inj h]
    exact Nat.le_refl _
  · cases h

/-- The text of a candidate is shorter than the comment, by the marker and the word. -/
theorem byteLength_text_le (h : candidate? place comment = some candidate) :
    2 + "line ".length + byteLength candidate.text ≤ comment.utf8ByteSize := by
  -- Marker and word come before the text, and what was cut off behind it only adds.
  have hmarker (c : Char) {cs ending : List Char} {text : List Char} (hcs : comment.toList = '/' :: c :: cs)
      (htext : operand? (dropEnding ending cs) = some text) :
      2 + "line ".length + byteLength text ≤ comment.utf8ByteSize := by
    have hle := byteLength_operand?_le htext
    have hslash : '/'.utf8Size = 1 := by decide
    have hc := c.utf8Size_pos
    rw [← byteLength_toList, hcs, byteLength, byteLength, hslash]
    omega
  unfold candidate? at h
  split at h
  · next cs hcs =>
    split at h
    · cases h
    · obtain ⟨text, htext, rfl⟩ := Option.map_eq_some_iff.mp h
      exact hmarker '*' hcs htext
  · next cs hcs =>
    split at h
    · obtain ⟨text, htext, rfl⟩ := Option.map_eq_some_iff.mp h
      exact hmarker '/' hcs htext
    · cases h
  · cases h

/-- What is wrong with a directive is said on its line, not beyond the end of the comment. -/
theorem place_of_rejection? (h : rejection? place comment base = some d) :
    d.pos.place.line = place.line ∧ place.column ≤ d.pos.place.column ∧
      d.pos.place.column ≤ place.column + comment.utf8ByteSize := by
  unfold rejection? at h
  cases hcandidate : candidate? place comment with
  | none =>
    rw [hcandidate] at h
    cases h
  | some candidate =>
    rw [hcandidate] at h
    dsimp only at h
    cases hread : read candidate.text with
    | unrelated | accepted =>
      rw [hread] at h
      cases h
    | rejected offset cause =>
      rw [hread] at h
      cases h
      -- The offset lies in the text, the text in the comment.
      have hoffset := le_of_rejected hread
      have htext := byteLength_text_le hcandidate
      unfold operandPlace
      dsimp only
      omega

end LineDirective

/-! ## What is said and yielded -/

/-- More bytes lead to more places. -/
theorem Place.UpTo.mono {n m : Nat} {p : Place} (h : p.UpTo n) (hnm : n ≤ m) : p.UpTo m :=
  ⟨h.line_pos, Nat.le_trans h.line_le (Nat.succ_le_succ hnm), h.column_pos,
    Nat.le_trans h.column_le (Nat.succ_le_succ hnm)⟩

/-- What is said about a report is not much further on. -/
theorem Report.UpTo.of_diagnostic? {n : Nat} {report : Report} {base : Base} {d : Diagnostic}
    (h : report.UpTo n) (hd : report.diagnostic? base = some d) : d.pos.place.UpTo (3 * n) := by
  cases report with
  | error e =>
    cases hd
    exact Place.UpTo.mono h (by omega)
  | directive place comment =>
    obtain ⟨hplace, hcomment⟩ := h
    obtain ⟨hline, hge, hle⟩ := LineDirective.place_of_rejection? hd
    have hline_le := hplace.line_le
    exact ⟨hline ▸ hplace.line_pos, by omega, Nat.lt_of_lt_of_le hplace.column_pos hge, Nat.le_trans hle hcomment⟩

namespace Reader

variable {r : Reader} {base : Base}

/-- Whatever is reported is one of the things that the bytes may lead to. -/
theorem upTo_of_mem {report : Report} (h : report ∈ r.scans.flatMap Scan.reports) :
    report.UpTo r.bytesLeft := by
  obtain ⟨scan, hscan, hreport⟩ := List.mem_flatMap.mp h
  exact (r.scan_upTo scan hscan).2 report hreport

/-- Lexemes are at places that the bytes may lead to. -/
theorem upTo_of_marked {pos : Pos} (h : Marked base r.scans pos) : pos.place.UpTo r.bytesLeft := by
  obtain ⟨k, scan, hk, rfl⟩ := h
  exact (r.scan_upTo scan (List.mem_of_getElem? hk)).1

/-- What is said about a report or a lexeme is at a place that the bytes may lead to. -/
theorem upTo_of_saidOf {d : Diagnostic} (h : Parser.SaidOf base r.scans d) :
    d.pos.place.UpTo (3 * r.bytesLeft) := by
  rcases h with ⟨before, report, behind, he, hd⟩ | hmarked
  · have hreport : report ∈ r.scans.flatMap Scan.reports := he ▸ List.mem_append_right _ List.mem_cons_self
    exact (upTo_of_mem hreport).of_diagnostic? hd
  · exact (upTo_of_marked hmarked).mono (by omega)

/-- Whatever a run yields is at places that the bytes may lead to. -/
theorem upTo_parseFile (r : Reader) (base : Base) (tolerant verbose : Bool) :
    let p := (Parser.start base r.scans tolerant verbose).parseFile
    Failure.Lies (·.place.UpTo r.bytesLeft) (·.pos.place.UpTo (3 * r.bytesLeft)) p.1 ∧
      ∀ d ∈ p.2.diagnostics, d.pos.place.UpTo (3 * r.bytesLeft) :=
  r.lies_parseFile (fun _ => upTo_of_marked) (fun _ => upTo_of_saidOf) tolerant verbose

end Reader

end FrontEnd
