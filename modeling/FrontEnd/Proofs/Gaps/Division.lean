import FrontEnd.Proofs.Gaps.Calls
import FrontEnd.Proofs.Progress

/-!
# Segments and gaps

The segments of the tokens up to the end of the input and the gaps between them make up the input, byte
by byte (`Reader.divided`). What can be read in a gap is blanks, comments, and the characters that have
been rejected on the way to the token behind it; only the last gap may hold a comment that does not end.
This needs that no NUL byte is taken for a character, since one inside a closing marker would hide it.
-/

namespace FrontEnd

/-- The character that is rejected, if the report is about one. -/
def Report.rejected? : Report → Option Char
  | .error ⟨.unexpectedCharacter c, _⟩ => some c
  | _ => none

/-- A character that is rejected is reported. -/
theorem Remark.rejected?_report (bytes : ByteArray) (x : Remark) :
    (x.report bytes).rejected? = x.rejected? := by
  rcases x with ⟨offset, ⟨fault, place⟩⟩ | _
  · cases fault <;> rfl
  · rfl

/-- The characters that are rejected, as they are reported. -/
theorem Remark.filterMap_rejected? (bytes : ByteArray) (told : List Remark) :
    (told.map (Remark.report bytes)).filterMap Report.rejected? = told.filterMap Remark.rejected? := by
  rw [List.filterMap_map, show Report.rejected? ∘ Remark.report bytes = Remark.rejected? from
    funext (Remark.rejected?_report bytes)]

/-- The bytes `gap` between two tokens: blanks, comments, and the rejected characters of `reports`. A
comment that does not end has nothing `behind` it. -/
def IsGap (gap : ByteArray) (reports : List Report) (behind : ByteArray) : Prop :=
  ∃ ps, passages (readable gap) = (ps, []) ∧
    ps.filterMap Passage.stray? = reports.filterMap Report.rejected? ∧
    ((∃ text, .openComment text ∈ ps) → behind = .empty)

/-- The bytes are made up of gaps and the segments by turns. -/
inductive Divided : List ByteArray → List Scan → ByteArray → Prop
  | nil : Divided [] [] .empty
  | cons {gap segment rest segments scan scans} : IsGap gap scan.reports (segment ++ rest) →
      Divided segments scans rest → Divided (segment :: segments) (scan :: scans) (gap ++ (segment ++ rest))

/-- A comment that does not end fits at the end only. -/
theorem char?_eq_none_of_openComment {ps : List Passage} {next? : Option Char} (h : Gap ps next?)
    {text : List Char} (hp : .openComment text ∈ ps) : next? = none := by
  induction ps with
  | nil => cases hp
  | cons p ps ih =>
    rcases List.mem_cons.mp hp with rfl | hp
    · exact (Option.or_eq_none_iff.mp h.1.2).2
    · exact ih h.2 hp

namespace Scanner

/-- The segments of the next lexemes up to the end of the input, `n` at most. -/
def segmentsUpTo {ω : Type} [ByteWindow ω] : Nat → Scanner ω → List ByteArray
  | 0, _ => []
  | n + 1, s =>
    let s := s.next
    if s.lexeme.token = .eof then [s.segment] else s.segment :: segmentsUpTo n s.dropReports

variable {r : Reader} {bytes : ByteArray} {exact : Prop} {mark? : Option Nat} {s : Scanner Buffer}
  {i : Nat} {us : List Fetched}

/-- What is passed over from offset `i` on is a gap. -/
theorem isGap_of_passing {t u : CharStream Buffer} {ps : List Crossing} {told : List Remark}
    {reports : List Report} (hn : r.NoticesNuls bytes) (hi : Decodes r bytes i us (t.offset r.bytesLeft))
    (hus : heard us = []) (h : CharStream.Passing r bytes exact t u ps told)
    (hu : u.char? = none → u.offset r.bytesLeft = bytes.size)
    (hreports : reports.filterMap Report.rejected? = told.filterMap Remark.rejected?) :
    IsGap (bytes.extract i (u.offset r.bytesLeft)) reports
      (bytes.extract (u.offset r.bytesLeft) bytes.size) := by
  obtain ⟨fs, hstretch, hheard⟩ := h.stretch
  have hall := hi.append hstretch.account.decodes
  refine ⟨ps.map Crossing.passage, ?_, ?_, fun ⟨text, hmem⟩ => ?_⟩
  · rw [hall.readable_extract hn, heard_append, hus, hheard]
    exact h.gap.passages_eq
  · rw [hreports, h.rejected_eq]
  · rw [hu (char?_eq_none_of_openComment h.gap hmem)]
    exact ByteArray.extract_same

/-- A call of `next` goes on over a gap and a segment. -/
theorem exists_gap (hn : r.NoticesNuls bytes) (hs : s.stream.Sited r bytes exact mark?)
    (hi : Decodes r bytes i us (s.stream.offset r.bytesLeft)) (hus : heard us = [])
    (hreports : s.reports.filterMap Report.rejected? = []) : ∃ j,
    i ≤ j ∧ j ≤ s.next.stream.offset r.bytesLeft ∧ s.next.stream.offset r.bytesLeft ≤ bytes.size ∧
      s.next.segment = bytes.extract j (s.next.stream.offset r.bytesLeft) ∧
      IsGap (bytes.extract i j) s.next.reports (bytes.extract j bytes.size) := by
  obtain ⟨ps, told, happroach, hfinds⟩ := call hs
  have hpassing := happroach.passing
  obtain ⟨fs, hstretch, hheard⟩ := hpassing.stretch
  have hto := Nat.le_trans hi.le hstretch.account.decodes.le
  -- What is told behind the gap adds no rejected character, unless it belongs to the gap.
  have hadd {t : CharStream Buffer} {told' : List Remark}
      (ht : t.reports.toList = s.start.reports.toList ++ told'.map (Remark.report bytes)) :
      t.reports.toList.filterMap Report.rejected? =
        told.filterMap Remark.rejected? ++ told'.filterMap Remark.rejected? := by
    rw [ht, hstretch.reports_eq, List.filterMap_append, List.filterMap_append,
      Remark.filterMap_rejected?, Remark.filterMap_rejected?,
      show s.stream.reports.toList.filterMap Report.rejected? = [] from hreports, List.nil_append]
  rcases hfinds.taken happroach.sited rfl with
    ⟨gs, told', again, hsited, htaking, -⟩ | ⟨-, p, told', mark', hsited, hmark, hcomment, hline⟩
  · refine ⟨s.start.offset r.bytesLeft, hto, htaking.decodes.le, hsited.offset_le, hsited.marked_eq,
      isGap_of_passing hn hi hus hpassing happroach.sited.offset_of_end ?_⟩
    have hnone : told'.filterMap Remark.rejected? = [] :=
      List.filterMap_eq_nil_iff.mpr fun x hx => (htaking.inToken x hx).1
    exact (hadd htaking.reports_eq).trans (by rw [hnone, List.append_nil])
  · obtain ⟨gs, hstretch', -⟩ := hcomment.stretch
    have hle := hstretch'.account.decodes.le
    have hboth := hadd hstretch'.reports_eq
    rcases hmark with rfl | rfl
    · -- Without a mark the segment is empty, and the comment is the last of the gap.
      refine ⟨_, Nat.le_trans hto hle, Nat.le_refl _, hsited.offset_le, ?_,
        isGap_of_passing hn hi hus (hpassing.trans hcomment) hsited.offset_of_end ?_⟩
      · rw [ByteArray.extract_same]
        exact hsited.marked_eq
      · rw [List.filterMap_append]
        exact hboth
    · refine ⟨s.start.offset r.bytesLeft, hto, hle, hsited.offset_le, hsited.marked_eq,
        isGap_of_passing hn hi hus hpassing happroach.sited.offset_of_end ?_⟩
      have hnone : told'.filterMap Remark.rejected? = [] := by
        rw [hcomment.rejected_eq]
        exact List.filterMap_cons_none (Crossing.stray?_eq_none hcomment.gap.1 hline)
      exact hboth.trans (by rw [hnone, List.append_nil])

/-- The bytes from some offset on are gaps and segments. -/
theorem divided_scanUpTo (hn : r.NoticesNuls bytes) {m : Nat} (hs : s.stream.Sited r bytes exact mark?)
    (hi : Decodes r bytes i us (s.stream.offset r.bytesLeft)) (hus : heard us = [])
    (hreports : s.reports.filterMap Report.rejected? = []) (hcomplete : Complete (s.scanUpTo m)) :
    Divided (s.segmentsUpTo m) (s.scanUpTo m) (bytes.extract i bytes.size) := by
  -- Scan by scan; `i` is where the segments written down so far end.
  induction m generalizing s exact mark? i us with
  | zero => cases hcomplete
  | succ m ih =>
    obtain ⟨j, hij, hjk, hk, hsegment, hgap⟩ := exists_gap hn hs hi hus hreports
    obtain ⟨mark', hnext⟩ := sited_next hs
    -- The rest from `i` is the gap, the segment of this token and what stands behind it.
    have hbehind : bytes.extract j bytes.size =
        s.next.segment ++ bytes.extract (s.next.stream.offset r.bytesLeft) bytes.size := by
      rw [hsegment, ByteArray.extract_append_extract, Nat.min_eq_left hjk, Nat.max_eq_right hk]
    have hwhole : bytes.extract i bytes.size = bytes.extract i j ++ (s.next.segment ++
        bytes.extract (s.next.stream.offset r.bytesLeft) bytes.size) := by
      rw [← hbehind, ByteArray.extract_append_extract, Nat.min_eq_left hij,
        Nat.max_eq_right (Nat.le_trans hjk hk)]
    rw [hbehind] at hgap
    rw [hwhole]
    unfold scanUpTo at hcomplete ⊢
    unfold segmentsUpTo
    dsimp only at hcomplete ⊢
    split
    · next heof =>
      have hend := hnext.offset_of_end (char?_of_next_eq_eof heof)
      refine .cons hgap ?_
      rw [hend, ByteArray.extract_same]
      exact .nil
    · next heof =>
      rw [if_neg heof] at hcomplete
      have hrest := hcomplete.tail heof
      exact .cons hgap (ih (s := s.next.dropReports) hnext.dropReports (.nil hk) rfl rfl hrest)

end Scanner

namespace Reader

/-- The segments of the tokens up to the end of the input. -/
def segments (r : Reader) : List ByteArray :=
  let s := Scanner.ofWindow (Buffer.ofReader r)
  s.segmentsUpTo (s.stream.remaining + 2)

/-- If no NUL byte is taken for a character, the input is gaps and segments, none lost, doubled or out of
order. -/
theorem divided {r : Reader} {bytes : ByteArray} (hr : r.Hands bytes none) (hn : r.NoticesNuls bytes) :
    Divided r.segments r.scans bytes := by
  obtain ⟨fs, told, hsited, haccount, hreports, hheard, hplain⟩ := Scanner.opening hr
  have hnone : (Scanner.ofWindow (Buffer.ofReader r)).reports.filterMap Report.rejected? = [] := by
    rw [hreports, Remark.filterMap_rejected?, hplain.rejected_eq_nil]
  have hdivided := Scanner.divided_scanUpTo hn hsited haccount.decodes hheard hnone r.complete_scans
  rwa [ByteArray.extract_zero_size] at hdivided

/-- A NUL byte inside the marker that closes a comment, a rejected character, and a separator. -/
theorem divided_nul :
    let bytes := "x /* *\x00/ ? y".toUTF8
    let r := ofBytes bytes
    r.Hands bytes none ∧ r.NoticesNuls bytes ∧
      r.segments = ["x".toUTF8, "y".toUTF8, .empty, .empty] ∧ Divided r.segments r.scans bytes := by
  intro bytes r
  have hr : r.Hands bytes none := (delivers_ofBytes bytes).hands
  have hn : r.NoticesNuls bytes := noticesNuls_ofBytes (by decide) (by decide)
  exact ⟨hr, hn, by decide +kernel, divided hr hn⟩

end Reader

end FrontEnd
