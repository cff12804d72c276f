import Mathlib.Data.List.Basic
import FrontEnd.Proofs.Comments.Delimited

/-!
# Comments are told of as they stand in the bytes

Of the comments that a call of `next` passes over, exactly those are told of that may be directives, each with
its text, and those that are not closed (`Scanner.exists_forwarded`). Where everything can be decoded, they are
delimited by bytes, and their text is that of the bytes (`Reader.comments_forwarded`).
-/

namespace FrontEnd

/-- The comment that is told of, and where. -/
def Report.comment? : Report → Option (Place × String)
  | .directive place text => some (place, text)
  | .error _ => none

/-- Where a comment starts that is told not to be closed. -/
def Report.unclosed? : Report → Option Place
  | .error ⟨.unterminatedComment, place⟩ => some place
  | _ => none

/-- The reports tell of the comments among the crossings: of each one that may be a directive, with its text,
and of each one that is not closed. As far as `exact` goes, they tell where these start. -/
structure Forwards (bytes : ByteArray) (exact : Prop) (ps : List Crossing) (reports : List Report) : Prop where
  texts_eq : (reports.filterMap Report.comment?).map Prod.snd =
    (ps.filterMap Crossing.span?).map (commentAt bytes)
  places_eq : exact → (reports.filterMap Report.comment?).map Prod.fst =
    (ps.filterMap Crossing.span?).map fun span => .ofOffset bytes span.1
  length_unclosed : (reports.filterMap Report.unclosed?).length = (ps.filterMap Crossing.unclosed?).length
  unclosed_eq : exact → reports.filterMap Report.unclosed? =
    (ps.filterMap Crossing.unclosed?).map (Place.ofOffset bytes)

/-- Comments are forwarded where less is asked of their places. -/
theorem Forwards.mono {bytes : ByteArray} {exact exact' : Prop} {ps : List Crossing} {reports : List Report}
    (h : Forwards bytes exact ps reports) (hexact : exact' → exact) : Forwards bytes exact' ps reports :=
  { h with
    places_eq := fun he => h.places_eq (hexact he)
    unclosed_eq := fun he => h.unclosed_eq (hexact he) }

namespace Remark

variable {bytes : ByteArray} {x : Remark} {told told' : List Remark}

/-- The text of a comment is told as it stands between its offsets. -/
theorem comment?_report (bytes : ByteArray) (x : Remark) :
    (x.report bytes).comment? = x.span?.map fun span => (x.place, commentAt bytes span) := by
  cases x <;> rfl

/-- A comment that does not end is reported at its place. -/
theorem unclosed?_report (bytes : ByteArray) (x : Remark) :
    (x.report bytes).unclosed? = x.unclosed?.map fun _ => x.place := by
  rcases x with ⟨_, ⟨fault, _⟩⟩ | _
  · cases fault <;> rfl
  · rfl

/-- A comment that is told of is not in a token. -/
theorem offset_of_span? {span : Nat × Nat} (h : x.span? = some span) : x.offset = span.1 ∧ ¬x.InToken := by
  refine ⟨?_, fun hx => ?_⟩
  · cases x with
    | error => cases h
    | directive =>
      cases h
      rfl
  · rw [hx.2.1] at h
    cases h

/-- A comment that does not end is not in a token. -/
theorem offset_of_unclosed? {start : Nat} (h : x.unclosed? = some start) : x.offset = start ∧ ¬x.InToken := by
  refine ⟨?_, fun hx => ?_⟩
  · rcases x with ⟨_, ⟨fault, _⟩⟩ | _
    · cases fault with
      | unterminatedComment => exact Option.some.inj h
      | _ => cases h
    · cases h
  · rw [hx.2.2] at h
    cases h

/-- What is told of comments is told in the reports. -/
theorem forwards {exact : Prop} {ps : List Crossing}
    (hspans : told.filterMap Remark.span? = ps.filterMap Crossing.span?)
    (hunclosed : told.filterMap Remark.unclosed? = ps.filterMap Crossing.unclosed?)
    (hplace : exact → ∀ x ∈ told, ¬x.InToken → x.place = .ofOffset bytes x.offset) :
    Forwards bytes exact ps (told.map (Remark.report bytes)) where
  texts_eq := by
    simp only [← hspans, List.filterMap_map, List.map_filterMap, Function.comp_def, comment?_report,
      Option.map_map]
  places_eq he := by
    rw [← hspans, List.filterMap_map, List.map_filterMap, List.map_filterMap]
    refine List.filterMap_congr fun x hx => ?_
    dsimp only [Function.comp_apply]
    rw [comment?_report, Option.map_map]
    cases hspan : x.span? with
    | none => rfl
    | some span =>
      -- A remark with a span lies at the start of the span and in a gap, so the place asked for is its own.
      obtain ⟨hoffset, hgap⟩ := offset_of_span? hspan
      exact congrArg some ((hplace he x hx hgap).trans (hoffset ▸ rfl))
  length_unclosed := by
    simp only [← hunclosed, List.filterMap_map, List.length_filterMap_eq_countP, Function.comp_def,
      unclosed?_report, Option.isSome_map]
  unclosed_eq he := by
    rw [← hunclosed, List.filterMap_map, List.map_filterMap]
    refine List.filterMap_congr fun x hx => ?_
    dsimp only [Function.comp_apply]
    rw [unclosed?_report]
    cases hstart : x.unclosed? with
    | none => rfl
    | some start =>
      obtain ⟨hoffset, hgap⟩ := offset_of_unclosed? hstart
      exact congrArg some ((hplace he x hx hgap).trans (hoffset ▸ rfl))

end Remark

namespace Scanner

variable {r : Reader} {bytes : ByteArray} {exact : Prop} {mark? : Option Nat} {s : Scanner Buffer}

/-- A call of `next` passes over crossings and tells of the comments among them. -/
theorem exists_forwarded (hs : s.stream.Sited r bytes exact mark?) {before : List Remark}
    (hreports : s.reports = before.map (Remark.report bytes)) (hplain : Plain before) :
    ∃ ps, s.Crosses r bytes ps ∧ Forwards bytes exact ps s.next.reports := by
  obtain ⟨ps, told, happroach, hfinds⟩ := call hs
  obtain ⟨gs, hstretch, -⟩ := happroach.passing.stretch
  -- What has been told before, and in tokens, is not about comments.
  have hforwards {exact' : Prop} {ps' : List Crossing} {told' : List Remark}
      (hreports' : s.next.stream.reports.toList = s.start.reports.toList ++ told'.map (Remark.report bytes))
      (hleg : Leg r bytes exact' (s.stream.offset r.bytesLeft) s ps' (told ++ told'))
      (hplace : exact → ∀ x ∈ told', ¬x.InToken → x.place = .ofOffset bytes x.offset) :
      Forwards bytes exact ps' s.next.reports := by
    have hall : s.next.reports = (before ++ (told ++ told')).map (Remark.report bytes) := by
      refine hreports'.trans ?_
      rw [hstretch.reports_eq, show s.stream.reports.toList = _ from hreports]
      simp
    rw [hall]
    refine Remark.forwards ?_ ?_ fun he => ?_
    · rw [List.filterMap_append, hplain.span_eq_nil, List.nil_append, hleg.spans_eq]
    · rw [List.filterMap_append, hplain.unclosed_eq_nil, List.nil_append, hleg.unclosed_eq]
    · refine List.forall_mem_append.mpr ⟨fun x hx hgap => absurd (hplain.inToken hx) hgap, ?_⟩
      exact List.forall_mem_append.mpr ⟨fun x hx _ => hstretch.account.located he x hx, hplace he⟩
  rcases hfinds.taken happroach.sited rfl with
    ⟨fs, told', again, -, htaking, -, hascending⟩ | ⟨hsemi, p, told', mark', hnext, -, hcomment, hline⟩
  · have hleg := Leg.of_taking hs happroach htaking And.left hascending
    exact ⟨ps, hleg.crosses, hforwards htaking.reports_eq hleg fun _ x hx hgap =>
      absurd (htaking.inToken x hx) hgap⟩
  · obtain ⟨gs', hstretch', -⟩ := hcomment.stretch
    have hleg := Leg.of_comment hs happroach hsemi hnext hcomment hline
    exact ⟨ps ++ [p], hleg.crosses, hforwards hstretch'.reports_eq hleg fun he x hx _ =>
      hstretch'.account.located he x hx⟩

end Scanner

namespace Reader

variable {r : Reader} {bytes : ByteArray}

/-- Where everything can be decoded, crossings extend as far as they should, and are told of as they stand in
the bytes. -/
theorem delimited_of_crosses (hclean : undecodable bytes = []) {s : Scanner Buffer} {ps : List Crossing}
    (h : s.Crosses r bytes ps) {p : Crossing} (hp : p ∈ ps) :
    p.Delimited bytes ∧ commentAt bytes (p.start, p.stop) = String.ofList p.passage.chars ∧
      (String.ofList p.passage.chars).toUTF8 = bytes.extract p.start p.stop := by
  obtain ⟨j, hcrossings, hgap, -⟩ := h
  obtain ⟨hdecodes, hend⟩ := hcrossings.decodes_chars hclean hp
  refine ⟨Crossing.delimited hdecodes (hcrossings.fits_of_mem hgap hp) hend, ?_, hdecodes.extract_eq.symm⟩
  exact congrArg String.ofList (Decodes.lossyChars_extract (k := 0) hdecodes)

/-- Every scan of a run tells of the comments before its token. -/
theorem exists_forwards (hr : r.Hands bytes none) {n : Nat} {scan : Scan} (hn : r.scans[n]? = some scan) :
    ∃ ps, (r.before n).Crosses r bytes ps ∧
      Forwards bytes ((r.before 0).Unshifted n) ps scan.reports := by
  obtain ⟨fs, before, hsited, -, hreports, -, hplain⟩ := Scanner.opening hr
  obtain ⟨mark?, hafter⟩ := Scanner.sited_after hsited n
  have hquiet : ∃ told : List Remark, (r.before n).reports = told.map (Remark.report bytes) ∧ Plain told := by
    cases n with
    | zero => exact ⟨before, hreports, hplain⟩
    | succ n =>
      refine ⟨[], ?_, plain_nil⟩
      unfold Reader.before
      rw [Scanner.after_succ]
      rfl
  obtain ⟨told, htold, hplain⟩ := hquiet
  obtain ⟨ps, hcrosses, hforwards⟩ := Scanner.exists_forwarded (s := r.before n) hafter htold hplain
  refine ⟨ps, hcrosses, ?_⟩
  rw [Scanner.scan_of_scanUpTo hn]
  exact hforwards.mono fun hu => ⟨trivial, hu⟩

/-- Where everything can be decoded, all comments between tokens are delimited by bytes, and exactly those
that may be directives are told of, with their text and where they start, and those that are not closed. The
places are right, unless a newline has stood behind two dots before. -/
theorem comments_forwarded (hr : r.Hands bytes none) (hclean : undecodable bytes = []) {n : Nat} {scan : Scan}
    (hn : r.scans[n]? = some scan) :
    ∃ ps, (r.before n).Crosses r bytes ps ∧
      (∀ p ∈ ps, p.Delimited bytes ∧ commentAt bytes (p.start, p.stop) = String.ofList p.passage.chars ∧
        (String.ofList p.passage.chars).toUTF8 = bytes.extract p.start p.stop) ∧
      Forwards bytes ((r.before 0).Unshifted n) ps scan.reports := by
  obtain ⟨ps, hcrosses, hforwards⟩ := exists_forwards hr hn
  exact ⟨ps, hcrosses, fun p => delimited_of_crosses hclean hcrosses, hforwards⟩

/-- A comment with three stars in a row before its last slash, and one that is not closed. -/
theorem comments_forwarded_star :
    let bytes := "/*line f:7**//*line".toUTF8
    let r := ofBytes bytes
    r.Hands bytes none ∧ undecodable bytes = [] ∧ (r.before 0).Unshifted 0 ∧
      ∃ scan, r.scans[0]? = some scan ∧
        scan.reports = [.directive ⟨1, 1⟩ "/*line f:7**/", .error ⟨.unterminatedComment, ⟨1, 14⟩⟩] ∧
        ∃ ps, (r.before 0).Crosses r bytes ps ∧
          (∀ p ∈ ps, p.Delimited bytes ∧ commentAt bytes (p.start, p.stop) = String.ofList p.passage.chars ∧
            (String.ofList p.passage.chars).toUTF8 = bytes.extract p.start p.stop) ∧
          Forwards bytes ((r.before 0).Unshifted 0) ps scan.reports := by
  intro bytes r
  have hr : r.Hands bytes none := (delivers_ofBytes bytes).hands
  have hclean : undecodable bytes = [] := by decide +kernel
  obtain ⟨scan, hscan, hreports⟩ : ∃ scan, r.scans[0]? = some scan ∧
      scan.reports = [.directive ⟨1, 1⟩ "/*line f:7**/", .error ⟨.unterminatedComment, ⟨1, 14⟩⟩] := by
    decide +kernel
  exact ⟨hr, hclean, nofun, scan, hscan, hreports, comments_forwarded hr hclean hscan⟩

end Reader

end FrontEnd
