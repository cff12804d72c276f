import FrontEnd.Proofs.Bases.Hearing
import FrontEnd.Proofs.Bases.Queue

/-!
# Line directives govern what follows them

The base at an offset is that of the last directive among the comments that end before it (`governing`).
All positions in a tree, and those of all diagnostics, carry the base at the offset where they are, whatever
else stands in the input (`Reader.governed`). A comment ends for this purpose where the next character after
it stands: what cannot be decoded right behind it is read as part of it. If there is no such thing, it ends
with its last character.
-/

namespace FrontEnd

/-- The comment from one offset up to another, as it is told of. -/
def commentAt (bytes : ByteArray) (span : Nat × Nat) : String :=
  Utf8.decodeLossy (bytes.extract span.1 span.2)

/-- The base after the comment. -/
def followAt (bytes : ByteArray) (base : Base) (span : Nat × Nat) : Base :=
  LineDirective.follow (.ofOffset bytes span.1) (commentAt bytes span) base

/-- The base at an offset: what the comments that end before it, or there, make of `base`. -/
def governing (bytes : ByteArray) (comments : List (Nat × Nat)) (base : Base) (o : Nat) : Base :=
  (comments.filter (·.2 ≤ o)).foldl (followAt bytes) base

/-- The position is that of an offset, and carries the base there. -/
def Governed (bytes : ByteArray) (comments : List (Nat × Nat)) (base : Base) (pos : Pos) : Prop :=
  ∃ o, o ≤ bytes.size ∧ pos = ⟨governing bytes comments base o, .ofOffset bytes o⟩

/-- The diagnostic is about an offset and carries the base there, or it says what is wrong with a comment and
carries the base where that starts. -/
def Regards (bytes : ByteArray) (comments : List (Nat × Nat)) (base : Base) (d : Diagnostic) : Prop :=
  Governed bytes comments base d.pos ∨ ∃ span ∈ comments,
    LineDirective.rejection? (.ofOffset bytes span.1) (commentAt bytes span)
      (governing bytes comments base span.1) = some d

/-- The comments in some gaps that may be directives. -/
def commentsIn (gaps : List (List Crossing)) : List (Nat × Nat) := gaps.flatten.filterMap Crossing.span?

section

variable {bytes : ByteArray} {base : Base} {o : Nat} {before behind told : List Remark}

/-- What is no directive changes nothing. -/
theorem followAt_of_isInert {span : Nat × Nat} (h : IsInert bytes span) (base : Base) :
    followAt bytes base span = base := by
  unfold followAt LineDirective.follow commentAt
  rw [h]

/-- Comments that are left out of account do not matter, if they are no directives. -/
theorem foldl_filter_followAt {comments : List (Nat × Nat)}
    (h : ∀ span ∈ comments, span.2 ≤ o ∨ IsInert bytes span) :
    (comments.filter (·.2 ≤ o)).foldl (followAt bytes) base = comments.foldl (followAt bytes) base := by
  induction comments generalizing base with
  | nil => rfl
  | cons span comments ih =>
    obtain ⟨hspan, hcomments⟩ := List.forall_mem_cons.mp h
    rw [List.filter_cons]
    split
    · exact ih hcomments
    · next hle =>
      have hinert := hspan.resolve_left fun hle' => hle (decide_eq_true hle')
      rw [List.foldl_cons, followAt_of_isInert hinert, ih hcomments]

/-- What is told at its place changes the base as the comments do. -/
theorem rebased_map (h : ∀ x ∈ told, x.place = .ofOffset bytes x.offset) :
    rebased base (told.map (Remark.report bytes)) =
      (told.filterMap Remark.span?).foldl (followAt bytes) base := by
  induction told generalizing base with
  | nil => rfl
  | cons x told ih =>
    obtain ⟨hx, htold⟩ := List.forall_mem_cons.mp h
    cases x with
    | error => exact ih htold
    | directive start stop place =>
      obtain rfl : place = .ofOffset bytes start := hx
      exact ih htold

/-- The base at an offset is the one after all that is told before it. -/
theorem governing_append (hlocated : ∀ x ∈ before, x.place = .ofOffset bytes x.offset)
    (hbefore : ∀ x ∈ before, ∀ span, x.span? = some span → span.2 ≤ o ∨ IsInert bytes span)
    (hbehind : ∀ x ∈ behind, ∀ span, x.span? = some span → o < span.2) :
    governing bytes ((before ++ behind).filterMap Remark.span?) base o =
      rebased base (before.map (Remark.report bytes)) := by
  have hnone : (behind.filterMap Remark.span?).filter (·.2 ≤ o) = [] := by
    refine List.filter_eq_nil_iff.mpr fun span hspan hle => ?_
    obtain ⟨x, hx, hspan⟩ := List.mem_filterMap.mp hspan
    exact Nat.not_le_of_lt (hbehind x hx span hspan) (of_decide_eq_true hle)
  have hall : ∀ span ∈ before.filterMap Remark.span?, span.2 ≤ o ∨ IsInert bytes span := by
    intro span hspan
    obtain ⟨x, hx, hspan⟩ := List.mem_filterMap.mp hspan
    exact hbefore x hx span hspan
  rw [governing, List.filterMap_append, List.filter_append, hnone, List.append_nil,
    foldl_filter_followAt hall, rebased_map hlocated]

/-- A comment that is told of before something ends before it. -/
theorem Remark.Precedes.span_le {x y : Remark} (h : x.Precedes y) {span : Nat × Nat}
    (hspan : x.span? = some span) : span.2 ≤ y.offset := by
  cases x with
  | error => cases hspan
  | directive =>
    cases hspan
    exact h

/-- A comment ends behind where it starts. -/
theorem Remark.Opens.offset_lt {x : Remark} (h : x.Opens bytes) {span : Nat × Nat}
    (hspan : x.span? = some span) : x.offset < span.2 := by
  cases x with
  | error => cases hspan
  | directive =>
    cases hspan
    exact h.2

/-- A comment that is told of after something ends behind it. -/
theorem Remark.Precedes.lt_span {x y : Remark} (h : x.Precedes y) (hx : x.Opens bytes) (hy : y.Opens bytes)
    {span : Nat × Nat} (hspan : y.span? = some span) : x.offset < span.2 := by
  cases y with
  | error => cases hspan
  | directive start stop place =>
    cases hspan
    cases x with
    | error => exact h
    | directive => exact Nat.lt_of_lt_of_le hx.2 (Nat.le_trans h (Nat.le_of_lt hy.2))

/-- Of all that is told in order, comments end before something if they are told of before it, and behind its
start otherwise. -/
theorem spans_of_ordered {x : Remark} (hordered : (before ++ x :: behind).Pairwise Remark.Precedes)
    (hopens : ∀ y ∈ before ++ x :: behind, y.Opens bytes) :
    (∀ y ∈ before, ∀ span, y.span? = some span → span.2 ≤ x.offset) ∧
      ∀ y ∈ x :: behind, ∀ span, y.span? = some span → x.offset < span.2 := by
  obtain ⟨-, hlater, hbefore⟩ := List.pairwise_append.mp hordered
  obtain ⟨hbehind, -⟩ := List.pairwise_cons.mp hlater
  obtain ⟨hx, hopens⟩ := List.forall_mem_cons.mp (List.forall_mem_append.mp hopens).2
  refine ⟨fun y hy span hspan => (hbefore y hy x List.mem_cons_self).span_le hspan, ?_⟩
  refine List.forall_mem_cons.mpr ⟨fun span => hx.offset_lt, fun y hy span => ?_⟩
  exact (hbehind y hy).lt_span hx (hopens y hy)

/-- Of all that is told in order, something is heard at the base that stands where it is. -/
theorem governing_offset (base : Base) {x : Remark}
    (hordered : (before ++ x :: behind).Pairwise Remark.Precedes)
    (hlocated : ∀ y ∈ before ++ x :: behind, y.place = .ofOffset bytes y.offset)
    (hopens : ∀ y ∈ before ++ x :: behind, y.Opens bytes) :
    governing bytes ((before ++ x :: behind).filterMap Remark.span?) base x.offset =
      rebased base (before.map (Remark.report bytes)) := by
  obtain ⟨hbefore, hbehind⟩ := spans_of_ordered hordered hopens
  exact governing_append (List.forall_mem_append.mp hlocated).1
    (fun y hy span hspan => .inl (hbefore y hy span hspan)) hbehind

end

namespace Scanner.Legs

variable {r : Reader} {bytes : ByteArray} {i : Nat} {s : Scanner Buffer} {scans : List Scan}
  {gaps : List (List Crossing)} {tolds : List (List Remark)} {base : Base}

/-- The base at a lexeme is the one where it starts. -/
theorem governed_of_marked (h : Legs r bytes True i s scans gaps tolds) {pos : Pos}
    (hpos : Marked base scans pos) : Governed bytes (commentsIn gaps) base pos := by
  obtain ⟨n, scan, hn, rfl⟩ := hpos
  have hsplit : tolds.flatten = (tolds.take (n + 1)).flatten ++ (tolds.drop (n + 1)).flatten := by
    rw [← List.flatten_append, List.take_append_drop]
  have hlocated := h.located trivial
  rw [hsplit] at hlocated
  refine ⟨_, h.start_le_size hn, ?_⟩
  rw [h.place_eq trivial hn, commentsIn, ← h.spans_eq, hsplit,
    governing_append (List.forall_mem_append.mp hlocated).1 (h.early hn) h.late, ← (h.take _).reports_eq]
  rfl

/-- A diagnostic about a report carries the base at the offset that the report is about. -/
theorem regards_of_told (h : Legs r bytes True i s scans gaps tolds) {d : Diagnostic}
    (hd : Told base (scans.flatMap Scan.reports) d) : Regards bytes (commentsIn gaps) base d := by
  obtain ⟨_, _, _, he, hd⟩ := hd
  rw [h.reports_eq] at he
  -- The report stands among the remarks, with those before it deciding the base.
  obtain ⟨before, rest, hall, rfl, hrest⟩ := List.map_eq_append_iff.mp he
  obtain ⟨x, behind, rfl, rfl, rfl⟩ := List.map_eq_cons_iff.mp hrest
  have hx : x ∈ tolds.flatten := hall ▸ List.mem_append_right _ List.mem_cons_self
  have hplace := h.located trivial x hx
  have hbase := governing_offset base (hall ▸ h.ordered) (hall ▸ h.located trivial) (hall ▸ h.opens)
  rw [← hall, h.spans_eq, ← commentsIn] at hbase
  rw [← hbase] at hd
  cases x with
  | error offset e =>
    cases hd
    refine .inl ⟨offset, (h.bounds _ hx).2, ?_⟩
    rw [show e.place = .ofOffset bytes offset from hplace]
    rfl
  | directive start stop place =>
    obtain rfl : place = .ofOffset bytes start := hplace
    refine .inr ⟨(start, stop), ?_, hd⟩
    rw [commentsIn, ← h.spans_eq]
    exact List.mem_filterMap.mpr ⟨_, hx, rfl⟩

end Scanner.Legs

/-- A call of `next` goes on over items. -/
theorem Scanner.decodes_next {r : Reader} {bytes : ByteArray} {exact : Prop} {mark? : Option Nat}
    {s : Scanner Buffer} (hs : s.stream.Sited r bytes exact mark?) :
    ∃ fs, Decodes r bytes (s.stream.offset r.bytesLeft) fs (s.next.stream.offset r.bytesLeft) := by
  obtain ⟨ps, told, happroach, hfinds⟩ := call hs
  obtain ⟨gs, hstretch, -⟩ := happroach.passing.stretch
  rcases hfinds.taken happroach.sited rfl with ⟨fs, _, _, -, htaking, -⟩ | ⟨-, p, _, _, -, -, hcomment, -⟩
  · exact ⟨_, hstretch.account.decodes.append htaking.decodes⟩
  · obtain ⟨fs, hstretch', -⟩ := hcomment.stretch
    exact ⟨_, hstretch.account.decodes.append hstretch'.account.decodes⟩

/-- Every call of `next` goes on over items. -/
theorem Scanner.decodes_after {r : Reader} {bytes : ByteArray} {exact : Prop} {mark? : Option Nat}
    {s : Scanner Buffer} {i : Nat} {us : List Fetched} (hs : s.stream.Sited r bytes exact mark?)
    (hi : Decodes r bytes i us (s.stream.offset r.bytesLeft)) (n : Nat) :
    ∃ vs, Decodes r bytes i vs ((s.after n).stream.offset r.bytesLeft) := by
  induction n generalizing s exact mark? us with
  | zero => exact ⟨us, hi⟩
  | succ n ih =>
    obtain ⟨fs, hfs⟩ := decodes_next hs
    obtain ⟨mark', hnext⟩ := sited_next hs
    exact ih (s := s.next.dropReports) hnext.dropReports (hi.append hfs)

namespace Reader

/-- The crossings in `gaps` stand in the gaps before the lexemes up to the end of the input. -/
def HasGaps (r : Reader) (bytes : ByteArray) (gaps : List (List Crossing)) : Prop :=
  gaps.length = r.scans.length ∧
    ∀ n ps, gaps[n]? = some ps → ((Scanner.ofWindow (Buffer.ofReader r)).after n).Crosses r bytes ps

/-- What holds of all lexemes, and of all that is said about the scans, holds of what a run yields. -/
theorem lies_parseFile (r : Reader) {base : Base} {G : Pos → Prop} {D : Diagnostic → Prop}
    (hmarked : ∀ pos, Marked base r.scans pos → G pos) (hsaid : ∀ d, Parser.SaidOf base r.scans d → D d)
    (tolerant verbose : Bool) :
    let p := (Parser.start base r.scans tolerant verbose).parseFile
    Failure.Lies G D p.1 ∧ ∀ d ∈ p.2.diagnostics, D d := by
  have hne : r.scans ≠ [] := fun hnil => nomatch hnil ▸ r.complete_scans
  obtain ⟨scan, rest, hscans⟩ := List.exists_cons_of_ne_nil hne
  rw [hscans] at hmarked hsaid ⊢
  obtain ⟨hlies, hdiagnostics⟩ := Parser.lies_parseFile base scan rest tolerant verbose
  exact ⟨hlies.mono hmarked hsaid, fun d hd => hsaid d (hdiagnostics d hd)⟩

/-- A comment with nothing undecodable in it, or right behind it, ends with its last character and is read as
it is. -/
theorem HasGaps.exact {r : Reader} {bytes : ByteArray} {gaps : List (List Crossing)}
    (h : r.HasGaps bytes gaps) (hr : r.Hands bytes none) {p : Crossing} (hp : p ∈ gaps.flatten)
    (hmay : p.passage.mayDirect)
    (hall : ∀ x ∈ undecodable bytes, p.start ≤ x.1 → p.stop ≤ x.1) :
    p.stop = p.start + (p.passage.chars.map Char.utf8Size).sum ∧
      commentAt bytes (p.start, p.stop) = String.ofList p.passage.chars := by
  obtain ⟨fs, before, hsited, haccount, -⟩ := Scanner.opening hr
  obtain ⟨ps, hps, hp⟩ := List.mem_flatten.mp hp
  obtain ⟨n, hget⟩ := List.mem_iff_getElem?.mp hps
  obtain ⟨j, hcrossings, -⟩ := h.2 n ps hget
  obtain ⟨us, hus⟩ := Scanner.decodes_after hsited haccount.decodes n
  exact hcrossings.exact hus hp hmay hall

/-- If no newline stands behind two dots, all positions in the tree and in what is said carry the base that
the comments before them have set up. A comment with nothing undecodable in it, or right behind it, ends with
its last character and is read as it is. -/
theorem governed {r : Reader} {bytes : ByteArray} (hr : r.Hands bytes none)
    (hu : (Scanner.ofWindow (Buffer.ofReader r)).Unshifted r.scans.length) :
    ∃ gaps, r.HasGaps bytes gaps ∧
      (r.NoticesNuls bytes → ∀ p ∈ gaps.flatten, p.passage.mayDirect →
        (∀ x ∈ undecodable bytes, p.start ≤ x.1 → p.stop ≤ x.1) →
        p.stop = p.start + (p.passage.chars.map Char.utf8Size).sum ∧
          commentAt bytes (p.start, p.stop) = String.ofList p.passage.chars) ∧
      ∀ base tolerant verbose,
        let p := (Parser.start base r.scans tolerant verbose).parseFile
        Failure.Lies (Governed bytes (commentsIn gaps) base) (Regards bytes (commentsIn gaps) base) p.1 ∧
          ∀ d ∈ p.2.diagnostics, Regards bytes (commentsIn gaps) base d := by
  obtain ⟨fs, before, hsited, haccount, hreports, -, hplain⟩ := Scanner.opening hr
  obtain ⟨gaps, tolds, hlegs⟩ := Scanner.exists_legs hsited haccount hplain hreports
    fun _ : True => ⟨trivial, hu⟩
  have hgaps : r.HasGaps bytes gaps := ⟨hlegs.length_gaps, fun n ps => hlegs.crosses⟩
  refine ⟨gaps, hgaps, fun _ p hp hmay hall => hgaps.exact hr hp hmay hall, fun base tolerant verbose => ?_⟩
  -- The positions that the parser can take are those of its lexemes, and what it says is of such a position or
  -- was told.
  have hmarked (pos) (hpos : Marked base r.scans pos) : Governed bytes (commentsIn gaps) base pos :=
    hlegs.governed_of_marked hpos
  have hsaid (d) (hd : Parser.SaidOf base r.scans d) : Regards bytes (commentsIn gaps) base d :=
    hd.elim hlegs.regards_of_told fun hpos => .inl (hmarked _ hpos)
  exact r.lies_parseFile hmarked hsaid tolerant verbose

/-- A character that is rejected before a directive, and one right behind it. -/
theorem governed_comment :
    let bytes := "? /*line f:7:2*/?".toUTF8
    let r := ofBytes bytes
    let p := (Parser.start (.file "a") r.scans true false).parseFile
    r.Hands bytes none ∧ (Scanner.ofWindow (Buffer.ofReader r)).Unshifted r.scans.length ∧
      p.2.diagnostics.map Diagnostic.pos = [⟨.file "a", ⟨1, 1⟩⟩, ⟨⟨"f", ⟨1, 17⟩, 7, 2⟩, ⟨1, 17⟩⟩] ∧
      ∃ gaps, r.HasGaps bytes gaps ∧
        Failure.Lies (Governed bytes (commentsIn gaps) (.file "a"))
          (Regards bytes (commentsIn gaps) (.file "a")) p.1 ∧
        ∀ d ∈ p.2.diagnostics, Regards bytes (commentsIn gaps) (.file "a") d := by
  intro bytes r p
  have hr : r.Hands bytes none := (delivers_ofBytes bytes).hands
  have hu : (Scanner.ofWindow (Buffer.ofReader r)).Unshifted r.scans.length := by decide +kernel
  have hpos : p.2.diagnostics.map Diagnostic.pos =
      [⟨.file "a", ⟨1, 1⟩⟩, ⟨⟨"f", ⟨1, 17⟩, 7, 2⟩, ⟨1, 17⟩⟩] := by decide +kernel
  obtain ⟨gaps, hgaps, -, hall⟩ := governed hr hu
  exact ⟨hr, hu, hpos, gaps, hgaps, hall (.file "a") true false⟩

end Reader

end FrontEnd
