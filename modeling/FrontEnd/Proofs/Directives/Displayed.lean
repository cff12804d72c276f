import FrontEnd.Proofs.Directives.Effect
import FrontEnd.Proofs.Directives.Written

/-!
# Positions are displayed as directives say

Where a directive is in effect, positions are displayed as it says (`Reader.shown_as_directed`). One in a line
comment speaks of the lines below it, and one in a block comment of what comes right behind it, whatever has
been read before and whichever base has been in effect. Since positions are displayed like directives are
written, the first position behind a block comment is displayed as the comment says, character by character.
-/

namespace FrontEnd

namespace LineDirective

open CharStream (directiveWord)

variable {d : LineDirective} {place anchor : Place} {pos : Pos} {base : Base}

/-- Below a line comment at `place`, the position is displayed as the directive in it says. -/
def ShowsBelow (d : LineDirective) (place : Place) (pos : Pos) : Prop :=
  place.line < pos.place.line → pos.display = (d.belowLine place.line pos.place).text

/-- From `stop` on, the position is displayed as the directive in the block comment before it says. -/
def ShowsBehind (d : LineDirective) (stop : Place) (pos : Pos) : Prop :=
  stop ≤ pos.place → pos.display = (d.behindBlock stop pos.place).text

/-- A candidate that says what is written sets up the base of the directive. -/
theorem follow_written (h : d.Proper) {comment : String}
    (hcandidate : candidate? place comment = some ⟨anchor, d.written⟩) (base : Base) :
    follow place comment base = d.toBase anchor base := by
  unfold follow
  rw [hcandidate]
  dsimp only
  rw [read_written h]

/-- The comment with the directive may be one. -/
theorem mayDirect_lineComment (cs : List Char) : (Passage.lineComment (directiveWord ++ cs)).mayDirect :=
  List.isPrefixOf_iff_prefix.mpr (List.prefix_append ..)

/-- A block comment with the word may be a directive. -/
theorem mayDirect_blockComment (cs : List Char) : (Passage.blockComment (directiveWord ++ cs)).mayDirect :=
  List.isPrefixOf_iff_prefix.mpr (List.prefix_append ..)

end LineDirective

namespace Reader

open CharStream (directiveWord)
open LineDirective (lineEndings)

variable {r : Reader} {bytes : ByteArray} {gaps : List (List Crossing)} {told : List Remark} {p : Crossing}

/-- Whatever a run against `base` yields, a tree or not, and all that is said has positions of this kind. -/
def Everywhere (r : Reader) (base : Base) (P : Pos → Prop) : Prop :=
  ∀ tolerant verbose,
    let run := (Parser.start base r.scans tolerant verbose).parseFile
    Failure.Lies P (fun d => P d.pos) run.1 ∧ ∀ d ∈ run.2.diagnostics, P d.pos

/-- All positions are about something that is told of, or about lexemes, and have what comes with that. -/
theorem Tells.everywhere (h : r.Tells bytes gaps told) {base : Base} {P : Pos → Nat → Prop}
    (hP : ∀ pos o, r.IsAbout bytes told base pos o → P pos o) :
    r.Everywhere base fun pos => (∃ o, r.IsAbout bytes told base pos o) ∧
      ∀ o, r.IsAbout bytes told base pos o → P pos o :=
  r.lies_parseFile (fun pos hpos => ⟨exists_isAbout_of_marked hpos, hP pos⟩)
    fun d hd => ⟨exists_isAbout_of_saidOf h.reports_eq hd, hP d.pos⟩

/-- A comment that may be a directive is told of. -/
theorem Tells.exists_directive (h : r.Tells bytes gaps told) (hp : p ∈ gaps.flatten)
    (hmay : p.passage.mayDirect) : ∃ place, .directive p.start p.stop place ∈ told := by
  have hspan : (p.start, p.stop) ∈ commentsIn gaps := List.mem_filterMap.mpr ⟨p, hp, if_pos hmay⟩
  rw [← h.spans_eq] at hspan
  obtain ⟨x, hx, hspan⟩ := List.mem_filterMap.mp hspan
  cases x with
  | error => cases hspan
  | directive start stop place =>
    cases hspan
    exact ⟨place, hx⟩

/-- A crossing without a newline ends on its line, as many columns further on as it has bytes. -/
theorem HasGaps.ofOffset_stop (h : r.HasGaps bytes gaps) (hp : p ∈ gaps.flatten)
    (hline : '\n' ∉ p.passage.chars) : Place.ofOffset bytes p.stop = ⟨(Place.ofOffset bytes p.start).line,
      (Place.ofOffset bytes p.start).column + (p.stop - p.start)⟩ := by
  obtain ⟨ps, hps, hp⟩ := List.mem_flatten.mp hp
  obtain ⟨n, hget⟩ := List.mem_iff_getElem?.mp hps
  obtain ⟨j, hcrossings, -⟩ := h.2 n ps hget
  obtain ⟨fs, hdecodes, hheard⟩ := hcrossings.decodes_of_mem hp
  obtain ⟨k, hk⟩ := Nat.exists_eq_add_of_le hdecodes.le
  have hsame : SameLine bytes p.start (p.start + k) := hk ▸ hdecodes.sameLine (hheard ▸ hline)
  have hsize := hdecodes.le_size
  rw [hk] at hsize ⊢
  rw [Place.ofOffset_of_sameLine hsame hsize, Nat.add_sub_cancel_left]

/-- Where there are few enough bytes, a number that a directive names can be added to any place. -/
theorem IsAbout.inReach {pos : Pos} {base : Base} {o : Nat} (h : r.IsAbout bytes told base pos o)
    (hreports : r.scans.flatMap Scan.reports = told.map (Remark.report bytes))
    (hsize : 3 * r.bytesLeft + Base.largestNumber + 1 < UInt32.size) : LineDirective.InReach pos.place := by
  have hline := (h.upTo hreports).line_le
  have hcolumn := (h.upTo hreports).column_le
  exact ⟨by omega, by omega⟩

/-- A displayed position is a directive for what it shows. And where a directive is in effect, positions are
displayed as it says. A line comment has it for the lines below it, if it starts its line, and a block comment
for what comes right behind it. What stands in the comment is read as it is, if everything in it, and right
behind it, can be decoded. The numbers that are displayed are sums in 32 bits. They do not start over if there
are few enough bytes: a number in a directive may be said to stand in a column up to three times as far, and
the largest number that a directive may name may be added to that. -/
theorem shown_as_directed {r : Reader} {bytes : ByteArray} (hr : r.Hands bytes none)
    (hsize : 3 * r.bytesLeft + Base.largestNumber + 1 < UInt32.size) :
    (∀ pos : Pos, pos.shown.Proper → LineDirective.read pos.display.toList = .accepted pos.shown) ∧
    ∃ gaps told, r.Tells bytes gaps told ∧
      ∀ p ∈ gaps.flatten, (∀ x ∈ undecodable bytes, p.start ≤ x.1 → p.stop ≤ x.1) →
        ∀ d : LineDirective, d.Proper →
          (∀ ending ∈ lineEndings, p.passage = .lineComment (directiveWord ++ (d.written ++ ending)) →
            ∃ place, .directive p.start p.stop place ∈ told ∧
              (place.column = 1 → ∀ base, r.Everywhere base fun pos =>
                (∃ o, r.IsAbout bytes told base pos o) ∧ ∀ o, r.IsAbout bytes told base pos o →
                  InEffect bytes told p.stop o → d.ShowsBelow place pos)) ∧
          ('\n' ∉ d.filename.toList → p.passage = .blockComment (directiveWord ++ d.written) →
            ∃ place, .directive p.start p.stop place ∈ told ∧
              let stop : Place := ⟨place.line, place.column + (p.stop - p.start)⟩
              (place = .ofOffset bytes p.start → stop = .ofOffset bytes p.stop) ∧
                ∀ base, r.Everywhere base fun pos =>
                  (∃ o, r.IsAbout bytes told base pos o) ∧ ∀ o, r.IsAbout bytes told base pos o →
                    InEffect bytes told p.stop o → d.ShowsBehind stop pos) := by
  obtain ⟨fs, before, hsited, haccount, hreports, -, hplain⟩ := Scanner.opening hr
  -- The remarks of the whole run in order, from which both forms read off what their comment directs.
  obtain ⟨gaps, tolds, hlegs⟩ := Scanner.exists_legs hsited haccount hplain hreports
    fun hu : (Scanner.ofWindow (Buffer.ofReader r)).Unshifted r.scans.length => ⟨trivial, hu⟩
  have htells : r.Tells bytes gaps tolds.flatten :=
    ⟨⟨hlegs.length_gaps, fun n ps => hlegs.crosses⟩, hlegs.reports_eq, hlegs.spans_eq, hlegs.ordered,
      hlegs.located⟩
  refine ⟨fun pos => Pos.read_display, gaps, tolds.flatten, htells, fun p hp hall d hd => ?_⟩
  refine ⟨fun ending hending hpassage => ?_, fun hline hpassage => ?_⟩
  · -- The form on a line of its own takes effect from the next line on.
    have hmay : p.passage.mayDirect := hpassage ▸ LineDirective.mayDirect_lineComment _
    obtain ⟨place, hmem⟩ := htells.exists_directive hp hmay
    obtain ⟨-, htext⟩ := htells.hasGaps.exact hr hp hmay hall
    refine ⟨place, hmem, fun hplace base => htells.everywhere fun pos o hpos heffect hbelow => ?_⟩
    obtain ⟨current, hbase⟩ := hlegs.follow_of_inEffect hmem hpos heffect
    rw [htext, hpassage, Passage.chars,
      LineDirective.follow_written hd (LineDirective.candidate?_lineWritten hplace hending)] at hbase
    exact LineDirective.display_belowLine hd hbase hbelow (hpos.upTo htells.reports_eq).column_pos
      (hpos.inReach htells.reports_eq hsize)
  · -- The inline form takes effect right behind `*/`, so the length of the comment enters.
    have hmay : p.passage.mayDirect := hpassage ▸ LineDirective.mayDirect_blockComment _
    obtain ⟨place, hmem⟩ := htells.exists_directive hp hmay
    obtain ⟨hstop, htext⟩ := htells.hasGaps.exact hr hp hmay hall
    refine ⟨place, hmem, fun hplace => ?_, fun base => htells.everywhere fun pos o hpos heffect hbehind => ?_⟩
    · have hinline : '\n' ∉ p.passage.chars := by
        have hwritten := LineDirective.newline_not_mem_written hline
        rw [hpassage, Passage.chars]
        simpa using hwritten
      rw [hplace, htells.hasGaps.ofOffset_stop hp hinline]
    · obtain ⟨current, hbase⟩ := hlegs.follow_of_inEffect hmem hpos heffect
      have hlength : (String.ofList p.passage.chars).utf8ByteSize = p.stop - p.start := by
        rw [utf8ByteSize_eq_sum, hstop, Nat.add_sub_cancel_left]
      have hcandidate := LineDirective.candidate?_blockWritten hline place
      rw [hpassage, Passage.chars] at htext hlength
      rw [htext, LineDirective.follow_written hd hcandidate, hlength] at hbase
      exact LineDirective.display_behindBlock hd hbase hbehind (hpos.upTo htells.reports_eq).column_pos
        (hpos.inReach htells.reports_eq hsize)

/-- A directive in a line comment, for characters that are rejected on the next line and on the one after. -/
theorem shown_as_directed_comment :
    let bytes := "?\n//line f:7:2\n ?\n ?".toUTF8
    let r := ofBytes bytes
    let d : LineDirective := ⟨"f", 7, some 2⟩
    r.Hands bytes none ∧ 3 * r.bytesLeft + Base.largestNumber + 1 < UInt32.size ∧
      (Parser.start (.file "a") r.scans true false).parseFile.2.diagnostics.map (·.pos.display) =
        ["a:1:1", "f:7:3", "f:8:2"] ∧
      ∃ gaps told, r.Tells bytes gaps told ∧
        ∀ p ∈ gaps.flatten, p.passage = .lineComment "line f:7:2".toList →
          ∃ place, .directive p.start p.stop place ∈ told ∧
            (place.column = 1 → r.Everywhere (.file "a") fun pos =>
              (∃ o, r.IsAbout bytes told (.file "a") pos o) ∧ ∀ o, r.IsAbout bytes told (.file "a") pos o →
                InEffect bytes told p.stop o → d.ShowsBelow place pos) := by
  intro bytes r d
  have hr : r.Hands bytes none := (delivers_ofBytes bytes).hands
  have hsize : 3 * r.bytesLeft + Base.largestNumber + 1 < UInt32.size := by decide +kernel
  have hdisplay : (Parser.start (.file "a") r.scans true false).parseFile.2.diagnostics.map (·.pos.display) =
      ["a:1:1", "f:7:3", "f:8:2"] := by decide +kernel
  have hd : d.Proper := ⟨by decide, rfl, fun c hc => Option.some.inj hc ▸ rfl, nofun⟩
  have hnone : undecodable bytes = [] := by decide +kernel
  -- The comment asked about is written as `d` is, with nothing behind it.
  have htext : "line f:7:2".toList = directiveWord ++ (d.written ++ []) := by decide
  obtain ⟨-, gaps, told, htells, hall⟩ := shown_as_directed hr hsize
  refine ⟨hr, hsize, hdisplay, gaps, told, htells, fun p hp hpassage => ?_⟩
  have hclean : ∀ x ∈ undecodable bytes, p.start ≤ x.1 → p.stop ≤ x.1 := hnone ▸ nofun
  obtain ⟨place, hmem, hshown⟩ := (hall p hp hclean d hd).1 [] List.mem_cons_self (htext ▸ hpassage)
  exact ⟨place, hmem, fun hplace => hshown hplace (.file "a")⟩

end Reader

end FrontEnd
