import FrontEnd.Proofs.Places.Yielded
import FrontEnd.Proofs.Whole.Log

/-!
# The order of diagnostics

Diagnostics are in the order of the source (`Reader.diagnostics_ordered`), with three exceptions (`MayLag`).
A complaint may look back. What is wrong with the number in a directive is said where the number stands in
the comment as it is read, which may be longer than it is. And what is wrong with a lexeme, or a comment
before it, may come after what is wrong inside it. But what cannot be decoded comes in order, whatever has
been said before.

What each scan tells is about bytes from where the one before has stopped up to where it stops itself
(`Legs.le_place`, `Legs.place_le`).
-/

namespace FrontEnd

/-- Whether the cause is something that cannot be decoded. -/
def Cause.isDecoding (cause : Cause) : Bool := cause.fault?.any LexFault.isDecoding

/-- A complaint is not about a byte that cannot be decoded. -/
theorem Cause.not_isDecoding {cause : Cause} (h : cause.complaint?.isSome) : ¬cause.isDecoding := by
  cases cause with
  | «syntactic» => exact Bool.false_ne_true
  | lexical | badLine | badColumn => cases h

/-- The second of two diagnostics, each with its scan, may be about an earlier place than the first. -/
def MayLag (x y : Nat × Diagnostic) : Prop :=
  y.2.cause.looksBack ∨ x.2.cause.ofDirective ∨
    x.1 = y.1 ∧ x.2.cause.fault?.isSome ∧ ¬y.2.cause.isDecoding

/-- What is said about a report is about where that is told of, or behind it in a comment. -/
theorem Remark.place_of_diagnostic? {bytes : ByteArray} {x : Remark} {base : Base} {d : Diagnostic}
    (hx : x.place = .ofOffset bytes x.offset) (hd : (x.report bytes).diagnostic? base = some d) :
    .ofOffset bytes x.offset ≤ d.pos.place ∧
      (¬d.cause.ofDirective → d.pos.place = .ofOffset bytes x.offset) := by
  rw [← hx]
  cases x with
  | error =>
    cases hd
    exact ⟨Place.le_refl _, fun _ => rfl⟩
  | directive start stop place =>
    obtain ⟨hdirective, offset, hpos⟩ := LineDirective.rejection?_eq_some hd
    refine ⟨?_, fun hc => absurd hdirective hc⟩
    rw [hpos]
    exact .inr ⟨rfl, Nat.le_trans (Nat.le_add_right place.column (2 + "line ".length)) (Nat.le_add_right ..)⟩

/-- What cannot be decoded is told of as such. -/
theorem Remark.isSome_decoding? {bytes : ByteArray} {x : Remark} {base : Base} {d : Diagnostic}
    (hd : (x.report bytes).diagnostic? base = some d) (hc : d.cause.isDecoding) : x.decoding?.isSome := by
  cases x with
  | error offset e =>
    cases hd
    have hfault : (Remark.error offset e).decoding? = some (offset, e.fault) := if_pos hc
    rw [hfault]
    rfl
  | directive =>
    have hnone := Cause.fault?_eq_none (LineDirective.rejection?_eq_some hd).1
    rw [Cause.isDecoding, hnone] at hc
    cases hc

/-- What is said about some reports is said about something that is told of. -/
theorem Told.exists_remark {bytes : ByteArray} {base : Base} {told : List Remark} {d : Diagnostic}
    (h : Told base (told.map (Remark.report bytes)) d) :
    ∃ x ∈ told, ∃ base', (x.report bytes).diagnostic? base' = some d := by
  obtain ⟨before, report, behind, he, hd⟩ := h
  have hreport : report ∈ told.map (Remark.report bytes) := he ▸ List.mem_append_right _ List.mem_cons_self
  obtain ⟨x, hx, rfl⟩ := List.mem_map.mp hreport
  exact ⟨x, hx, _, hd⟩

/-- What is told of things one after another, is said one after another. -/
theorem pairwise_diagnosticsOf {bytes : ByteArray} {base : Base} {told : List Remark}
    {R : Diagnostic → Diagnostic → Prop}
    (h : told.Pairwise fun x y => ∀ b b' d d', (x.report bytes).diagnostic? b = some d →
      (y.report bytes).diagnostic? b' = some d' → R d d') :
    (diagnosticsOf base (told.map (Remark.report bytes))).Pairwise R := by
  induction h generalizing base with
  | nil => exact .nil
  | @cons x told hx _ ih =>
    refine List.pairwise_append.mpr ⟨?_, ih, fun d hd d' hd' => ?_⟩
    · cases (x.report bytes).diagnostic? base with
      | none => exact .nil
      | some => exact List.pairwise_singleton ..
    · obtain ⟨y, hy, b', hd'⟩ := (told_of_mem hd').exists_remark
      exact hx y hy _ b' d d' (Option.mem_toList.mp hd) hd'

namespace Scanner.Legs

variable {r : Reader} {bytes : ByteArray} {i k : Nat} {s : Scanner Buffer} {scan : Scan} {scans : List Scan}
  {gaps : List (List Crossing)} {tolds : List (List Remark)} {base : Base} {d : Diagnostic}

/-- Lexemes start one after another. -/
theorem start_mono (h : Legs r bytes True i s scans gaps tolds) {m : Nat} (hm : m ≤ k)
    (hk : scans[k]? = some scan) :
    (s.after m).start.offset r.bytesLeft ≤ (s.after k).start.offset r.bytesLeft := by
  rcases Nat.lt_or_eq_of_le hm with hlt | rfl
  · obtain ⟨o, ps, told, hleg, -, -, hearlier⟩ := h.exists_leg hk
    obtain ⟨hlen, -⟩ := List.getElem?_eq_some_iff.mp hk
    obtain ⟨o', ps', told', hleg', -⟩ := h.exists_leg (List.getElem?_eq_getElem (Nat.lt_trans hlt hlen))
    exact Nat.le_trans hleg'.start_le (Nat.le_trans (hearlier m hlt) hleg.le_start)
  · exact Nat.le_refl _

/-- Lexemes up to one are not at a later place than that. -/
theorem place_le_of_markedUpTo (h : Legs r bytes True i s scans gaps tolds) {pos : Pos}
    (hk : scans[k]? = some scan) (hpos : MarkedUpTo base scans k pos) : pos.place ≤ scan.lexeme.place := by
  obtain ⟨m, hm, scan', hscan, rfl⟩ := hpos
  rw [h.place_eq trivial hk]
  change scan'.lexeme.place ≤ _
  rw [h.place_eq trivial hscan]
  exact Place.ofOffset_le (h.start_mono hm hk) (h.start_le_size hk)

/-- What is said at a scan without looking back, is about nothing before where the scan starts. -/
theorem le_place (h : Legs r bytes True i s scans gaps tolds) (hd : SaidAt base scans k d)
    (hback : ¬d.cause.looksBack) {j : Nat} (hj : j < k) :
    Place.ofOffset bytes ((s.after j).next.stream.offset r.bytesLeft) ≤ d.pos.place := by
  cases hd with
  | report hk htold =>
    obtain ⟨o, ps, told, hleg, hreports, -, hearlier⟩ := h.exists_leg hk
    obtain ⟨x, hx, base', hdiagnostic⟩ := (hreports ▸ htold).exists_remark
    have hbounds := hleg.bounds x hx
    exact Place.le_trans (Place.ofOffset_le (Nat.le_trans (hearlier j hj) hbounds.1) hbounds.2)
      (Remark.place_of_diagnostic? (hleg.located trivial x hx) hdiagnostic).1
  | here hk _ hpos =>
    obtain ⟨o, ps, told, hleg, -, -, hearlier⟩ := h.exists_leg hk
    rw [hpos]
    change _ ≤ Lexeme.place _
    rw [h.place_eq trivial hk]
    exact Place.ofOffset_le (Nat.le_trans (hearlier j hj) hleg.le_start) (h.start_le_size hk)
  | back _ hc => exact absurd hc hback

/-- What is said at a scan about anything but a directive, is about nothing behind where the scan stops. -/
theorem place_le (h : Legs r bytes True i s scans gaps tolds) (hu : s.Undoubled r scans.length)
    (hd : SaidAt base scans k d) (hdirective : ¬d.cause.ofDirective) :
    d.pos.place ≤ .ofOffset bytes ((s.after k).next.stream.offset r.bytesLeft) := by
  have hlexeme {scan : Scan} (hk : scans[k]? = some scan) :
      scan.lexeme.place ≤ .ofOffset bytes ((s.after k).next.stream.offset r.bytesLeft) := by
    obtain ⟨o, ps, told, hleg, -⟩ := h.exists_leg hk
    rw [h.place_eq trivial hk]
    exact Place.ofOffset_le hleg.start_le hleg.next_le
  cases hd with
  | report hk htold =>
    obtain ⟨o, ps, told, hleg, hreports, -, -⟩ := h.exists_leg hk
    obtain ⟨x, hx, base', hdiagnostic⟩ := (hreports ▸ htold).exists_remark
    obtain ⟨hlt, -⟩ := List.getElem?_eq_some_iff.mp hk
    rw [(Remark.place_of_diagnostic? (hleg.located trivial x hx) hdiagnostic).2 hdirective]
    exact Place.ofOffset_le ((hleg.ascending (hu k hlt)).1 x hx) hleg.next_le
  | here hk _ hpos =>
    rw [hpos]
    exact hlexeme hk
  | back hk _ hpos => exact Place.le_trans (h.place_le_of_markedUpTo hk hpos) (hlexeme hk)

/-- Of two complaints at one scan, the second is about no earlier place, unless it looks back. -/
theorem place_le_of_complaints (h : Legs r bytes True i s scans gaps tolds) {d' : Diagnostic}
    (hd : SaidAt base scans k d) (hc : d.cause.complaint?.isSome) (hd' : SaidAt base scans k d')
    (hc' : d'.cause.complaint?.isSome) (hback : ¬d'.cause.looksBack) : d.pos.place ≤ d'.pos.place := by
  cases hd' with
  | report _ htold =>
    rw [htold.complaint?_eq_none] at hc'
    cases hc'
  | back _ hlooks => exact absurd hlooks hback
  | here hk' _ hpos' =>
    rw [hpos']
    cases hd with
    | report _ htold =>
      rw [htold.complaint?_eq_none] at hc
      cases hc
    | here hk _ hpos =>
      obtain rfl : _ = _ := Option.some.inj (hk.symm.trans hk')
      exact le_of_eq (congrArg Pos.place hpos)
    | back _ _ hpos => exact h.place_le_of_markedUpTo hk' hpos

/-- Of what is said about the reports of one scan, nothing that cannot be decoded is about an earlier place
than what has been said before, but for directives. -/
theorem place_le_of_sublist (h : Legs r bytes True i s scans gaps tolds) (hu : s.Undoubled r scans.length)
    {d' : Diagnostic} {b : Base} (hk : scans[k]? = some scan)
    (hpair : [d, d'].Sublist (diagnosticsOf b scan.reports)) (hdirective : ¬d.cause.ofDirective)
    (hdecoding : d'.cause.isDecoding) : d.pos.place ≤ d'.pos.place := by
  obtain ⟨o, ps, told, hleg, hreports, -⟩ := h.exists_leg hk
  obtain ⟨hlt, -⟩ := List.getElem?_eq_some_iff.mp hk
  rw [hreports] at hpair
  refine List.pairwise_iff_forall_sublist.mp (pairwise_diagnosticsOf (R := fun d d' =>
    ¬d.cause.ofDirective → d'.cause.isDecoding → d.pos.place ≤ d'.pos.place) ?_) hpair hdirective hdecoding
  refine (hleg.ascending (hu k hlt)).2.imp_of_mem fun {x y} hx hy hxy b b' d d' hd hd' hdirective hdecoding => ?_
  rw [(Remark.place_of_diagnostic? (hleg.located trivial x hx) hd).2 hdirective]
  exact Place.le_trans (Place.ofOffset_le (hxy (Remark.isSome_decoding? hd' hdecoding)) (hleg.bounds y hy).2)
    (Remark.place_of_diagnostic? (hleg.located trivial y hy) hd').1

/-- Of two diagnostics that are said in turn, the second is about no earlier place, or may lag. -/
theorem place_le_of_inTurn (h : Legs r bytes True i s scans gaps tolds) (hu : s.Undoubled r scans.length)
    {x y : Nat × Diagnostic} (hx : SaidAt base scans x.1 x.2) (hy : SaidAt base scans y.1 y.2)
    (hturn : Parser.InTurn base scans x y) : x.2.pos.place ≤ y.2.pos.place ∨ MayLag x y := by
  -- The two kinds that may be late are set aside first; the rest is in the order of the scans, then in the
  -- order inside one scan.
  by_cases hback : y.2.cause.looksBack
  · exact .inr (.inl hback)
  by_cases hdirective : x.2.cause.ofDirective
  · exact .inr (.inr (.inl hdirective))
  rcases hturn with hlt | ⟨heq, hsame⟩
  · exact .inl (Place.le_trans (h.place_le hu hx hdirective) (h.le_place hy hback hlt))
  · rcases hsame with hcomplaint | ⟨scan, hk, hpair⟩
    · cases hcause : x.2.cause with
      | lexical => exact .inr (.inr (.inr ⟨heq, by rw [hcause]; rfl, Cause.not_isDecoding hcomplaint⟩))
      | badLine | badColumn => exact absurd (by rw [hcause]; rfl) hdirective
      | «syntactic» =>
        have hc : x.2.cause.complaint?.isSome := by rw [hcause]; rfl
        exact .inl (h.place_le_of_complaints hx hc (heq ▸ hy) hcomplaint hback)
    · by_cases hdecoding : y.2.cause.isDecoding
      · exact .inl (h.place_le_of_sublist hu hk hpair hdirective hdecoding)
      · -- A report of the scan itself is no complaint of the parser.
        have htold := told_of_mem (hpair.subset List.mem_cons_self)
        refine .inr (.inr (.inr ⟨heq, ?_, hdecoding⟩))
        cases hcause : x.2.cause with
        | lexical => rfl
        | badLine | badColumn => exact absurd (by rw [hcause]; rfl) hdirective
        | «syntactic» =>
          have hnone := htold.complaint?_eq_none
          rw [hcause] at hnone
          cases hnone

end Scanner.Legs

namespace Reader

/-- Every diagnostic of a run is said at some scan, and at none before that of an earlier one. It is about no
earlier place either, unless it may lag behind, if no newline stands behind two dots and nothing around the
second of them. As a number in a directive may be said to stand behind a comment three times as long, all
these places fit if 32 bits can count three times the bytes of the reader, and one more. -/
theorem diagnostics_ordered {r : Reader} {bytes : ByteArray} (hr : r.Hands bytes none)
    (hsize : 3 * r.bytesLeft + 1 < UInt32.size)
    (hshift : (Scanner.ofWindow (Buffer.ofReader r)).Unshifted r.scans.length)
    (hdouble : (Scanner.ofWindow (Buffer.ofReader r)).Undoubled r r.scans.length)
    (base : Base) (tolerant verbose : Bool) :
    ∃ log : List (Nat × Diagnostic),
      log.map Prod.snd = (Parser.start base r.scans tolerant verbose).parseFile.2.diagnostics ∧
      (∀ x ∈ log, SaidAt base r.scans x.1 x.2 ∧ x.2.pos.place.Fits) ∧
      log.Pairwise fun x y => x.1 ≤ y.1 ∧ (x.2.pos.place ≤ y.2.pos.place ∨ MayLag x y) := by
  obtain ⟨fs, before, hsited, haccount, hreports, -, hplain⟩ := Scanner.opening hr
  obtain ⟨gaps, tolds, hlegs⟩ := Scanner.exists_legs hsited haccount hplain hreports
    fun _ : True => ⟨trivial, hshift⟩
  have hne : r.scans ≠ [] := fun hnil => nomatch hnil ▸ r.complete_scans
  obtain ⟨scan, rest, hscans⟩ := List.exists_cons_of_ne_nil hne
  obtain ⟨log, hlog, hsaid, hturn⟩ := Parser.exists_log base scan rest tolerant verbose
  rw [← hscans] at hlog hsaid hturn
  -- The log pairs each diagnostic with its scan; turns that follow one another are ordered unless one may lag.
  refine ⟨log, hlog, fun x hx => ⟨hsaid x hx, ?_⟩, hturn.imp_of_mem fun {x y} hx hy hxy => ⟨?_, ?_⟩⟩
  · refine ((r.upTo_parseFile base tolerant verbose).2 x.2 ?_).fits hsize
    exact hlog ▸ List.mem_map_of_mem hx
  · exact hxy.elim Nat.le_of_lt fun h => Nat.le_of_eq h.1
  · exact hlegs.place_le_of_inTurn hdouble (hsaid x hx) (hsaid y hy) hxy

/-- A string without an end, and in it an escape that there is not. -/
theorem diagnostics_ordered_escape :
    let bytes := "module m\nvar x = \"\\q\n".toUTF8
    let r := ofBytes bytes
    r.Hands bytes none ∧ 3 * r.bytesLeft + 1 < UInt32.size ∧
      (Scanner.ofWindow (Buffer.ofReader r)).Unshifted r.scans.length ∧
      (Scanner.ofWindow (Buffer.ofReader r)).Undoubled r r.scans.length ∧
      (Parser.start (.file "a") r.scans true false).parseFile.2.diagnostics.map (·.pos.place) =
        [⟨2, 11⟩, ⟨2, 9⟩] ∧
      ∃ log : List (Nat × Diagnostic),
        log.map Prod.snd = (Parser.start (.file "a") r.scans true false).parseFile.2.diagnostics ∧
        (∀ x ∈ log, SaidAt (.file "a") r.scans x.1 x.2 ∧ x.2.pos.place.Fits) ∧
        log.Pairwise fun x y => x.1 ≤ y.1 ∧ (x.2.pos.place ≤ y.2.pos.place ∨ MayLag x y) := by
  intro bytes r
  have hr : r.Hands bytes none := (delivers_ofBytes bytes).hands
  have hsize : 3 * r.bytesLeft + 1 < UInt32.size := by decide +kernel
  have hshift : (Scanner.ofWindow (Buffer.ofReader r)).Unshifted r.scans.length := by decide +kernel
  have hdouble : (Scanner.ofWindow (Buffer.ofReader r)).Undoubled r r.scans.length := by decide +kernel
  -- The fault in the escape is told before that of the string, which is placed at the string's start.
  have hplaces : (Parser.start (.file "a") r.scans true false).parseFile.2.diagnostics.map (·.pos.place) =
      [⟨2, 11⟩, ⟨2, 9⟩] := by decide +kernel
  exact ⟨hr, hsize, hshift, hdouble, hplaces,
    diagnostics_ordered hr hsize hshift hdouble (.file "a") true false⟩

end Reader

end FrontEnd
