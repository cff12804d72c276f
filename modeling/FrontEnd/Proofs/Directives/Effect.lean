import FrontEnd.Proofs.Places.Yielded
import FrontEnd.Proofs.Reworded.Scans
import FrontEnd.Proofs.Whole.Relayed

/-!
# Directives in effect

All that a reader's bytes give rise to is told of at the offsets where it stands (`Reader.Tells`), and every
position is about one of these offsets, or about that of a lexeme (`Reader.IsAbout`). A directive is in effect
at an offset if it ends before it and no other directive between the two sets up a base (`InEffect`). Then it
is its base that the position carries (`Legs.follow_of_inEffect`). This holds wherever a newline stands, also
behind two dots, since it is about offsets, and not about places.
-/

namespace FrontEnd

/-- All that is told of is `told`, in order, and the comments among it are those in the gaps before the
lexemes. The places are right, unless a newline stands behind two dots. -/
structure Reader.Tells (r : Reader) (bytes : ByteArray) (gaps : List (List Crossing)) (told : List Remark) :
    Prop where
  hasGaps : r.HasGaps bytes gaps
  reports_eq : r.scans.flatMap Scan.reports = told.map (Remark.report bytes)
  spans_eq : told.filterMap Remark.span? = commentsIn gaps
  ordered : told.Pairwise Remark.Precedes
  located : (Scanner.ofWindow (Buffer.ofReader r)).Unshifted r.scans.length →
    ∀ x ∈ told, x.place = .ofOffset bytes x.offset

/-- The position is about what stands at the offset, a lexeme or something that is told of. It carries the
base that is set up by the time that this is heard of. -/
inductive Reader.IsAbout (r : Reader) (bytes : ByteArray) (told : List Remark) (base : Base) :
    Pos → Nat → Prop
  | lexeme {k scan} : r.scans[k]? = some scan →
      IsAbout r bytes told base ⟨baseUpTo base r.scans (k + 1), scan.lexeme.place⟩
        (((Scanner.ofWindow (Buffer.ofReader r)).after k).start.offset r.bytesLeft)
  | remark {before x behind d} : told = before ++ x :: behind →
      (x.report bytes).diagnostic? (rebased base (before.map (Remark.report bytes))) = some d →
      IsAbout r bytes told base d.pos x.offset

/-- What has been told of up to `stop` is in effect at offset `o`: no directive between the two sets up a
base. -/
def InEffect (bytes : ByteArray) (told : List Remark) (stop o : Nat) : Prop :=
  stop ≤ o ∧ ∀ x ∈ told, ∀ span, x.span? = some span → stop < span.2 → span.2 ≤ o →
    (x.report bytes).setsUpBase = false

variable {r : Reader} {bytes : ByteArray} {base : Base} {told : List Remark} {pos : Pos} {o : Nat}

/-! ## Bases -/

/-- What sets up no base leaves the base as it is. -/
theorem Report.rebase_eq_self {report : Report} (h : report.setsUpBase = false) (base : Base) :
    report.rebase base = base := by
  cases report with
  | error => rfl
  | directive place comment =>
    unfold setsUpBase at h
    unfold rebase LineDirective.follow
    dsimp only at h ⊢
    cases hcandidate : LineDirective.candidate? place comment with
    | none => rfl
    | some candidate =>
      rw [hcandidate] at h
      dsimp only at h ⊢
      cases hread : LineDirective.read candidate.text with
      | accepted =>
        rw [hread] at h
        cases h
      | unrelated | rejected => rfl

/-- Reports that set up no base leave the one in effect. -/
theorem rebased_eq_self {reports : List Report} (h : ∀ report ∈ reports, report.setsUpBase = false)
    (base : Base) : rebased base reports = base := by
  induction reports with
  | nil => rfl
  | cons report reports ih =>
    obtain ⟨hreport, hreports⟩ := List.forall_mem_cons.mp h
    change rebased (report.rebase base) reports = base
    rw [Report.rebase_eq_self hreport, ih hreports]

/-- What is no directive sets up no base. -/
theorem Remark.setsUpBase_of_isInert {x : Remark} {span : Nat × Nat} (hspan : x.span? = some span)
    (h : IsInert bytes span) : (x.report bytes).setsUpBase = false := by
  cases x with
  | error => rfl
  | directive start stop place =>
    cases hspan
    have hnone := h place
    dsimp only at hnone
    unfold report Report.setsUpBase
    dsimp only
    rw [hnone]

/-- What is said about a report carries the base that the report is heard at. -/
theorem Report.base_of_diagnostic? {report : Report} {d : Diagnostic} (h : report.diagnostic? base = some d) :
    d.pos.base = base := by
  cases report with
  | error =>
    cases h
    rfl
  | directive =>
    obtain ⟨-, offset, hpos⟩ := LineDirective.rejection?_eq_some h
    rw [hpos]

/-- A directive in effect at an offset has set up the base there, if what has been heard is what ends by
then. -/
theorem exists_follow_of_inEffect {heard rest : List Remark}
    (hordered : (heard ++ rest).Pairwise Remark.Precedes) (hopens : ∀ x ∈ heard ++ rest, x.Opens bytes)
    (hheard : ∀ x ∈ heard, ∀ span, x.span? = some span → span.2 ≤ o ∨ IsInert bytes span)
    (hrest : ∀ x ∈ rest, ∀ span, x.span? = some span → o < span.2) {start stop : Nat} {place : Place}
    (hmem : .directive start stop place ∈ heard ++ rest) (heffect : InEffect bytes (heard ++ rest) stop o) :
    ∃ current, rebased base (heard.map (Remark.report bytes)) =
      LineDirective.follow place (commentAt bytes (start, stop)) current := by
  obtain ⟨hle, hquiet⟩ := heffect
  have hmem : .directive start stop place ∈ heard :=
    (List.mem_append.mp hmem).resolve_right fun hlate => Nat.not_lt_of_le hle (hrest _ hlate _ rfl)
  obtain ⟨before, between, rfl⟩ := List.append_of_mem hmem
  -- What is told of in between ends between the directive and the offset, so it sets up no base.
  have hbetween : ∀ x ∈ between, (x.report bytes).setsUpBase = false := by
    intro x hx
    have hx' : x ∈ before ++ .directive start stop place :: between :=
      List.mem_append_right _ (List.mem_cons_of_mem _ hx)
    cases hspan : x.span? with
    | none =>
      cases x with
      | error => rfl
      | directive => cases hspan
    | some span =>
      have hprecedes : stop ≤ x.offset :=
        (List.pairwise_cons.mp (List.pairwise_append.mp (List.pairwise_append.mp hordered).1).2.1).1 x hx
      have hlt := (hopens x (List.mem_append_left _ hx')).offset_lt hspan
      rcases hheard x hx' span hspan with hend | hinert
      · exact hquiet x (List.mem_append_left _ hx') span hspan (Nat.lt_of_le_of_lt hprecedes hlt) hend
      · exact Remark.setsUpBase_of_isInert hspan hinert
  refine ⟨rebased base (before.map (Remark.report bytes)), ?_⟩
  rw [List.map_append, List.map_cons, rebased_append]
  exact rebased_eq_self (List.forall_mem_map.mpr hbetween) _

namespace Scanner.Legs

variable {exact : Prop} {gaps : List (List Crossing)} {tolds : List (List Remark)} {i start stop : Nat}
  {place : Place}

/-- Where a directive is in effect, the base is the one that it sets up. -/
theorem follow_of_inEffect
    (h : Legs r bytes exact i (ofWindow (Buffer.ofReader r)) r.scans gaps tolds)
    (hmem : .directive start stop place ∈ tolds.flatten) (hpos : r.IsAbout bytes tolds.flatten base pos o)
    (heffect : InEffect bytes tolds.flatten stop o) :
    ∃ current, pos.base = LineDirective.follow place (commentAt bytes (start, stop)) current := by
  have hordered := h.ordered
  have hopens := h.opens
  -- A position is of a lexeme, with all remarks of its scan before it, or of a remark.
  cases hpos with
  | @lexeme k scan hk =>
    have hsplit : tolds.flatten = (tolds.take (k + 1)).flatten ++ (tolds.drop (k + 1)).flatten := by
      rw [← List.flatten_append, List.take_append_drop]
    rw [hsplit] at hordered hopens hmem heffect
    have hbase := (h.take (k + 1)).reports_eq
    change ∃ current, rebased base ((r.scans.take (k + 1)).flatMap Scan.reports) = _
    rw [hbase]
    exact exists_follow_of_inEffect hordered hopens (h.early hk) h.late hmem heffect
  | @remark before x behind d hsplit hd =>
    rw [hsplit] at hordered hopens hmem heffect
    rw [Report.base_of_diagnostic? hd]
    obtain ⟨hbefore, hbehind⟩ := spans_of_ordered hordered hopens
    exact exists_follow_of_inEffect hordered hopens (fun y hy span hspan => .inl (hbefore y hy span hspan))
      hbehind hmem heffect

end Scanner.Legs

/-! ## Where positions are -/

namespace Reader

/-- Every position is at a place that the bytes may lead to. -/
theorem IsAbout.upTo (hreports : r.scans.flatMap Scan.reports = told.map (Remark.report bytes))
    (h : r.IsAbout bytes told base pos o) : pos.place.UpTo (3 * r.bytesLeft) := by
  cases h with
  | lexeme hk => exact (upTo_of_marked ⟨_, _, hk, rfl⟩).mono (by omega)
  | @remark before x behind d hsplit hd =>
    have hmem : x.report bytes ∈ r.scans.flatMap Scan.reports := by
      rw [hreports, hsplit]
      exact List.mem_map_of_mem (List.mem_append_right _ List.mem_cons_self)
    exact (upTo_of_mem hmem).of_diagnostic? hd

/-- What is said about some scans, points to lexemes or to what is told of. -/
theorem exists_isAbout_of_marked (hpos : Marked base r.scans pos) : ∃ o, r.IsAbout bytes told base pos o := by
  obtain ⟨k, scan, hk, rfl⟩ := hpos
  exact ⟨_, .lexeme hk⟩

/-- Every diagnostic is about an offset. -/
theorem exists_isAbout_of_saidOf (hreports : r.scans.flatMap Scan.reports = told.map (Remark.report bytes))
    {d : Diagnostic} (hd : Parser.SaidOf base r.scans d) : ∃ o, r.IsAbout bytes told base d.pos o := by
  rcases hd with ⟨_, _, _, he, hd⟩ | hpos
  · rw [hreports] at he
    obtain ⟨before, rest, hall, rfl, hrest⟩ := List.map_eq_append_iff.mp he
    obtain ⟨x, behind, rfl, rfl, rfl⟩ := List.map_eq_cons_iff.mp hrest
    exact ⟨_, .remark hall hd⟩
  · exact exists_isAbout_of_marked hpos

end Reader

end FrontEnd
