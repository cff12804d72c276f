import FrontEnd.Proofs.Bases.Rules
import FrontEnd.Proofs.Trees.Returned

/-!
# The base in effect

A parser follows the reports of its scans one after another: a comment may set up another base, and whatever
is wrong is complained about against the base in effect. So the base at a lexeme is the one that all
reports up to it leave (`baseUpTo`), and that of a diagnostic about a report is the one that the reports
before it leave (`Told`). All positions in a tree, and those of all other diagnostics, are those of lexemes
(`Marked`). This holds of every tree and every diagnostic, whatever is scanned (`Parser.lies_parseFile`).
-/

namespace FrontEnd

namespace LineDirective

/-- The base after a comment at `place`. -/
def follow (place : Place) (comment : String) (base : Base) : Base :=
  match candidate? place comment with
  | none => base
  | some candidate =>
    match read candidate.text with
    | .accepted directive => directive.toBase candidate.anchor base
    | .unrelated | .rejected .. => base

/-- What is wrong with the number in a comment at `place`. -/
def rejection? (place : Place) (comment : String) (base : Base) : Option Diagnostic :=
  match candidate? place comment with
  | none => none
  | some candidate =>
    match read candidate.text with
    | .rejected offset cause =>
      some ⟨⟨base, ⟨(operandPlace place).line, (operandPlace place).column + offset⟩⟩, cause⟩
    | .unrelated | .accepted _ => none

end LineDirective

namespace Report

/-- The base after a report. -/
def rebase : Report → Base → Base
  | .error _, base => base
  | .directive place comment, base => LineDirective.follow place comment base

/-- What is said about a report. -/
def diagnostic? : Report → Base → Option Diagnostic
  | .error e, base => some ⟨⟨base, e.place⟩, .lexical e.fault⟩
  | .directive place comment, base => LineDirective.rejection? place comment base

end Report

/-- The base after some reports. -/
def rebased (base : Base) (reports : List Report) : Base := reports.foldl (fun b r => r.rebase b) base

/-- The base after the reports of the first `n` scans. -/
def baseUpTo (base : Base) (scans : List Scan) (n : Nat) : Base :=
  rebased base ((scans.take n).flatMap Scan.reports)

/-- The position is that of a lexeme. -/
def Marked (base : Base) (scans : List Scan) (pos : Pos) : Prop :=
  ∃ k scan, scans[k]? = some scan ∧ pos = ⟨baseUpTo base scans (k + 1), scan.lexeme.place⟩

/-- What is said about some reports, one after another. -/
def diagnosticsOf : Base → List Report → List Diagnostic
  | _, [] => []
  | base, report :: reports =>
    (report.diagnostic? base).toList ++ diagnosticsOf (report.rebase base) reports

/-- The diagnostic is what is said about one of the reports. -/
def Told (base : Base) (reports : List Report) (d : Diagnostic) : Prop :=
  ∃ before report behind, reports = before ++ report :: behind ∧
    report.diagnostic? (rebased base before) = some d

/-- The base after reports and others behind them. -/
theorem rebased_append (base : Base) (before behind : List Report) :
    rebased base (before ++ behind) = rebased (rebased base before) behind := List.foldl_append

/-- What is said about reports is so with others behind them. -/
theorem Told.append {base : Base} {reports more : List Report} {d : Diagnostic} (h : Told base reports d) :
    Told base (reports ++ more) d := by
  obtain ⟨before, report, behind, rfl, hd⟩ := h
  exact ⟨before, report, behind ++ more, by simp, hd⟩

/-- What is said about reports is said against the base after those before them. -/
theorem Told.behind {base : Base} {reports : List Report} {d : Diagnostic} (earlier : List Report)
    (h : Told (rebased base earlier) reports d) : Told base (earlier ++ reports) d := by
  obtain ⟨before, report, behind, rfl, hd⟩ := h
  refine ⟨earlier ++ before, report, behind, by simp, ?_⟩
  rwa [rebased_append]

/-- What is said about reports one after another is about one of them. -/
theorem told_of_mem {base : Base} {reports : List Report} {d : Diagnostic}
    (hd : d ∈ diagnosticsOf base reports) : Told base reports d := by
  induction reports generalizing base with
  | nil => cases hd
  | cons report reports ih =>
    rcases List.mem_append.mp hd with hd | hd
    · exact ⟨[], report, reports, rfl, Option.mem_toList.mp hd⟩
    · exact Told.behind [report] (ih hd)

/-- The base up to a scan is that after its reports. -/
theorem baseUpTo_succ {base : Base} {scans : List Scan} {k : Nat} {scan : Scan}
    (h : scans[k]? = some scan) :
    baseUpTo base scans (k + 1) = rebased (baseUpTo base scans k) scan.reports := by
  unfold baseUpTo
  rw [List.take_add_one, h, List.flatMap_append, rebased_append]
  simp

namespace Parser

variable {p : Parser} {base : Base} {scans : List Scan}

/-- A tolerant parser keeps what it diagnoses. -/
theorem diagnostics_diagnose (ht : p.tolerant = true) (pos : Pos) (cause : Cause) :
    (p.diagnose pos cause).diagnostics = p.diagnostics ++ [⟨pos, cause⟩] := by
  simp [diagnose, diagnostics, ht, Event.diagnostic?]

/-! ## Hearing -/

/-- A report changes the base and is complained about as it says. -/
theorem hear_eq (ht : p.tolerant = true) (report : Report) :
    (p.hear report).base = report.rebase p.base ∧
      (p.hear report).diagnostics = p.diagnostics ++ (report.diagnostic? p.base).toList := by
  have ha : ¬p.aborted = true := by simp [aborted, ht]
  unfold hear
  rw [if_neg ha]
  cases report with
  | error e => exact ⟨rfl, diagnostics_diagnose ht _ _⟩
  | directive place comment =>
    unfold Report.rebase Report.diagnostic? LineDirective.follow LineDirective.rejection? direct
    dsimp only
    cases LineDirective.candidate? place comment with
    | none => exact ⟨rfl, (List.append_nil _).symm⟩
    | some candidate =>
      dsimp only
      cases LineDirective.read candidate.text with
      | unrelated => exact ⟨rfl, (List.append_nil _).symm⟩
      | rejected => exact ⟨rfl, diagnostics_diagnose ht _ _⟩
      | accepted => exact ⟨rfl, (List.append_nil _).symm⟩

/-- After some reports, all of them have been followed and spoken about. -/
theorem foldl_hear_eq (ht : p.tolerant = true) (reports : List Report) :
    (reports.foldl hear p).base = rebased p.base reports ∧
      (reports.foldl hear p).diagnostics = p.diagnostics ++ diagnosticsOf p.base reports := by
  induction reports generalizing p with
  | nil => exact ⟨rfl, (List.append_nil _).symm⟩
  | cons report reports ih =>
    obtain ⟨hbase, hsaid⟩ := hear_eq ht report
    obtain ⟨hbase', hsaid'⟩ := ih ((lasting_tolerant true).hear ht report)
    rw [hbase] at hbase' hsaid'
    refine ⟨hbase', ?_⟩
    rw [List.foldl_cons, hsaid', hsaid, List.append_assoc]
    rfl

/-! ## The parser on its scans -/

/-- The parser is at the scan at `k`, with the base up to it. -/
structure AtScan (base : Base) (scans : List Scan) (k : Nat) (p : Parser) : Prop where
  tolerant : p.tolerant = true
  current : ∃ scan, scans[k]? = some scan ∧ p.current = scan.lexeme
  upcoming : p.upcoming = scans.drop (k + 1)
  base_eq : p.base = baseUpTo base scans (k + 1)

/-- What a move from the scan at `k` to that at `k'` says. -/
inductive Says (base : Base) (scans : List Scan) (a : Move) (k : Nat) : Nat → List Diagnostic → Prop
  | nothing : Says base scans a k k []
  | here {scan c found} : scans[k]? = some scan →
      Says base scans a k k [⟨⟨baseUpTo base scans (k + 1), scan.lexeme.place⟩, .syntactic c found⟩]
  | lookedBack {pos c hc found} : a = .lookBack pos c hc → Says base scans a k k [⟨pos, .syntactic c found⟩]
  | heard {scan} : scans[k + 1]? = some scan →
      Says base scans a k (k + 1) (diagnosticsOf (baseUpTo base scans (k + 1)) scan.reports)

/-- The current position is that of the lexeme of the scan. -/
theorem AtScan.here_eq {k : Nat} (h : p.AtScan base scans k) :
    ∃ scan, scans[k]? = some scan ∧ p.here = ⟨baseUpTo base scans (k + 1), scan.lexeme.place⟩ := by
  obtain ⟨scan, hk, hcurrent⟩ := h.current
  refine ⟨scan, hk, ?_⟩
  unfold here posAt
  rw [hcurrent, h.base_eq]

/-- Going to the scan at `k`, the parser hears its reports. -/
theorem atScan_hear {k : Nat} {scan : Scan} (ht : p.tolerant = true) (hk : scans[k]? = some scan)
    (hbase : p.base = baseUpTo base scans k) :
    let q := scan.reports.foldl hear { p with current := scan.lexeme, upcoming := scans.drop (k + 1) }
    q.AtScan base scans k ∧
      q.diagnostics = p.diagnostics ++ diagnosticsOf (baseUpTo base scans k) scan.reports := by
  have ht' : { p with current := scan.lexeme, upcoming := scans.drop (k + 1) }.tolerant = true := ht
  have hlingers := Lingers.foldl_hear scan.reports
    { p with current := scan.lexeme, upcoming := scans.drop (k + 1) }
  obtain ⟨hbase', hsaid⟩ := foldl_hear_eq ht' scan.reports
  refine ⟨⟨(lasting_tolerant true).foldl_hear ht' _, ⟨scan, hk, hlingers.current⟩, hlingers.upcoming, ?_⟩, ?_⟩
  · rw [hbase', hbase, baseUpTo_succ hk]
  · rw [← hbase]
    exact hsaid

/-- What neither reads nor follows a directive stays at its scan. -/
theorem AtScan.lingers {k : Nat} {q : Parser} (h : p.AtScan base scans k) (hq : p.Lingers q)
    (ht : q.tolerant = true) (hbase : q.base = p.base) : q.AtScan base scans k where
  tolerant := ht
  current := by rw [hq.current]; exact h.current
  upcoming := hq.upcoming.trans h.upcoming
  base_eq := hbase.trans h.base_eq

/-- A parser stays at its scan, or goes to the next and hears its reports. -/
theorem AtScan.next {k : Nat} (h : p.AtScan base scans k) (a : Move) :
    ∃ k' ds, Says base scans a k k' ds ∧ p.next.AtScan base scans k' ∧
      p.next.diagnostics = p.diagnostics ++ ds := by
  rcases p.next_cases with hnext | ⟨scan, rest, hu, hnext⟩
  · rw [hnext]
    exact ⟨k, [], .nothing, h, (List.append_nil _).symm⟩
  · have hdrop : scans.drop (k + 1) = scan :: rest := h.upcoming.symm.trans hu
    have hk : scans[k + 1]? = some scan := by rw [← List.head?_drop, hdrop, List.head?_cons]
    have hrest : rest = scans.drop (k + 1 + 1) := by rw [← List.tail_drop, hdrop, List.tail_cons]
    obtain ⟨hat, hsaid⟩ := atScan_hear h.tolerant hk h.base_eq
    rw [hnext, hrest]
    exact ⟨k + 1, _, .heard hk, hat, hsaid⟩

/-- A line of the trace stays at the scan. -/
theorem AtScan.trace {k : Nat} (h : p.AtScan base scans k) (note : TraceNote) :
    (p.trace note).AtScan base scans k :=
  h.lingers (.trace p note) ((lasting_tolerant true).trace note h.tolerant) (base_trace p note)

/-- A complaint is said, or nothing is. -/
theorem AtScan.complainAt {k : Nat} (h : p.AtScan base scans k) (pos : Pos) (c : Complaint) :
    (p.complainAt pos c).AtScan base scans k ∧ ((p.complainAt pos c).diagnostics = p.diagnostics ∨
      ∃ found, (p.complainAt pos c).diagnostics = p.diagnostics ++ [⟨pos, .syntactic c found⟩]) := by
  have ht := h.trace (.remark ("syntax error: " ++ c.words))
  rcases p.complainAt_cases pos c with ⟨-, -, he⟩ | he
  · rw [he]
    exact ⟨ht, .inl (diagnostics_trace p _)⟩
  · rw [he, diagnostics_diagnose ht.tolerant, diagnostics_trace]
    exact ⟨ht.lingers (.diagnose _ _ _) ht.tolerant rfl, .inr ⟨_, rfl⟩⟩

/-- What each move says, and where it leads. -/
theorem AtScan.move {k : Nat} (a : Move) (h : p.AtScan base scans k) :
    ∃ k' ds, Says base scans a k k' ds ∧ (a.apply p).AtScan base scans k' ∧
      (a.apply p).diagnostics = p.diagnostics ++ ds := by
  -- A move that hears no new scan: the diagnostics it adds are of no place of its own.
  have quiet {q : Parser} (hq : q.AtScan base scans k) (hsaid : q.diagnostics = p.diagnostics) :
      ∃ k' ds, Says base scans a k k' ds ∧ q.AtScan base scans k' ∧ q.diagnostics = p.diagnostics ++ ds :=
    ⟨k, [], .nothing, hq, hsaid.trans (List.append_nil _).symm⟩
  -- The counters of the parser play no part in where it stands.
  have books (functions openRules groups : Nat) (starved : Bool) {p : Parser} (h : p.AtScan base scans k) :
      { p with functions, openRules, groups, starved }.AtScan base scans k :=
    ⟨h.tolerant, h.current, h.upcoming, h.base_eq⟩
  cases a with
  | next => exact h.next _
  | complain c =>
    -- The complaint stands at the current token, which the last scan gave.
    obtain ⟨scan, hk, hhere⟩ := h.here_eq
    obtain ⟨hat, hsaid | ⟨found, hsaid⟩⟩ := h.complainAt p.here c
    · exact quiet hat hsaid
    · refine ⟨k, _, ?_, hat, hsaid⟩
      rw [hhere]
      exact .here hk
  | lookBack pos c hc =>
    obtain ⟨hat, hsaid | ⟨found, hsaid⟩⟩ := h.complainAt pos c
    · exact quiet hat hsaid
    · exact ⟨k, _, .lookedBack rfl, hat, hsaid⟩
  | trace note => exact quiet (h.trace note) (diagnostics_trace p note)
  | enter rule => exact quiet (books _ _ _ _ (h.trace (.enter rule))) (diagnostics_trace p _)
  | leave =>
    exact quiet ((books p.functions _ p.groups p.starved h).trace .leave)
      (diagnostics_trace { p with openRules := p.openRules - 1 } _)
  | enterFunction => exact quiet (books _ _ _ _ h) rfl
  | leaveFunction => exact quiet (books _ _ _ _ h) rfl
  | newGroup => exact quiet (books _ _ _ _ h) rfl
  | starve => exact quiet (books _ _ _ _ h) rfl

/-- What is said about the scans: about a report, or about a lexeme. -/
def SaidOf (base : Base) (scans : List Scan) (d : Diagnostic) : Prop :=
  Told base (scans.flatMap Scan.reports) d ∨ Marked base scans d.pos

/-- The parser is at one of the scans, and whatever it has said is about a report or a lexeme. -/
structure OnScans (base : Base) (scans : List Scan) (p : Parser) : Prop where
  reached : ∃ k, p.AtScan base scans k
  said : ∀ d ∈ p.diagnostics, SaidOf base scans d

/-- The current position is that of a lexeme. -/
theorem OnScans.marked (h : p.OnScans base scans) : Marked base scans p.here := by
  obtain ⟨k, hat⟩ := h.reached
  obtain ⟨scan, hk, hhere⟩ := hat.here_eq
  exact ⟨k, scan, hk, hhere⟩

/-- What is told of a scan, is told of one of all reports. -/
theorem told_of_scan {k : Nat} {scan : Scan} (hk : scans[k]? = some scan) {d : Diagnostic}
    (h : Told (baseUpTo base scans k) scan.reports d) : Told base (scans.flatMap Scan.reports) d := by
  -- The reports before those of the scan at `k` are those that the base comes from.
  have hsplit : scans.flatMap Scan.reports = (scans.take k).flatMap Scan.reports ++
      (scan.reports ++ (scans.drop (k + 1)).flatMap Scan.reports) := by
    obtain ⟨hlt, rfl⟩ := List.getElem?_eq_some_iff.mp hk
    rw [← List.flatMap_cons, ← List.drop_eq_getElem_cons hlt, ← List.flatMap_append, List.take_append_drop]
  rw [hsplit]
  exact Told.behind _ h.append

/-- What a move says, is about a report or a lexeme, if it looks back to lexemes only. -/
theorem Says.saidOf {a : Move} {k k' : Nat} {ds : List Diagnostic} (h : Says base scans a k k' ds)
    (ha : ∀ pos c hc, a = .lookBack pos c hc → Marked base scans pos) : ∀ d ∈ ds, SaidOf base scans d := by
  cases h with
  | nothing => exact fun _ hd => (List.not_mem_nil hd).elim
  | here hk => exact List.forall_mem_singleton.mpr (.inr ⟨k, _, hk, rfl⟩)
  | lookedBack he => exact List.forall_mem_singleton.mpr (.inr (ha _ _ _ he))
  | heard hk => exact fun d hd => .inl (told_of_scan hk (told_of_mem hd))

/-- Every move stays on the scans, if it looks back to lexemes only. -/
theorem OnScans.move (a : Move) (ha : ∀ pos c hc, a = .lookBack pos c hc → Marked base scans pos)
    (h : p.OnScans base scans) : (a.apply p).OnScans base scans := by
  obtain ⟨k, hat⟩ := h.reached
  obtain ⟨k', ds, hmove, hat', hsaid⟩ := hat.move a
  refine ⟨⟨k', hat'⟩, ?_⟩
  rw [hsaid]
  exact List.forall_mem_append.mpr ⟨h.said, hmove.saidOf ha⟩

/-- From before the first scan a parser goes to it and hears its reports. -/
theorem atScan_zero {scan : Scan} {rest : List Scan} (ht : p.tolerant = true) (hbase : p.base = base)
    (hu : p.upcoming = scan :: rest) (hsilent : p.diagnostics = []) :
    p.next.AtScan base (scan :: rest) 0 ∧ p.next.diagnostics = diagnosticsOf base scan.reports := by
  unfold next
  rw [if_neg (by simp [aborted, ht]), hu]
  have hk : (scan :: rest)[0]? = some scan := rfl
  obtain ⟨hat, hsaid⟩ := atScan_hear ht hk hbase
  rw [hsilent, List.nil_append] at hsaid
  exact ⟨hat, hsaid⟩

/-- At the start a parser is at the first scan and has said what there is to say about its reports. -/
theorem atScan_start (base : Base) (scan : Scan) (rest : List Scan) (verbose : Bool) :
    (start base (scan :: rest) true verbose).AtScan base (scan :: rest) 0 ∧
      (start base (scan :: rest) true verbose).diagnostics = diagnosticsOf base scan.reports := by
  unfold start
  exact atScan_zero rfl rfl rfl rfl

/-- At the start a parser is at one of the scans. -/
theorem onScans_start (base : Base) (scan : Scan) (rest : List Scan) (verbose : Bool) :
    (start base (scan :: rest) true verbose).OnScans base (scan :: rest) := by
  obtain ⟨hat, hsaid⟩ := atScan_start base scan rest verbose
  have hk : (scan :: rest)[0]? = some scan := rfl
  refine ⟨⟨0, hat⟩, fun d hd => .inl (told_of_scan hk (told_of_mem ?_))⟩
  rw [hsaid] at hd
  exact hd

/-! ## Whole runs -/

/-- A tolerant run points to lexemes, and says nothing but about reports and lexemes. -/
theorem lies_of_tolerant (base : Base) (scan : Scan) (rest : List Scan) (verbose : Bool) :
    let p := (start base (scan :: rest) true verbose).parseFile
    Failure.Lies (Marked base (scan :: rest)) (SaidOf base (scan :: rest)) p.1 ∧
      ∀ d ∈ p.2.diagnostics, SaidOf base (scan :: rest) d := by
  have hstart := onScans_start base scan rest verbose
  have ht := (atScan_start base scan rest verbose).1.tolerant
  generalize start base (scan :: rest) true verbose = p at hstart ht
  obtain ⟨hlies, hp⟩ := (ParseM.points_file (SaidOf base (scan :: rest)) p.budget).run
    (fun _ => OnScans.marked) (fun a _ ha h => h.move a ha) hstart
  rw [parseFile_of_tolerant ht]
  exact ⟨hlies, hp.said⟩

/-- A parser that fails fast has no diagnostics of its own. -/
theorem lasting_unheard : Lasting fun p => p.tolerant = false → p.diagnostics = [] where
  diagnose := by
    intro p pos cause _ h ht
    have hp : p.tolerant = false := ht
    simp only [diagnose, diagnostics, hp, Bool.false_eq_true, if_false]
    exact h hp
  trace := by
    intro p note h ht
    rw [diagnostics_trace]
    exact h (((lasting_tolerant p.tolerant).trace note rfl).symm.trans ht)
  go _ _ _ h := h
  keepBooks _ _ _ _ h := h

/-- Without tolerance nothing is said to anybody. -/
theorem diagnostics_of_hasty (base : Base) (scans : List Scan) (verbose : Bool) :
    (start base scans false verbose).parseFile.2.diagnostics = [] := by
  have hquiet : (start base scans false verbose).tolerant = false →
      (start base scans false verbose).diagnostics = [] := lasting_unheard.next fun _ => rfl
  have ht : (start base scans false verbose).tolerant = false := (lasting_tolerant false).next rfl
  generalize start base scans false verbose = p at hquiet ht
  have hrun := lasting_unheard.run (ParseM.routine_file p.budget) hquiet
    ((lasting_tolerant false).run (ParseM.routine_file p.budget) ht)
  unfold parseFile
  split
  · exact hquiet ht
  · split
    next result p' he =>
    rw [he] at hrun
    split
    · exact hrun
    · split <;> exact hrun

/-- Whatever a run over some scans yields points to lexemes, and all that it says, or ends with, is about
reports and lexemes. -/
theorem lies_parseFile (base : Base) (scan : Scan) (rest : List Scan) (tolerant verbose : Bool) :
    let p := (start base (scan :: rest) tolerant verbose).parseFile
    Failure.Lies (Marked base (scan :: rest)) (SaidOf base (scan :: rest)) p.1 ∧
      ∀ d ∈ p.2.diagnostics, SaidOf base (scan :: rest) d := by
  obtain ⟨hlies, hsaid⟩ := lies_of_tolerant base scan rest verbose
  cases tolerant with
  | true => exact ⟨hlies, hsaid⟩
  | false =>
    refine ⟨?_, fun d hd => ?_⟩
    · rcases hasty_parseFile_cases base (scan :: rest) verbose with ⟨hsame, -⟩ | ⟨d, hd, haborted⟩
      · rw [hsame]
        exact hlies
      · rw [haborted]
        exact hsaid d (List.mem_of_mem_head? hd)
    · rw [diagnostics_of_hasty] at hd
      cases hd

end Parser

end FrontEnd
