import FrontEnd.Proofs.Whole.Relayed

/-!
# The log of a run

All that a parser says, it says at one of its scans: first what there is to say about the reports of the
scan, and then complaints about its lexeme, or about a lexeme before (`SaidAt`). The diagnostics of a run,
each with the scan at which it is said, are a log that goes on from scan to scan (`Parser.exists_log`).

That a complaint does not look ahead needs an argument. Positions are only known to be those of lexemes. But
what is said at a scan is also said if its lexeme comes again and again from there on (`Parser.haltAt`), and
then there is no lexeme to look ahead to.
-/

namespace FrontEnd

namespace Cause

/-- The complaint, if that is the cause. -/
def complaint? : Cause → Option Complaint
  | .syntactic c _ => some c
  | .lexical _ | .badLine _ | .badColumn _ => none

/-- Whether the cause is a complaint that may be about something that has been read before. -/
def looksBack (cause : Cause) : Bool := cause.complaint?.any Complaint.looksBack

/-- What looks back is a complaint. -/
theorem complaint?_of_looksBack {cause : Cause} (h : cause.looksBack) : cause.complaint?.isSome := by
  cases cause with
  | «syntactic» => rfl
  | lexical | badLine | badColumn => cases h

/-- What is wrong with a directive is no complaint. -/
theorem complaint?_eq_none {cause : Cause} (h : cause.ofDirective = true) : cause.complaint? = none := by
  cases cause with
  | «syntactic» => cases h
  | lexical | badLine | badColumn => rfl

end Cause

/-- The position is that of a lexeme up to the one at `k`. -/
def MarkedUpTo (base : Base) (scans : List Scan) (k : Nat) (pos : Pos) : Prop :=
  ∃ m ≤ k, ∃ scan, scans[m]? = some scan ∧ pos = ⟨baseUpTo base scans (m + 1), scan.lexeme.place⟩

/-- The diagnostic is said at the scan at `k`: about one of its reports, about its lexeme, or looking back. -/
inductive SaidAt (base : Base) (scans : List Scan) (k : Nat) (d : Diagnostic) : Prop
  | report {scan} : scans[k]? = some scan → Told (baseUpTo base scans k) scan.reports d →
      SaidAt base scans k d
  | here {scan} : scans[k]? = some scan → d.cause.complaint?.isSome →
      d.pos = ⟨baseUpTo base scans (k + 1), scan.lexeme.place⟩ → SaidAt base scans k d
  | back {scan} : scans[k]? = some scan → d.cause.looksBack → MarkedUpTo base scans k d.pos →
      SaidAt base scans k d

/-- What is said about a report is no complaint. -/
theorem Told.complaint?_eq_none {base : Base} {reports : List Report} {d : Diagnostic}
    (h : Told base reports d) : d.cause.complaint? = none := by
  obtain ⟨before, report, behind, -, hd⟩ := h
  cases report with
  | error =>
    cases hd
    rfl
  | directive place comment =>
    exact Cause.complaint?_eq_none (LineDirective.rejection?_eq_some hd).1

/-! ## Scans that come to a halt -/

/-- The scans up to where there are `left` of them, and then only the last lexeme again and again. The
lexeme `l` comes before them. -/
def haltingAt (left : Nat) : Lexeme → List Scan → List Scan
  | _, [] => []
  | l, scan :: scans =>
    if scans.length < left then ⟨l, []⟩ :: haltingAt left l scans else scan :: haltingAt left scan.lexeme scans

section

variable {base : Base} {left : Nat} {l : Lexeme} {scan : Scan} {scans : List Scan} {pos : Pos}

/-- There are as many scans before and after they are brought to a halt. -/
@[simp] theorem length_haltingAt : (haltingAt left l scans).length = scans.length := by
  induction scans generalizing l with
  | nil => rfl
  | cons scan scans ih =>
    unfold haltingAt
    split <;> rw [List.length_cons, ih, List.length_cons]

/-- Before the halt a scan is left as it is. -/
theorem haltingAt_cons (h : left ≤ scans.length) :
    haltingAt left l (scan :: scans) = scan :: haltingAt left scan.lexeme scans :=
  if_neg (Nat.not_lt_of_le h)

/-- Behind the halt the last lexeme comes again and again, and nothing happens under way. -/
theorem haltingAt_eq_map (h : scans.length ≤ left) : haltingAt left l scans = scans.map fun _ => ⟨l, []⟩ := by
  induction scans with
  | nil => rfl
  | cons scan scans ih =>
    rw [haltingAt, if_pos (Nat.lt_of_succ_le h), ih (Nat.le_of_succ_le h), List.map_cons]

/-- The base at a scan is counted from the first one or from the next. -/
theorem baseUpTo_cons (n : Nat) :
    baseUpTo base (scan :: scans) (n + 1) = baseUpTo (rebased base scan.reports) scans n := by
  unfold baseUpTo
  rw [List.take_succ_cons, List.flatMap_cons, rebased_append]

/-- Where a lexeme comes again and again, it is always at the same position. -/
theorem Marked.eq_of_repeated (h : Marked base (scans.map fun _ => ⟨l, []⟩) pos) : pos = ⟨base, l.place⟩ := by
  obtain ⟨k, scan, hk, rfl⟩ := h
  have hrepeated : ∀ s ∈ scans.map fun _ => (⟨l, []⟩ : Scan), s = ⟨l, []⟩ :=
    List.forall_mem_map.mpr fun _ _ => rfl
  have hsilent : ((scans.map fun _ => (⟨l, []⟩ : Scan)).take (k + 1)).flatMap Scan.reports = [] :=
    List.flatMap_eq_nil_iff.mpr fun s hs => by rw [hrepeated s (List.mem_of_mem_take hs)]
  rw [hrepeated scan (List.mem_of_getElem? hk), baseUpTo, hsilent]
  rfl

/-- A lexeme is the first one or one behind it. -/
theorem Marked.of_cons (h : Marked base (scan :: scans) pos) :
    pos = ⟨rebased base scan.reports, scan.lexeme.place⟩ ∨ Marked (rebased base scan.reports) scans pos := by
  obtain ⟨k, scan', hk, rfl⟩ := h
  rw [baseUpTo_cons]
  cases k with
  | zero =>
    cases hk
    exact .inl rfl
  | succ k => exact .inr ⟨k, scan', hk, rfl⟩

/-- The position of the first lexeme. -/
theorem markedUpTo_head (k : Nat) :
    MarkedUpTo base (scan :: scans) k ⟨rebased base scan.reports, scan.lexeme.place⟩ := by
  refine ⟨0, Nat.zero_le k, scan, rfl, ?_⟩
  rw [baseUpTo_cons]
  rfl

/-- A lexeme behind the first one. -/
theorem MarkedUpTo.cons {k : Nat} (h : MarkedUpTo (rebased base scan.reports) scans k pos) :
    MarkedUpTo base (scan :: scans) (k + 1) pos := by
  obtain ⟨m, hm, scan', hscan, rfl⟩ := h
  refine ⟨m + 1, Nat.succ_le_succ hm, scan', hscan, ?_⟩
  rw [baseUpTo_cons]

/-- If the scans come to a halt, there is no lexeme behind. -/
theorem Marked.upTo {k : Nat} (h : Marked base (haltingAt left l scans) pos)
    (hk : k + 1 + left = scans.length) : MarkedUpTo base scans k pos := by
  induction scans generalizing base l k with
  | nil => simp at hk
  | cons scan scans ih =>
    rw [List.length_cons] at hk
    rw [haltingAt_cons (by omega)] at h
    rcases h.of_cons with rfl | hrest
    · exact markedUpTo_head k
    · cases k with
      | zero =>
        rw [haltingAt_eq_map (by omega)] at hrest
        exact hrest.eq_of_repeated ▸ markedUpTo_head 0
      | succ k => exact (ih hrest (by omega)).cons

end

namespace Parser

variable {p : Parser} {base : Base} {scans : List Scan} {left k : Nat}

/-- The parser with scans that come to a halt where there are `left` of them. -/
def haltAt (left : Nat) (p : Parser) : Parser :=
  { p with upcoming := haltingAt left p.current p.upcoming }

/-- A rule sees nothing of the halt. -/
theorem view_haltAt (left : Nat) (p : Parser) : (p.haltAt left).view = p.view := by
  simp [view, haltAt, token, aborted, here, posAt]

/-- What is heard does not depend on what is to come. -/
theorem hear_upcoming (p : Parser) (upcoming : List Scan) (report : Report) :
    { p with upcoming }.hear report = { p.hear report with upcoming } := by
  unfold hear
  split
  · next ha =>
    rw [if_pos (show p.aborted = true from ha)]
  · next ha =>
    rw [if_neg (show ¬p.aborted = true from ha)]
    cases report with
    | error => rfl
    | directive place comment =>
      change { p with upcoming }.direct place comment = { p.direct place comment with upcoming }
      unfold direct
      split
      · rfl
      · split <;> rfl

/-- All that is heard does not depend on what is to come. -/
theorem foldl_hear_upcoming (p : Parser) (upcoming : List Scan) (reports : List Report) :
    reports.foldl hear { p with upcoming } = { reports.foldl hear p with upcoming } := by
  induction reports generalizing p with
  | nil => rfl
  | cons report reports ih => rw [List.foldl_cons, hear_upcoming, ih, List.foldl_cons]

/-- Before the halt reading on does the same. -/
theorem next_haltAt (h : left ≤ p.next.upcoming.length) : (p.haltAt left).next = p.next.haltAt left := by
  unfold next at h ⊢
  have haborted : (p.haltAt left).aborted = p.aborted := rfl
  rw [haborted]
  split
  · rfl
  · next ha =>
    rw [if_neg ha] at h
    cases hu : p.upcoming with
    | nil => simp [haltAt, hu, haltingAt]
    | cons scan rest =>
      rw [hu] at h
      dsimp only at h
      rw [upcoming_foldl_hear] at h
      have hlingers := Lingers.foldl_hear scan.reports { p with current := scan.lexeme, upcoming := rest }
      have hhalted : (p.haltAt left).upcoming = scan :: haltingAt left scan.lexeme rest := by
        rw [haltAt, hu]
        exact haltingAt_cons h
      have hsame {q : Parser} (hc : q.current = scan.lexeme) (hu : q.upcoming = rest) :
          { q with upcoming := haltingAt left scan.lexeme rest } = q.haltAt left := by
        rw [haltAt, hc, hu]
      rw [hhalted]
      exact (foldl_hear_upcoming { p with current := scan.lexeme, upcoming := rest } _ _).trans
        (hsame hlingers.current hlingers.upcoming)

/-- A line of the trace does not depend on the halt. -/
theorem trace_haltAt (p : Parser) (note : TraceNote) : (p.haltAt left).trace note = (p.trace note).haltAt left := by
  unfold trace haltAt
  split <;> rfl

/-- A complaint does not depend on the halt. -/
theorem complainAt_haltAt (p : Parser) (pos : Pos) (c : Complaint) :
    (p.haltAt left).complainAt pos c = (p.complainAt pos c).haltAt left := by
  unfold complainAt
  dsimp only
  rw [trace_haltAt]
  generalize p.trace _ = q
  change (if q.token = .eof && q.first?.isSome then q.haltAt left else _) = _
  split <;> rfl

/-- As long as there are that many scans, a halt makes no difference. -/
theorem move_haltAt (a : Move) (h : left ≤ (a.apply p).upcoming.length) :
    a.apply (p.haltAt left) = (a.apply p).haltAt left := by
  cases a with
  | next => exact next_haltAt h
  | complain c => exact complainAt_haltAt p p.here c
  | lookBack pos c => exact complainAt_haltAt p pos c
  | trace note => exact trace_haltAt p note
  | enter rule =>
    exact congrArg (fun q : Parser => { q with openRules := p.openRules + 1 }) (trace_haltAt p (.enter rule))
  | leave => exact trace_haltAt { p with openRules := p.openRules - 1 } .leave
  | enterFunction | leaveFunction | newGroup | starve => rfl

/-! ## Logs -/

/-- The second diagnostic is said at a later scan than the first. Or they are said at the same one: then the
second is a complaint, or they are about reports of the scan in their order. -/
def InTurn (base : Base) (scans : List Scan) (x y : Nat × Diagnostic) : Prop :=
  x.1 < y.1 ∨ x.1 = y.1 ∧ (y.2.cause.complaint?.isSome ∨
    ∃ scan, scans[x.1]? = some scan ∧ [x.2, y.2].Sublist (diagnosticsOf (baseUpTo base scans x.1) scan.reports))

/-- What is said from the scan at `k` on, behind its reports. -/
structure IsLog (base : Base) (scans : List Scan) (k : Nat) (log : List (Nat × Diagnostic)) : Prop where
  le : ∀ x ∈ log, k ≤ x.1
  lt : ∀ x ∈ log, x.1 < scans.length
  said : ∀ x ∈ log, x.2.cause.looksBack ∨ SaidAt base scans x.1 x.2
  behind : ∀ x ∈ log, x.1 = k → x.2.cause.complaint?.isSome
  inTurn : log.Pairwise (InTurn base scans)

/-- Where nothing is said, that is a log. -/
theorem isLog_nil : IsLog base scans k [] where
  le _ hx := (List.not_mem_nil hx).elim
  lt _ hx := (List.not_mem_nil hx).elim
  said _ hx := (List.not_mem_nil hx).elim
  behind _ hx := (List.not_mem_nil hx).elim
  inTurn := .nil

variable {log : List (Nat × Diagnostic)}

/-- A complaint at the scan comes before all that is said from there on. -/
theorem IsLog.cons (h : IsLog base scans k log) (hk : k < scans.length) {d : Diagnostic}
    (hc : d.cause.complaint?.isSome) (hd : d.cause.looksBack ∨ SaidAt base scans k d) :
    IsLog base scans k ((k, d) :: log) where
  le := List.forall_mem_cons.mpr ⟨Nat.le_refl k, h.le⟩
  lt := List.forall_mem_cons.mpr ⟨hk, h.lt⟩
  said := List.forall_mem_cons.mpr ⟨hd, h.said⟩
  behind := List.forall_mem_cons.mpr ⟨fun _ => hc, h.behind⟩
  inTurn := by
    refine .cons (fun y hy => ?_) h.inTurn
    rcases Nat.lt_or_eq_of_le (h.le y hy) with hlt | rfl
    · exact .inl hlt
    · exact .inr ⟨rfl, .inl (h.behind y hy rfl)⟩

/-- What is said about the reports of a scan comes before all that is said from there on. -/
theorem IsLog.inTurn_heard {scan : Scan} (h : IsLog base scans k log) (hk : scans[k]? = some scan) :
    ((diagnosticsOf (baseUpTo base scans k) scan.reports).map (Prod.mk k) ++ log).Pairwise
      (InTurn base scans) := by
  refine List.pairwise_append.mpr ⟨List.pairwise_map.mpr ?_, h.inTurn, fun x hx y hy => ?_⟩
  · exact List.pairwise_iff_forall_sublist.mpr fun hpair => .inr ⟨rfl, .inr ⟨scan, hk, hpair⟩⟩
  · obtain ⟨d, -, rfl⟩ := List.mem_map.mp hx
    rcases Nat.lt_or_eq_of_le (h.le y hy) with hlt | heq
    · exact .inl hlt
    · exact .inr ⟨heq, .inl (h.behind y hy heq.symm)⟩

/-- What a move says comes before all that is said from where it leads. -/
theorem Says.isLog {a : Move} {k' : Nat} {ds : List Diagnostic} (hk : k < scans.length)
    (hmove : Says base scans a k k' ds) (h : IsLog base scans k' log) :
    IsLog base scans k (ds.map (Prod.mk k') ++ log) := by
  cases hmove with
  | nothing => exact h
  | here hscan => exact h.cons hk rfl (.inr (.here hscan rfl rfl))
  | @lookedBack _ _ hc => exact h.cons hk rfl (.inl hc)
  -- The next scan is heard as a whole, so its diagnostics are noted beside it, in front of the rest.
  | @heard scan hscan =>
    obtain ⟨hlt, -⟩ := List.getElem?_eq_some_iff.mp hscan
    constructor
    case le =>
      refine List.forall_mem_append.mpr ⟨List.forall_mem_map.mpr fun _ _ => Nat.le_succ k, fun x hx => ?_⟩
      exact Nat.le_of_succ_le (h.le x hx)
    case lt => exact List.forall_mem_append.mpr ⟨List.forall_mem_map.mpr fun _ _ => hlt, h.lt⟩
    case said =>
      refine List.forall_mem_append.mpr ⟨List.forall_mem_map.mpr fun d hd => ?_, h.said⟩
      exact .inr (.report hscan (told_of_mem hd))
    case behind =>
      refine List.forall_mem_append.mpr ⟨List.forall_mem_map.mpr fun _ _ he => ?_, fun x hx he => ?_⟩
      · exact absurd he (Nat.succ_ne_self k)
      · exact absurd (he ▸ h.le x hx) (Nat.not_succ_le_self k)
    case inTurn => exact h.inTurn_heard hscan

/-- A parser is at one of its scans. -/
theorem AtScan.lt (h : p.AtScan base scans k) : k < scans.length := by
  obtain ⟨scan, hk, -⟩ := h.current
  exact (List.getElem?_eq_some_iff.mp hk).1

/-- What is said in some steps is a log from the scan on where they start. Complaints that look back are
also made if the scans come to a halt where they arise. -/
theorem AtScan.run {α : Type} {m : ParseM α} (hm : Steps m) (h : p.AtScan base scans k) :
    ∃ log : List (Nat × Diagnostic), (m.run p).2.diagnostics = p.diagnostics ++ log.map Prod.snd ∧
      IsLog base scans k log ∧ ∀ x ∈ log, x.2.cause.looksBack →
        x.2 ∈ (m.run (p.haltAt (scans.length - (x.1 + 1)))).2.diagnostics := by
  -- Move by move; `k` is the scan at which the parser stands, and the log notes it beside each diagnostic.
  induction hm generalizing p k with
  | done => exact ⟨[], (List.append_nil _).symm, isLog_nil, fun _ hx => (List.not_mem_nil hx).elim⟩
  | look f _ ih =>
    obtain ⟨log, hsaid, hlog, hback⟩ := ih p.view h
    refine ⟨log, hsaid, hlog, fun x hx hc => ?_⟩
    have hmem := hback x hx hc
    rwa [← view_haltAt (scans.length - (x.1 + 1)) p] at hmem
  | move a m hm ih =>
    obtain ⟨k', ds, hmove, hat, hsaid⟩ := h.move a
    obtain ⟨log, hsaid', hlog, hback⟩ := ih hat
    -- A move that does not go beyond scan `i` is the same whether or not the input stops behind it.
    have hsame {i : Nat} (hi : k' ≤ i) : a.apply (p.haltAt (scans.length - (i + 1))) =
        (a.apply p).haltAt (scans.length - (i + 1)) := by
      refine move_haltAt a ?_
      rw [hat.upcoming, List.length_drop]
      omega
    refine ⟨ds.map (Prod.mk k') ++ log, ?_, hmove.isLog h.lt hlog, ?_⟩
    · change (m.run (a.apply p)).2.diagnostics = _
      rw [hsaid', hsaid, List.map_append, List.map_map, List.append_assoc]
      congr 2
      exact (List.map_id ds).symm
    · refine List.forall_mem_append.mpr ⟨List.forall_mem_map.mpr fun d hd _ => ?_, fun x hx hc => ?_⟩
      · change d ∈ (m.run (a.apply _)).2.diagnostics
        rw [hsame (Nat.le_refl k')]
        have hmem : d ∈ (a.apply p).diagnostics := hsaid ▸ List.mem_append_right _ hd
        exact mem_diagnostics.mpr ((lasting_log _).steps hm (mem_diagnostics.mp hmem))
      · change x.2 ∈ (m.run (a.apply _)).2.diagnostics
        rw [hsame (hlog.le x hx)]
        exact hback x hx hc

/-! ## Whole runs -/

/-- Bringing a parser to a halt is starting it on scans that come to one. -/
theorem start_haltAt {scan : Scan} {rest : List Scan} (h : left ≤ rest.length) (verbose : Bool) :
    (start base (scan :: rest) true verbose).haltAt left =
      start base (scan :: haltingAt left scan.lexeme rest) true verbose := by
  have hrest : (start base (scan :: rest) true verbose).upcoming = rest :=
    (atScan_start base scan rest verbose).1.upcoming
  unfold start at hrest ⊢
  rw [← next_haltAt (by rwa [hrest]), haltAt]
  dsimp only
  rw [haltingAt_cons h]

/-- The budget does not depend on the halt. -/
theorem budget_haltAt (left : Nat) (p : Parser) : (p.haltAt left).budget = p.budget := by
  simp [budget, haltAt]

/-- If the scans come to a halt, nothing is said about a lexeme behind. -/
theorem markedUpTo_of_halt {p : Parser} {scan : Scan} {rest : List Scan} {verbose : Bool} {d : Diagnostic}
    (hp : p = start base (scan :: rest) true verbose) (hk : k ≤ rest.length) (hc : d.cause.looksBack)
    (hd : d ∈ ((ParseM.file p.budget).run (p.haltAt (rest.length - k))).2.diagnostics) :
    MarkedUpTo base (scan :: rest) k d.pos := by
  have hhalted : p.haltAt (rest.length - k) =
      start base (scan :: haltingAt (rest.length - k) scan.lexeme rest) true verbose :=
    hp ▸ start_haltAt (Nat.sub_le ..) verbose
  have ht : (p.haltAt (rest.length - k)).tolerant = true := hhalted ▸ (atScan_start ..).1.tolerant
  rw [← budget_haltAt (rest.length - k), ← parseFile_of_tolerant ht, hhalted] at hd
  rcases (lies_of_tolerant base scan _ verbose).2 d hd with htold | hmarked
  · have hcomplaint := Cause.complaint?_of_looksBack hc
    rw [htold.complaint?_eq_none] at hcomplaint
    cases hcomplaint
  · have hrest : Marked base (haltingAt (rest.length - k) scan.lexeme (scan :: rest)) d.pos := by
      rwa [haltingAt_cons (Nat.sub_le ..)]
    exact hrest.upTo (by rw [List.length_cons]; omega)

/-- The diagnostics of a run, each with the scan at which it is said. -/
theorem exists_log (base : Base) (scan : Scan) (rest : List Scan) (tolerant verbose : Bool) :
    ∃ log : List (Nat × Diagnostic),
      log.map Prod.snd = (start base (scan :: rest) tolerant verbose).parseFile.2.diagnostics ∧
      (∀ x ∈ log, SaidAt base (scan :: rest) x.1 x.2) ∧ log.Pairwise (InTurn base (scan :: rest)) := by
  cases tolerant with
  -- A parser that stops at the first diagnostic keeps none.
  | false =>
    exact ⟨[], (diagnostics_of_hasty base _ verbose).symm, fun _ hx => (List.not_mem_nil hx).elim, .nil⟩
  | true =>
    obtain ⟨hat, hsaid₀⟩ := atScan_start base scan rest verbose
    generalize hp : start base (scan :: rest) true verbose = p at hat hsaid₀ ⊢
    obtain ⟨log, hsaid, hlog, hback⟩ := hat.run (ParseM.routine_file p.budget).steps
    have hfirst : (scan :: rest)[0]? = some scan := rfl
    refine ⟨(diagnosticsOf base scan.reports).map (Prod.mk 0) ++ log, ?_, ?_, hlog.inTurn_heard hfirst⟩
    · rw [parseFile_of_tolerant hat.tolerant, hsaid, hsaid₀, List.map_append, List.map_map]
      congr 1
      exact List.map_id _
    · refine List.forall_mem_append.mpr ⟨List.forall_mem_map.mpr fun d hd => ?_,
        fun x hx => (hlog.said x hx).elim (fun hc => ?_) id⟩
      · exact .report hfirst (told_of_mem hd)
      have hlt := hlog.lt x hx
      have hmem := hback x hx hc
      rw [List.length_cons, Nat.add_sub_add_right] at hmem
      exact .back (List.getElem?_eq_getElem hlt) hc
        (markedUpTo_of_halt hp.symm (Nat.le_of_lt_succ hlt) hc hmem)

end Parser

end FrontEnd
