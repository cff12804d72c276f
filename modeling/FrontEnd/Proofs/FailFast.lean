import FrontEnd.Proofs.Routine.Rules
import FrontEnd.Proofs.Runs

/-!
# Failing fast and going on

A tolerant parser and one that fails fast read the same source. Up to the first diagnostic they do
the same, step by step; with it they part for good: the tolerant one keeps it as its first, and the
other one has been finished by it and neither reads nor complains any more (`Parser.failFast`). So a
run that fails fast has the result of the tolerant run if that has nothing to say, and otherwise the
first thing it says (`parseFile_failFast`).
-/

namespace FrontEnd

namespace Parser

/-! ## What a parser says first -/

/-- The parser has said `d` first. If that has finished it, it has said nothing since. -/
def SaidFirst (tolerant : Bool) (d : Diagnostic) (p : Parser) : Prop :=
  p.tolerant = tolerant ∧ p.first? = some d ∧ (tolerant = false → p.count = 1)

/-- What has been said first stays the first. -/
theorem lasting_saidFirst (tolerant : Bool) (d : Diagnostic) : Lasting (SaidFirst tolerant d) where
  diagnose := by
    rintro p pos cause ha ⟨ht, hf, -⟩
    have htrue : tolerant = true := by simpa [aborted, ht, hf] using ha
    exact ⟨ht, by simp [diagnose, hf], by simp [htrue]⟩
  trace := by
    intro p note h
    unfold trace
    split <;> exact h
  go _ _ _ h := h
  keepBooks _ _ _ _ h := h

/-- Tolerance lasts. -/
theorem lasting_tolerant (tolerant : Bool) : Lasting (fun p => p.tolerant = tolerant) where
  diagnose _ _ _ h := h
  trace := by
    intro p note h
    unfold trace
    split <;> exact h
  go _ _ _ h := h
  keepBooks _ _ _ _ h := h

/-- A tolerant parser logs what it says first. -/
def LogsFirst (p : Parser) : Prop := p.tolerant = true → p.diagnostics.head? = p.first?

/-- What a tolerant parser has said first stays in its log. -/
theorem lasting_logsFirst : Lasting LogsFirst where
  diagnose := by
    intro p pos cause _ h ht
    have ht' : p.tolerant = true := ht
    have hd : (p.diagnose pos cause).diagnostics = p.diagnostics ++ [⟨pos, cause⟩] := by
      simp [diagnostics, diagnose, ht', Event.diagnostic?]
    rw [hd, List.head?_append, h ht']
    rfl
  trace := by
    intro p note h ht
    unfold trace at ht ⊢
    split at ht
    · have := h ht
      simpa [diagnostics, Event.diagnostic?, *] using this
    · simpa [*] using h ht
  go _ _ _ h := h
  keepBooks _ _ _ _ h := h

/-! ## Two parsers on one source -/

/-- The parser that does the same and fails fast. -/
def hasty (p : Parser) : Parser := { p with tolerant := false }

/-- The parser is tolerant and has had nothing to say. -/
structure Silent (p : Parser) : Prop where
  tolerant : p.tolerant = true
  first? : p.first? = none
  count : p.count = 0

/-- The tolerant parser and the hasty one have parted over the same diagnostic. -/
def Parted (p q : Parser) : Prop := ∃ d, p.SaidFirst true d ∧ q.SaidFirst false d

section

variable {p : Parser}

/-- A parser that has had nothing to say has not been finished. -/
theorem Silent.aborted (h : p.Silent) : p.aborted = false := by
  simp [Parser.aborted, h.first?]

/-- Nor has the hasty one. -/
theorem Silent.aborted_hasty (h : p.Silent) : p.hasty.aborted = false := by
  simp [Parser.aborted, hasty, h.first?]

/-- Nothing finishes the hasty one, either. -/
theorem Silent.abortion?_hasty (h : p.Silent) : p.hasty.abortion? = none := by
  simp [abortion?, hasty, h.first?]

/-- As long as nothing is said, a rule sees the same. -/
theorem Silent.view_hasty (h : p.Silent) : p.hasty.view = p.view := by
  have ht : p.hasty.token = p.token := by
    unfold token
    rw [h.aborted, h.aborted_hasty]
    rfl
  simp only [view, ht]
  rfl

/-- A note says nothing. -/
theorem Silent.trace (h : p.Silent) (note : TraceNote) : (p.trace note).Silent := by
  unfold Parser.trace
  split
  · exact ⟨h.tolerant, h.first?, h.count⟩
  · exact h

/-- Both trace the same. -/
theorem trace_hasty (p : Parser) (note : TraceNote) : p.hasty.trace note = (p.trace note).hasty := by
  unfold Parser.trace hasty
  split <;> rfl

/-- Over a first diagnostic they part. -/
theorem Silent.parted_diagnose (h : p.Silent) (pos : Pos) (cause : Cause) :
    Parted (p.diagnose pos cause) (p.hasty.diagnose pos cause) := by
  refine ⟨⟨pos, cause⟩, ⟨h.tolerant, ?_, by simp⟩, ⟨rfl, ?_, fun _ => ?_⟩⟩
  · simp [diagnose, h.first?]
  · simp [diagnose, hasty, h.first?]
  · simp [diagnose, hasty, h.count]

/-- A complaint parts them. -/
theorem Silent.parted_complainAt (h : p.Silent) (pos : Pos) (c : Complaint) :
    Parted (p.complainAt pos c) (p.hasty.complainAt pos c) := by
  have ht := h.trace (.remark ("syntax error: " ++ c.words))
  unfold complainAt
  dsimp only
  rw [trace_hasty]
  generalize p.trace _ = p' at ht
  have hf : p'.hasty.first? = none := ht.first?
  rw [if_neg (by simp [ht.first?]), if_neg (by simp [hf])]
  exact ht.parted_diagnose pos _

/-- They are at the same point, or they have parted. -/
def Paired (p q : Parser) : Prop := (p.Silent ∧ q = p.hasty) ∨ Parted p q

/-- A parser that has said nothing and its hasty twin are at the same point. -/
theorem Silent.paired (h : p.Silent) : Paired p p.hasty := .inl ⟨h, rfl⟩

/-- Following a directive keeps them together or, if it is rejected, parts them. -/
theorem Silent.paired_direct (h : p.Silent) (place : Place) (comment : String) :
    Paired (p.direct place comment) (p.hasty.direct place comment) := by
  unfold direct
  split
  · exact h.paired
  · split
    · exact h.paired
    · exact .inr (h.parted_diagnose _ _)
    · exact .inl ⟨⟨h.tolerant, h.first?, h.count⟩, rfl⟩

/-- Hearing of what happened under way keeps them together or parts them. -/
theorem Silent.paired_hear (h : p.Silent) (report : Report) :
    Paired (p.hear report) (p.hasty.hear report) := by
  unfold hear
  rw [if_neg (by simp [h.aborted]), if_neg (by simp [h.aborted_hasty])]
  split
  · exact .inr (h.parted_diagnose _ _)
  · exact h.paired_direct _ _

/-- So does hearing of everything: once they are parted, neither matters to the other. -/
theorem Silent.paired_foldl_hear (h : p.Silent) (reports : List Report) :
    Paired (reports.foldl hear p) (reports.foldl hear p.hasty) := by
  induction reports generalizing p with
  | nil => exact h.paired
  | cons r rest ih =>
    rcases h.paired_hear r with ⟨hs, hq⟩ | ⟨d, hp, hq⟩
    · rw [List.foldl_cons, List.foldl_cons, hq]
      exact ih hs
    · exact .inr ⟨d, (lasting_saidFirst _ d).foldl_hear hp rest,
        (lasting_saidFirst _ d).foldl_hear hq rest⟩

/-- Reading on keeps them together or parts them. -/
theorem Silent.paired_next (h : p.Silent) : Paired p.next p.hasty.next := by
  unfold next
  rw [if_neg (by simp [h.aborted]), if_neg (by simp [h.aborted_hasty])]
  have hu : p.hasty.upcoming = p.upcoming := rfl
  rw [hu]
  cases p.upcoming with
  | nil => exact h.paired
  | cons scan rest =>
    have hs : Silent { p with current := scan.lexeme, upcoming := rest } :=
      ⟨h.tolerant, h.first?, h.count⟩
    exact hs.paired_foldl_hear scan.reports

/-- A step of both keeps them at the same point, or they part over it. -/
theorem Silent.paired_move (h : p.Silent) (a : Move) : Paired (a.apply p) (a.apply p.hasty) := by
  cases a with
  | next => exact h.paired_next
  | complain c => exact .inr (h.parted_complainAt p.here c)
  | lookBack pos c => exact .inr (h.parted_complainAt pos c)
  | trace note => exact .inl ⟨h.trace note, trace_hasty p note⟩
  | enter rule =>
    have ht := h.trace (.enter rule)
    refine .inl ⟨⟨ht.tolerant, ht.first?, ht.count⟩, ?_⟩
    simp only [Move.apply, trace_hasty]
    rfl
  | leave =>
    have hl : Silent { p with openRules := p.openRules - 1 } := ⟨h.tolerant, h.first?, h.count⟩
    exact .inl ⟨hl.trace .leave, trace_hasty { p with openRules := p.openRules - 1 } .leave⟩
  | enterFunction => exact .inl ⟨⟨h.tolerant, h.first?, h.count⟩, rfl⟩
  | leaveFunction => exact .inl ⟨⟨h.tolerant, h.first?, h.count⟩, rfl⟩
  | newGroup => exact .inl ⟨⟨h.tolerant, h.first?, h.count⟩, rfl⟩
  | starve => exact .inl ⟨⟨h.tolerant, h.first?, h.count⟩, rfl⟩

end

/-- A tolerant parser and a hasty one, side by side. -/
def failFast : Simulation where
  together p q := p.Silent ∧ q = p.hasty
  apart := Parted
  view_eq := fun ⟨hp, hq⟩ => hq ▸ hp.view_hasty.symm
  move a _ _ := fun ⟨hp, hq⟩ => hq ▸ hp.paired_move a
  apart_left a _ _ := fun ⟨d, hp, hq⟩ => ⟨d, (lasting_saidFirst _ d).move a hp, hq⟩
  apart_right a _ _ := fun ⟨d, hp, hq⟩ => ⟨d, hp, (lasting_saidFirst _ d).move a hq⟩

/-! ## Whole runs -/

/-- Before its first lexeme a parser has had nothing to say, and then it pairs with the hasty one. -/
theorem paired_start (base : Base) (scans : List Scan) (verbose : Bool) :
    Paired (start base scans true verbose) (start base scans false verbose) :=
  Silent.paired_next ⟨rfl, rfl, rfl⟩

/-- At the start nothing has been said. -/
theorem logsFirst_start (base : Base) (scans : List Scan) (verbose : Bool) :
    (start base scans true verbose).LogsFirst :=
  lasting_logsFirst.next fun _ => rfl

/-- A note says nothing first. -/
@[simp] theorem first?_trace (p : Parser) (note : TraceNote) : (p.trace note).first? = p.first? := by
  unfold trace
  split <;> rfl

/-- A note is no diagnostic. -/
@[simp] theorem diagnostics_trace (p : Parser) (note : TraceNote) :
    (p.trace note).diagnostics = p.diagnostics := by
  unfold trace
  split
  · simp [diagnostics, Event.diagnostic?]
  · rfl

/-- A file without a header is given up before anything is said about it. -/
theorem first?_of_file_error {budget : Nat} {p : Parser} {failure : Failure}
    (h : ((ParseM.file budget).run p).1 = .error failure) :
    ((ParseM.file budget).run p).2.first? = p.first? := by
  unfold ParseM.file at h ⊢
  rw [ParseM.run_traced] at h ⊢
  have hp : (Move.apply (.enter .file) p).first? = p.first? := first?_trace p _
  generalize Move.apply (.enter .file) p = p' at h hp ⊢
  rw [← hp]
  simp only [ParseM.run_bind, ParseM.run_here, ParseM.run_current, ParseM.run_got] at h ⊢
  by_cases hm : p'.token = .keyword .moduleWord
  · -- With a header there is a file, whatever follows.
    simp only [if_pos hm, if_true, ParseM.run_bind, ParseM.run_pure] at h
    cases h
  · simp only [if_neg hm, Bool.false_eq_true, if_false, ParseM.run_pure]
    exact first?_trace _ _

/-- A run that no diagnostic has finished yields what the rule for files yields. -/
theorem parseFile_eq_run {p : Parser} (hp : p.abortion? = none)
    (hp' : ((ParseM.file p.budget).run p).2.abortion? = none) :
    p.parseFile = (ParseM.file p.budget).run p := by
  unfold parseFile
  rw [hp]
  generalize (ParseM.file p.budget).run p = r at hp' ⊢
  obtain ⟨result, p'⟩ := r
  cases result with
  | error failure => rfl
  | ok f =>
    change p'.abortion? = none at hp'
    simp only [hp']

/-- A tolerant run always does. -/
theorem parseFile_of_tolerant {p : Parser} (hp : p.tolerant = true) :
    p.parseFile = (ParseM.file p.budget).run p := by
  have habortion {q : Parser} (hq : q.tolerant = true) : q.abortion? = none := if_pos hq
  refine parseFile_eq_run (habortion hp) (habortion ?_)
  exact (lasting_tolerant true).run (ParseM.routine_file _) hp

/-- A run that a diagnostic finishes on its way yields that diagnostic. -/
theorem parseFile_of_saidFirst {p : Parser} {d : Diagnostic} (hp : p.abortion? = none)
    (ht : p.tolerant = false) (hp' : ((ParseM.file p.budget).run p).2.SaidFirst false d) :
    p.parseFile.1 = .error (.aborted d) ∧ p.parseFile.2.count = 1 := by
  have hf : p.first? = none := by simpa [abortion?, ht] using hp
  have herror (failure : Failure) (h : ((ParseM.file p.budget).run p).1 = .error failure) :
      ((ParseM.file p.budget).run p).2.first? = p.first? := first?_of_file_error h
  unfold parseFile
  rw [hp]
  generalize (ParseM.file p.budget).run p = r at hp' herror ⊢
  obtain ⟨result, p'⟩ := r
  obtain ⟨ht', hf', hc'⟩ := hp'
  -- A file given up has said nothing yet; one that was built is dropped for the first diagnostic.
  cases result with
  | error failure =>
    have hnone : p'.first? = none := (herror failure rfl).trans hf
    exact absurd hf' (by simp [hnone])
  | ok f =>
    have ha : p'.abortion? = some (.aborted d) := by
      unfold abortion?
      rw [ht', hf']
      rfl
    simp only [ha]
    exact ⟨trivial, hc' rfl⟩

/-- A run that fails fast yields what the tolerant run yields if that has nothing to say. Otherwise
it is finished by the first thing that the tolerant run says, and counts no other. -/
theorem parseFile_failFast (base : Base) (reader : Reader) (verbose : Bool) :
    let tolerant := (start base reader.scans true verbose).parseFile
    let hasty := (start base reader.scans false verbose).parseFile
    match tolerant.2.diagnostics with
    | [] => hasty.1 = tolerant.1
    | d :: _ => hasty.1 = .error (.aborted d) ∧ hasty.2.count = 1 := by
  have hpair := paired_start base reader.scans verbose
  have hlogs := logsFirst_start base reader.scans verbose
  generalize start base reader.scans true verbose = p at hpair hlogs ⊢
  generalize start base reader.scans false verbose = q at hpair ⊢
  intro tolerant hasty
  have hfile := ParseM.routine_file p.budget
  have hp : p.tolerant = true := by
    rcases hpair with ⟨hs, -⟩ | ⟨d, hd, -⟩
    · exact hs.tolerant
    · exact hd.1
  have hrun : tolerant = (ParseM.file p.budget).run p := parseFile_of_tolerant hp
  have hhead : tolerant.2.diagnostics.head? = tolerant.2.first? := by
    have ht : tolerant.2.tolerant = true := by
      rw [hrun]
      exact (lasting_tolerant true).run hfile hp
    have hl : tolerant.2.LogsFirst := by
      rw [hrun]
      exact lasting_logsFirst.run hfile hlogs
    exact hl ht
  -- It is enough to know what the tolerant run says first.
  have hnone (hf : tolerant.2.first? = none) : tolerant.2.diagnostics = [] :=
    List.head?_eq_none_iff.mp (hhead.trans hf)
  have hsome {d : Diagnostic} (hd : tolerant.2.SaidFirst true d) :
      ∃ rest, tolerant.2.diagnostics = d :: rest :=
    List.head?_eq_some_iff.mp (hhead.trans hd.2.1)
  rcases hpair with ⟨hs, rfl⟩ | ⟨d, hd, hq⟩
  · have hb : p.hasty.abortion? = none := hs.abortion?_hasty
    rcases hfile.simulates failFast (p := p) (q := p.hasty) ⟨hs, rfl⟩ with
      ⟨hresult, hs', hq'⟩ | ⟨d, hd, hq'⟩
    · rw [hnone (hrun ▸ hs'.first?)]
      have hb' : ((ParseM.file p.budget).run p.hasty).2.abortion? = none := by
        rw [hq']
        exact hs'.abortion?_hasty
      rw [show hasty = _ from parseFile_eq_run hb hb', hrun]
      exact hresult.symm
    · obtain ⟨rest, hrest⟩ := hsome (hrun ▸ hd)
      rw [hrest]
      exact parseFile_of_saidFirst hb rfl hq'
  · -- They have parted over what was reported on the way to the first lexeme.
    have hd' : tolerant.2.SaidFirst true d := by
      rw [hrun]
      exact (lasting_saidFirst true d).run hfile hd
    obtain ⟨rest, hrest⟩ := hsome hd'
    rw [hrest]
    obtain ⟨ht, hf, hc⟩ := hq
    have ha : q.abortion? = some (.aborted d) := by
      unfold abortion?
      rw [ht, hf]
      rfl
    have hq : hasty = (.error (.aborted d), q) := by
      change q.parseFile = _
      unfold parseFile
      rw [ha]
    rw [hq]
    exact ⟨rfl, hc rfl⟩

end Parser

end FrontEnd
