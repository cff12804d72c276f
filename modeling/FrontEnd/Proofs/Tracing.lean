import FrontEnd.Proofs.FailFast

/-!
# Traces

A trace tells which rules are open. `Balanced` says what that takes of the lines as they read
(`TraceLine.Reads`): each rule that is entered is left, both lines are indented by the rules around it, and
all lines in between by one rule more. A routine
closes what it opens, so it traces balanced lines, however it goes through its rules
(`Routine.restores`): when an early return, a recovery or a diagnostic that finishes the run cuts it
short, the brackets around it are closed all the same.

Apart from that a trace is nobody's business: a parser that does not trace goes through the same states
(`Parser.quiet`), since what has been traced cannot be seen by a rule.
-/

namespace FrontEnd

/-- Every open rule takes two characters. -/
theorem TraceLine.length_indentation (depth : Nat) : (indentation depth).length = 2 * depth := by
  unfold indentation
  induction depth with
  | zero => rfl
  | succ depth ih =>
    rw [List.replicate_succ, String.join_cons, String.length_append, ih]
    change 2 + 2 * depth = _
    omega

/-- The line reads `words`, behind its margin and two characters for each of `depth` open rules. -/
def TraceLine.Reads (line : TraceLine) (depth : Nat) (words : String) : Prop :=
  ∃ indent : String, line.text = margin line.line? ++ indent ++ words ∧ indent.length = 2 * depth

/-- A line reads what its note says, behind as much as its depth tells. -/
theorem TraceLine.reads_text (line : TraceLine) : line.Reads line.depth line.note.text :=
  ⟨indentation line.depth, rfl, length_indentation line.depth⟩

/-- The trace lines below `depth` open rules that enter and leave each rule in its turn. A rule is entered
with its name and an opening bracket, and left with a closing bracket below it. -/
inductive Balanced : Nat → List TraceLine → Prop where
  | nil (depth : Nat) : Balanced depth []
  | remark {depth : Nat} {line : TraceLine} {words : String} {rest : List TraceLine} :
      line.note = .remark words → line.Reads depth words → Balanced depth rest →
      Balanced depth (line :: rest)
  | rule {depth : Nat} {opened closed : TraceLine} {rule : Rule} {inner rest : List TraceLine} :
      opened.note = .enter rule → opened.Reads depth (rule.name ++ " (") →
      Balanced (depth + 1) inner → closed.note = .leave → closed.Reads depth ")" →
      Balanced depth rest → Balanced depth (opened :: inner ++ closed :: rest)

namespace Balanced

variable {depth : Nat} {lines rest : List TraceLine}

/-- Balanced lines behind balanced lines are balanced. -/
theorem append (h : Balanced depth lines) (h' : Balanced depth rest) :
    Balanced depth (lines ++ rest) := by
  induction h with
  | nil => exact h'
  | remark hn hr _ ih => exact remark hn hr (ih h')
  | @rule _ opened closed _ inner later hopen hro hin hclosed hrc _ _ ih =>
    have hsplit : opened :: inner ++ closed :: later ++ rest =
        opened :: inner ++ closed :: (later ++ rest) := by simp
    exact hsplit ▸ rule hopen hro hin hclosed hrc (ih h')

end Balanced

namespace Parser

/-- The trace lines that have been said, oldest first. -/
def traceLines (p : Parser) : List TraceLine := p.log.toList.filterMap Event.traceLine?

/-- The line that a note makes of what a parser knows. -/
def lineOf (p : Parser) (note : TraceNote) : TraceLine :=
  let line := p.current.place.line
  ⟨if p.tracedLine? = some line then none else some line, p.openRules, note⟩

/-- What a note adds to a trace. -/
def noted (p : Parser) (note : TraceNote) : List TraceLine :=
  if p.verbose then [p.lineOf note] else []

/-- Tracing adds what a note adds. -/
@[simp] theorem traceLines_trace (p : Parser) (note : TraceNote) :
    (p.trace note).traceLines = p.traceLines ++ p.noted note := by
  unfold Parser.trace noted
  split
  · simp [traceLines, Event.traceLine?, lineOf]
  · simp

/-- Tracing does not change whether there is a trace. -/
@[simp] theorem verbose_trace (p : Parser) (note : TraceNote) : (p.trace note).verbose = p.verbose := by
  unfold Parser.trace
  split <;> rfl

/-- Tracing itself opens no rules. -/
@[simp] theorem openRules_trace (p : Parser) (note : TraceNote) :
    (p.trace note).openRules = p.openRules := by
  unfold Parser.trace
  split <;> rfl

/-- Tracing enters no function. -/
@[simp] theorem functions_trace (p : Parser) (note : TraceNote) :
    (p.trace note).functions = p.functions := by
  unfold Parser.trace
  split <;> rfl

/-! ## What is opened is closed -/

/-- The second parser is where the first one got to without leaving anything open. -/
structure Restores (p q : Parser) : Prop where
  verbose : q.verbose = p.verbose
  openRules : q.openRules = p.openRules
  functions : q.functions = p.functions
  lines : ∃ lines, q.traceLines = p.traceLines ++ lines ∧ Balanced p.openRules lines ∧
    (p.verbose = false → lines = [])

namespace Restores

variable {p q r : Parser}

/-- A parser with the same books and trace has left nothing open. -/
theorem of_same (hv : q.verbose = p.verbose) (ho : q.openRules = p.openRules)
    (hf : q.functions = p.functions) (hl : q.traceLines = p.traceLines) : Restores p q :=
  ⟨hv, ho, hf, [], by simp [hl], .nil _, fun _ => rfl⟩

/-- A parser that stays as it is has left nothing open. -/
theorem refl (p : Parser) : Restores p p := of_same rfl rfl rfl rfl

/-- What leaves nothing open, twice, leaves nothing open. -/
theorem trans (h : Restores p q) (h' : Restores q r) : Restores p r := by
  obtain ⟨lines, hlines, hbalanced, hquiet⟩ := h.lines
  obtain ⟨later, hlater, hbalanced', hquiet'⟩ := h'.lines
  constructor
  case verbose => exact h'.verbose.trans h.verbose
  case openRules => exact h'.openRules.trans h.openRules
  case functions => exact h'.functions.trans h.functions
  case lines =>
    refine ⟨lines ++ later, ?_, hbalanced.append (h.openRules ▸ hbalanced'), fun hv => ?_⟩
    · rw [hlater, hlines, List.append_assoc]
    · rw [hquiet hv, hquiet' (h.verbose.trans hv), List.append_nil]

/-- A diagnostic leaves nothing open. -/
theorem diagnose (p : Parser) (pos : Pos) (cause : Cause) : Restores p (p.diagnose pos cause) := by
  refine of_same rfl rfl rfl ?_
  unfold traceLines Parser.diagnose
  dsimp only
  split <;> simp [Event.traceLine?]

/-- A remark leaves nothing open. -/
theorem remark (p : Parser) (text : String) : Restores p (p.trace (.remark text)) := by
  refine ⟨verbose_trace p _, openRules_trace p _, functions_trace p _, p.noted (.remark text),
    traceLines_trace p _, ?_, fun hv => by simp [noted, hv]⟩
  unfold noted
  split
  · exact .remark rfl (TraceLine.reads_text _) (.nil _)
  · exact .nil _

/-- Hearing of what happened under way leaves nothing open. -/
theorem hear (p : Parser) (report : Report) : Restores p (p.hear report) := by
  unfold Parser.hear
  split
  · exact refl p
  · split
    · exact diagnose p _ _
    · unfold Parser.direct
      split
      · exact refl p
      · split
        · exact refl p
        · exact diagnose p _ _
        · exact of_same rfl rfl rfl rfl

/-- Hearing of everything that happened under way leaves nothing open. -/
theorem foldl_hear (p : Parser) (reports : List Report) : Restores p (reports.foldl Parser.hear p) := by
  induction reports generalizing p with
  | nil => exact refl p
  | cons report rest ih => exact (hear p report).trans (ih _)

/-- Going on to the next lexeme leaves nothing open. -/
theorem next (p : Parser) : Restores p p.next := by
  unfold Parser.next
  split
  · exact refl p
  · split
    · exact refl p
    · next scan rest _ =>
      have hgo : Restores p { p with current := scan.lexeme, upcoming := rest } :=
        of_same rfl rfl rfl rfl
      exact hgo.trans (foldl_hear _ _)

/-- A complaint leaves nothing open. -/
theorem complainAt (p : Parser) (pos : Pos) (c : Complaint) : Restores p (p.complainAt pos c) := by
  unfold Parser.complainAt
  dsimp only
  split
  · exact remark p _
  · exact (remark p _).trans (diagnose _ _ _)

/-- A move that neither opens nor closes anything leaves nothing open. -/
theorem flat {a : Move} (ha : a.isFlat) (p : Parser) : Restores p (a.apply p) := by
  cases a with
  | next => exact next p
  | complain c => exact complainAt p p.here c
  | lookBack pos c => exact complainAt p pos c
  | trace note =>
    cases note with
    | remark text => exact remark p text
    | enter r => cases ha
    | leave => cases ha
  | enter r => cases ha
  | leave => cases ha
  | enterFunction => cases ha
  | leaveFunction => cases ha
  | newGroup => exact of_same rfl rfl rfl rfl
  | starve => exact of_same rfl rfl rfl rfl

/-- What happens inside a bracket leaves nothing open around it. -/
theorem around (b : Bracket) (h : Restores (b.opening.apply p) q) : Restores p (b.closing.apply q) := by
  cases b with
  | functionBody =>
    -- Function bodies are not traced themselves.
    exact ⟨h.verbose, h.openRules, congrArg (· - 1) h.functions, h.lines⟩
  | rule r =>
    -- The rule's own lines go around whatever is traced inside it, which stands one rule further in.
    let opened : Parser := { p.trace (.enter r) with openRules := p.openRules + 1 }
    let closed : Parser := { q with openRules := q.openRules - 1 }
    change Restores opened q at h
    change Restores p (closed.trace .leave)
    have hv : closed.verbose = p.verbose := h.verbose.trans (verbose_trace p _)
    have ho : closed.openRules = p.openRules := congrArg (· - 1) h.openRules
    obtain ⟨inner, hinner, hbalanced, hquiet⟩ := h.lines
    constructor
    case verbose => exact (verbose_trace closed _).trans hv
    case openRules => exact (openRules_trace closed _).trans ho
    case functions => exact (functions_trace closed _).trans (h.functions.trans (functions_trace p _))
    case lines =>
      refine ⟨p.noted (.enter r) ++ inner ++ closed.noted .leave, ?_, ?_, fun hp => ?_⟩
      · calc (closed.trace .leave).traceLines
            = q.traceLines ++ closed.noted .leave := traceLines_trace closed _
          _ = (p.trace (.enter r)).traceLines ++ inner ++ closed.noted .leave := by rw [hinner]; rfl
          _ = p.traceLines ++ (p.noted (.enter r) ++ inner ++ closed.noted .leave) := by
            simp only [traceLines_trace, List.append_assoc]
      · cases hp : p.verbose with
        | false =>
          -- Nothing has been traced, also not inside.
          have hnothing : inner = [] := hquiet ((verbose_trace p _).trans hp)
          simpa [noted, hp, hv, hnothing] using Balanced.nil _
        | true =>
          have hrule : Balanced p.openRules (p.lineOf (.enter r) :: inner ++ [closed.lineOf .leave]) :=
            .rule rfl (TraceLine.reads_text _) hbalanced rfl (ho ▸ TraceLine.reads_text _) (.nil _)
          simpa [noted, hp, hv] using hrule
      · have hnothing : inner = [] := hquiet ((verbose_trace p _).trans hp)
        simp [noted, hp, hv, hnothing]

end Restores

end Parser

/-- A routine leaves nothing open, whichever way it takes. -/
theorem Routine.restores {α : Type} {m : ParseM α} (h : Routine m) (p : Parser) :
    p.Restores (m.run p).2 := by
  induction h generalizing p with
  | done => exact .refl p
  | look f _ ih => exact ih p.view p
  | move a ha m _ ih => exact (Parser.Restores.flat ha p).trans (ih _)
  -- Whatever happens inside the bracket, the run comes out of it at its closing end.
  | within b m f _ _ ih ihf => exact (Parser.Restores.around b (ih _)).trans (ihf _ _)

namespace Parser

/-- Every call leaves nothing open, also one that fails or is finished by a diagnostic. -/
theorem restores_parseFile (p : Parser) : p.Restores p.parseFile.2 := by
  have hfile := (ParseM.routine_file p.budget).restores p
  unfold parseFile
  split
  · exact .refl p
  · generalize (ParseM.file p.budget).run p = r at hfile
    obtain ⟨result, q⟩ := r
    cases result with
    | error failure => exact hfile
    | ok f =>
      dsimp only
      split <;> exact hfile

/-! ## Tracing changes nothing -/

/-- The parser that does the same without tracing. -/
def quiet (p : Parser) : Parser :=
  { p with
    verbose := false
    tracedLine? := none
    log := p.log.filter fun e => e.diagnostic?.isSome }

section

variable (p : Parser)

/-- A rule cannot see whether there is a trace. -/
theorem view_quiet : p.quiet.view = p.view := rfl

/-- Without its trace a parser is as it was before the note. -/
theorem quiet_trace (note : TraceNote) : (p.trace note).quiet = p.quiet := by
  unfold Parser.trace
  split
  · simp [quiet, Event.diagnostic?]
  · rfl

/-- A parser that does not trace notes nothing. -/
theorem trace_quiet (note : TraceNote) : p.quiet.trace note = p.quiet := if_neg Bool.false_ne_true

/-- A diagnostic is told with and without a trace. -/
theorem quiet_diagnose (pos : Pos) (cause : Cause) :
    (p.diagnose pos cause).quiet = p.quiet.diagnose pos cause := by
  unfold Parser.diagnose quiet
  cases p.tolerant <;> simp [Event.diagnostic?]

/-- A complaint is made with and without a trace. -/
theorem quiet_complainAt (pos : Pos) (c : Complaint) :
    (p.complainAt pos c).quiet = p.quiet.complainAt pos c := by
  unfold Parser.complainAt
  dsimp only
  rw [trace_quiet, ← quiet_trace p (.remark ("syntax error: " ++ c.words))]
  generalize p.trace _ = p'
  change quiet (if _ then _ else _) = if p'.token = .eof && p'.first?.isSome then _ else _
  rw [apply_ite quiet, quiet_diagnose]
  rfl

/-- What happened under way is heard with and without a trace. -/
theorem quiet_hear (report : Report) : (p.hear report).quiet = p.quiet.hear report := by
  unfold Parser.hear
  change _ = if p.aborted then _ else _
  split
  · rfl
  · cases report with
    | error e => exact quiet_diagnose p _ _
    | directive place comment =>
      unfold Parser.direct
      dsimp only
      split
      · rfl
      · split
        · rfl
        · exact quiet_diagnose p _ _
        · rfl

/-- All that happened under way is heard with and without a trace. -/
theorem quiet_foldl_hear (reports : List Report) :
    (reports.foldl Parser.hear p).quiet = reports.foldl Parser.hear p.quiet := by
  induction reports generalizing p with
  | nil => rfl
  | cons report rest ih => rw [List.foldl_cons, ih, quiet_hear, List.foldl_cons]

/-- The next lexeme is the same with and without a trace. -/
theorem quiet_next : p.next.quiet = p.quiet.next := by
  have haborted : p.quiet.aborted = p.aborted := rfl
  have hupcoming : p.quiet.upcoming = p.upcoming := rfl
  unfold Parser.next
  rw [haborted, hupcoming]
  split
  · rfl
  · cases p.upcoming with
    | nil => rfl
    | cons scan rest => exact quiet_foldl_hear _ _

/-- Every move does the same to a parser that does not trace. -/
theorem quiet_move (a : Move) : (a.apply p).quiet = a.apply p.quiet := by
  cases a with
  | next => exact quiet_next p
  | complain c => exact quiet_complainAt p p.here c
  | lookBack pos c => exact quiet_complainAt p pos c
  | trace note => exact (quiet_trace p note).trans (trace_quiet p note).symm
  | enter r =>
    have h : ((p.trace (.enter r)).quiet) = p.quiet.trace (.enter r) :=
      (quiet_trace p _).trans (trace_quiet p _).symm
    exact congrArg (fun q : Parser => { q with openRules := p.openRules + 1 }) h
  | leave => exact (quiet_trace _ _).trans (trace_quiet _ _).symm
  | enterFunction => rfl
  | leaveFunction => rfl
  | newGroup => rfl
  | starve => rfl

end

/-- A parser that may trace and one that does not, side by side. -/
def unheard : Simulation where
  together p q := q = p.quiet
  apart _ _ := False
  view_eq h := h ▸ (view_quiet _).symm
  move a _ _ h := .inl (h ▸ (quiet_move _ a).symm)
  apart_left _ _ _ h := h
  apart_right _ _ _ h := h

/-- A parser starts alike with and without a trace. -/
theorem quiet_start (base : Base) (scans : List Scan) (tolerant verbose : Bool) :
    (start base scans tolerant verbose).quiet = start base scans tolerant false := quiet_next _

/-- A parser that does not trace has traced nothing. -/
theorem traceLines_quiet (p : Parser) : p.quiet.traceLines = [] := by
  unfold traceLines quiet
  rw [Array.toList_filter, List.filterMap_filter, List.filterMap_eq_nil_iff]
  intro e _
  cases e <;> rfl

/-- A call yields the same without tracing, and says the same but for the trace. -/
theorem quiet_parseFile (p : Parser) :
    p.quiet.parseFile = (p.parseFile.1, p.parseFile.2.quiet) := by
  -- A routine does not look at the trace, so it does the same for a parser that keeps none.
  have hfile : (ParseM.file p.budget).run p.quiet =
      (((ParseM.file p.budget).run p).1, ((ParseM.file p.budget).run p).2.quiet) := by
    rcases (ParseM.routine_file p.budget).simulates unheard (p := p) (q := p.quiet) rfl with ⟨h, h'⟩ | h
    · exact Prod.ext h.symm h'
    · exact h.elim
  have hbudget : p.quiet.budget = p.budget := rfl
  have habortion (q : Parser) : q.quiet.abortion? = q.abortion? := rfl
  unfold parseFile
  rw [hbudget, habortion]
  generalize ParseM.file p.budget = m at hfile ⊢
  cases p.abortion? with
  | some failure => rfl
  | none =>
    simp only [hfile]
    generalize m.run p = r
    obtain ⟨result, q⟩ := r
    cases result with
    | error failure => rfl
    | ok f =>
      simp only [habortion]
      cases q.abortion? <;> rfl

/-- The diagnostics are the same with and without a trace. -/
@[simp] theorem diagnostics_quiet (p : Parser) : p.quiet.diagnostics = p.diagnostics := by
  unfold diagnostics quiet
  rw [Array.toList_filter, List.filterMap_filter]
  congr 1
  funext e
  cases e.diagnostic? <;> rfl

/-- The parser after some calls. -/
def afterCalls : Nat → Parser → Parser
  | 0, p => p
  | calls + 1, p => afterCalls calls p.parseFile.2

/-- Calls do the same with and without a trace. -/
theorem quiet_afterCalls (calls : Nat) (p : Parser) :
    (p.afterCalls calls).quiet = p.quiet.afterCalls calls := by
  induction calls generalizing p with
  | zero => rfl
  | succ calls ih => rw [afterCalls, ih, afterCalls, quiet_parseFile]

/-- Calls leave nothing open. -/
theorem restores_afterCalls (calls : Nat) (p : Parser) : p.Restores (p.afterCalls calls) := by
  induction calls generalizing p with
  | zero => exact .refl p
  | succ calls ih => exact (restores_parseFile p).trans (ih _)

/-- At the start no rules are open. -/
theorem openRules_start (base : Base) (scans : List Scan) (tolerant verbose : Bool) :
    (start base scans tolerant verbose).openRules = 0 := (Restores.next _).openRules

/-- For every source, base and tolerance, and for each call of a parser: with and without tracing it
yields the same result, the same diagnostics, the same number of them and the same first one. Without
tracing it says no trace lines. With tracing it adds lines to the trace that are balanced as they read, each
indented by two characters for every rule that is open, and in the end no rule is open, so that whatever
would be traced next is not indented. -/
theorem trace_faithful_and_harmless (base : Base) (reader : Reader) (tolerant : Bool) (calls : Nat) :
    let untraced := (start base reader.scans tolerant false).afterCalls calls
    let traced := (start base reader.scans tolerant true).afterCalls calls
    (traced.parseFile.1 = untraced.parseFile.1 ∧
      traced.parseFile.2.diagnostics = untraced.parseFile.2.diagnostics ∧
      traced.parseFile.2.count = untraced.parseFile.2.count ∧
      traced.parseFile.2.first? = untraced.parseFile.2.first?) ∧
    untraced.parseFile.2.traceLines = [] ∧
    ∃ lines, traced.parseFile.2.traceLines = traced.traceLines ++ lines ∧ Balanced 0 lines ∧
      traced.openRules = 0 ∧ traced.parseFile.2.openRules = 0 ∧
      ∀ note, (traced.parseFile.2.lineOf note).Reads 0 note.text := by
  intro untraced traced
  -- The untraced parser is the traced one made quiet, at every moment.
  have hsame : untraced = traced.quiet := by
    change _ = (afterCalls _ _).quiet
    rw [quiet_afterCalls, quiet_start]
  have hopen : traced.openRules = 0 := (restores_afterCalls calls _).openRules.trans (openRules_start ..)
  refine ⟨?_, ?_, ?_⟩
  · rw [hsame, quiet_parseFile]
    exact ⟨rfl, (diagnostics_quiet _).symm, rfl, rfl⟩
  · rw [hsame, quiet_parseFile]
    exact traceLines_quiet _
  · obtain ⟨lines, hlines, hbalanced, -⟩ := (restores_parseFile traced).lines
    have hclosed : traced.parseFile.2.openRules = 0 := (restores_parseFile traced).openRules.trans hopen
    exact ⟨lines, hlines, hopen ▸ hbalanced, hopen, hclosed, fun note => hclosed ▸ TraceLine.reads_text _⟩

end Parser

end FrontEnd
