import FrontEnd.LineDirective
import FrontEnd.Scanner
import FrontEnd.Trace
import FrontEnd.Tree

/-!
# Parsers

A `Parser` reads the scans of a source one after another. It holds the current lexeme, those to come,
and the base against which positions are reported, which line directives replace. What it has to say,
diagnostics and trace lines, goes into a log in the order in which it arises.

A tolerant parser goes on after a diagnostic. One that is not is finished by its first: from then on
it sees the end of the input wherever it looks, and neither reads nor complains any more.

The end of the input is final: reading on from it changes nothing. At the end nothing is complained
about that could be a consequence of an earlier diagnostic.

Grammar rules are actions of `ParseM`. A rule that may recur takes a budget, one more than what it
hands to the rules inside it; one that has nothing left to hand on gives up and marks the parser as
starved.
-/

namespace FrontEnd

/-- What a parser says. -/
inductive Event where
  | diagnostic (d : Diagnostic)
  | trace (line : TraceLine)
deriving DecidableEq, Repr, Inhabited

namespace Event

/-- The diagnostic in an event, if it is one. -/
def diagnostic? : Event → Option Diagnostic
  | .diagnostic d => some d
  | .trace _ => none

/-- The trace line in an event, if it is one. -/
def traceLine? : Event → Option TraceLine
  | .diagnostic _ => none
  | .trace line => some line

end Event

/-- The state of a run over the scans of a source. -/
structure Parser where
  current : Lexeme
  upcoming : List Scan
  /-- the base in effect -/
  base : Base
  /-- whether to go on after a diagnostic -/
  tolerant : Bool
  /-- whether to trace -/
  verbose : Bool
  first? : Option Diagnostic
  /-- the number of diagnostics -/
  count : Nat
  /-- the number of function bodies around the current lexeme -/
  functions : Nat
  /-- the number of rules that have been entered and not left -/
  openRules : Nat
  /-- the source line of the last trace line -/
  tracedLine? : Option Nat
  /-- the number of groups -/
  groups : Nat
  /-- what has been said, oldest first -/
  log : Array Event
  /-- whether a rule has run out of its budget -/
  starved : Bool
deriving Inhabited

namespace Parser

/-! ## Looking -/

/-- Whether the run has been finished by a diagnostic. -/
def aborted (p : Parser) : Bool := !p.tolerant && p.first?.isSome

/-- The current token. -/
def token (p : Parser) : Token := if p.aborted then .eof else p.current.token

/-- The operator at the current token, if it is an operator that may be binary or unary. -/
def operator? (p : Parser) : Option Operator :=
  if p.token = .op ∨ p.token = .star then p.current.op? else none

/-- The position of a place. -/
def posAt (p : Parser) (place : Place) : Pos := ⟨p.base, place⟩

/-- The position of the current token. -/
def here (p : Parser) : Pos := p.posAt p.current.place

/-! ## Speaking -/

/-- Say what the matter is at a position. Without tolerance nobody hears it, but it is kept as the
reason for the end. -/
def diagnose (p : Parser) (pos : Pos) (cause : Cause) : Parser :=
  { p with
    count := p.count + 1
    first? := p.first?.or (some ⟨pos, cause⟩)
    log := if p.tolerant then p.log.push (.diagnostic ⟨pos, cause⟩) else p.log }

/-- Add a line to the trace. -/
def trace (p : Parser) (note : TraceNote) : Parser :=
  if p.verbose then
    let line := p.current.place.line
    let line? := if p.tracedLine? = some line then none else some line
    { p with tracedLine? := some line, log := p.log.push (.trace ⟨line?, p.openRules, note⟩) }
  else p

/-- Complain about the syntax at a position. -/
def complainAt (p : Parser) (pos : Pos) (complaint : Complaint) : Parser :=
  let p := p.trace (.remark ("syntax error: " ++ complaint.words))
  -- At the end, whatever is missing may be missing for an earlier reason.
  if p.token = .eof && p.first?.isSome then p
  else p.diagnose pos (.syntactic complaint p.current.describe)

/-! ## Reading -/

/-- Follow a comment that may be a line directive. -/
def direct (p : Parser) (place : Place) (comment : String) : Parser :=
  match LineDirective.candidate? place comment with
  | none => p
  | some candidate =>
    match LineDirective.read candidate.text with
    | .unrelated => p
    | .rejected offset cause =>
      let operand := LineDirective.operandPlace place
      p.diagnose (p.posAt ⟨operand.line, operand.column + offset⟩) cause
    | .accepted directive => { p with base := directive.toBase candidate.anchor p.base }

/-- Take note of a report. -/
def hear (p : Parser) (report : Report) : Parser :=
  if p.aborted then p
  else
    match report with
    | .error e => p.diagnose (p.posAt e.place) (.lexical e.fault)
    | .directive place comment => p.direct place comment

/-- Go to the next lexeme. -/
def next (p : Parser) : Parser :=
  if p.aborted then p
  else
    match p.upcoming with
    | [] => p
    -- What was reported on the way to a lexeme comes before anything that is said about it.
    | scan :: rest => scan.reports.foldl hear { p with current := scan.lexeme, upcoming := rest }

/-- Keywords that end a search for something to go on with, inside functions. -/
def stopWords : List Token := [.keyword .ifWord, .keyword .varWord]

/-- Whether a search for one of `follow` ends at the current token. -/
def isStop (follow : List Token) (p : Parser) : Bool :=
  p.token = .eof || follow.contains p.token || (0 < p.functions && stopWords.contains p.token)

/-- A diagnostic takes no scan. -/
@[simp] theorem upcoming_diagnose (p : Parser) (pos : Pos) (cause : Cause) :
    (p.diagnose pos cause).upcoming = p.upcoming := rfl

/-- Following a directive takes no scan. -/
@[simp] theorem upcoming_direct (p : Parser) (place : Place) (comment : String) :
    (p.direct place comment).upcoming = p.upcoming := by
  unfold direct
  split
  · rfl
  · split <;> rfl

/-- Hearing of what happened under way takes no scan. -/
@[simp] theorem upcoming_hear (p : Parser) (report : Report) :
    (p.hear report).upcoming = p.upcoming := by
  unfold hear
  split
  · rfl
  · split
    · rfl
    · exact p.upcoming_direct _ _

/-- Hearing of everything takes no scan. -/
@[simp] theorem upcoming_foldl_hear (reports : List Report) (p : Parser) :
    (reports.foldl hear p).upcoming = p.upcoming := by
  induction reports generalizing p with
  | nil => rfl
  | cons r rest ih => rw [List.foldl_cons, ih, upcoming_hear]

/-- Reading on takes the next scan, except after an abort. -/
theorem upcoming_next (p : Parser) (h : p.aborted = false) : p.next.upcoming = p.upcoming.tail := by
  unfold next
  rw [if_neg (by simp [h])]
  split
  · next h => simp [h]
  · next h => simp [h]

/-- A parser that is not at the end has not been finished. -/
theorem aborted_of_token_ne_eof {p : Parser} (h : p.token ≠ .eof) : p.aborted = false := by
  unfold token at h
  split at h
  · exact absurd rfl h
  · next ha => simpa using ha

/-- Go to the first token at which a search for one of `follow` ends. -/
def skipTo (follow : List Token) (p : Parser) : Parser :=
  if p.isStop follow || p.upcoming.isEmpty then p else skipTo follow p.next
termination_by p.upcoming.length
decreasing_by
  next h =>
  simp only [isStop, Bool.or_eq_true, not_or, decide_eq_true_eq] at h
  rw [upcoming_next p (aborted_of_token_ne_eof h.1.1.1)]
  cases hu : p.upcoming with
  | nil => simp [hu] at h
  | cons _ _ => simp

/-- Skip tokens in search of one of `follow`; with none to search for, skip one token. -/
def recover (follow : List Token) (p : Parser) : Parser :=
  let p := p.trace (.remark ("advance [" ++ ", ".intercalate (follow.map Token.className) ++ "]"))
  if follow.isEmpty then
    if p.token = .eof then p else p.next
  else p.skipTo follow

/-- The parser at the first lexeme of some scans. -/
def start (base : Base) (scans : List Scan) (tolerant verbose : Bool) : Parser :=
  next
    { current := .beforeAll
      upcoming := scans
      base
      tolerant
      verbose
      first? := none
      count := 0
      functions := 0
      openRules := 0
      tracedLine? := none
      groups := 0
      log := #[]
      starved := false }

end Parser

/-! ## Actions -/

/-- What a grammar rule does: it changes the parser and yields a result. -/
abbrev ParseM := StateM Parser

namespace ParseM

/-- The current token. -/
def token : ParseM Token := do return (← get).token

/-- The position of the current token. -/
def here : ParseM Pos := do return (← get).here

/-- The current lexeme. -/
def current : ParseM Lexeme := do return (← get).current

/-- Go to the next lexeme. -/
def next : ParseM Unit := modify Parser.next

/-- Complain about the syntax at a position. -/
def complainAt (pos : Pos) (complaint : Complaint) : ParseM Unit :=
  modify (·.complainAt pos complaint)

/-- Complain about the syntax at the current token. -/
def complain (complaint : Complaint) : ParseM Unit := do
  complainAt (← here) complaint

/-- Skip tokens in search of one of `follow`; with none to search for, skip one token. -/
def recover (follow : List Token) : ParseM Unit := modify (Parser.recover follow)

/-- Note something in the trace. -/
def remark (text : String) : ParseM Unit := modify (·.trace (.remark text))

/-- Give up for want of a budget. -/
def starve : ParseM Unit := modify fun p => { p with starved := true }

/-- Enter a rule, apply it, and leave it. -/
def traced (rule : Rule) (action : ParseM α) : ParseM α := do
  modify fun p => { p.trace (.enter rule) with openRules := p.openRules + 1 }
  let x ← action
  modify fun p => { p with openRules := p.openRules - 1 }
  modify (·.trace .leave)
  return x

/-- Pass over the token if it is the current one; whether it was. -/
def got (t : Token) : ParseM Bool := do
  if (← token) = t then
    next
    return true
  else return false

/-- Pass over the token, or complain that it is not there. -/
def want (t : Token) : ParseM Unit := do
  unless ← got t do complain (.expecting (.token t))

/-- Pass over an equals sign, or over a definition sign with a complaint; whether there was one. -/
def gotAssign : ParseM Bool := do
  match ← token with
  | .define =>
    complain (.expecting (.token .assign))
    next
    return true
  | .assign =>
    next
    return true
  | _ => return false

/-- The number of a new group. -/
def newGroup : ParseM Nat := do
  let p ← get
  set { p with groups := p.groups + 1 }
  return p.groups

/-- A possibly empty list whose opening token has been passed, through its closing token. The
separator may be left out before the closing token. -/
def list (kind : ListKind) (element : ParseM α) : Nat → ParseM (List α)
  | 0 => do
    starve
    return []
  | budget + 1 => do
    let t ← token
    if t = .eof ∨ t = kind.closer then
      want kind.closer
      return []
    else
      let x ← element
      if ← got kind.separator then return x :: (← list kind element budget)
      else if (← token) = kind.closer then return x :: (← list kind element budget)
      else
        complain (.inList kind)
        recover [.rparen, .rbrack, .rbrace]
        -- Any other closing token is left to a rule around the list.
        if (← token) = kind.closer then return x :: (← list kind element budget)
        else return [x]

/-! ## Names and literals -/

/-- A name, or a placeholder with a complaint. -/
def ident : ParseM Ident := do
  let pos ← here
  if (← token) = .name then
    let lexeme ← current
    next
    return ⟨pos, lexeme.literal⟩
  else
    complain (.expecting .name)
    recover []
    return ⟨pos, "_"⟩

/-- The current token, which is a literal. -/
def literal : ParseM Literal := do
  let pos ← here
  let lexeme ← current
  next
  return ⟨pos, lexeme.literal, lexeme.kind, lexeme.bad⟩

/-- A hole at the current token. -/
def hole : ParseM Expr := do return .bad (← here)

end ParseM

end FrontEnd
