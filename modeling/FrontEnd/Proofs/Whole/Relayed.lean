import FrontEnd.Proofs.Whole.Heard
import FrontEnd.Proofs.Bases.Hearing

/-!
# Errors that the parser passes on

`tokenize` takes one scan after another; the parser takes them as its grammar and its recovery have it. Both
find the same lexical errors: the parser hears the reports of each scan that it reads once and in order
(`Relays`), and a file that starts with its module name is read to the end, whatever is skipped on the way.

A diagnostic that is no syntax error and not about a line directive is such an error. Syntax errors are told
from the others by how their messages start, and no lexical fault starts like that.
-/

namespace FrontEnd

/-! ## What diagnostics are about -/

namespace Cause

/-- Whether the cause is a number in a line directive. -/
def ofDirective : Cause → Bool
  | .badLine _ | .badColumn _ => true
  | .lexical _ | .syntactic .. => false

/-- The lexical fault, if that is the cause. -/
def fault? : Cause → Option LexFault
  | .lexical fault => some fault
  | .badLine _ | .badColumn _ | .syntactic .. => none

/-- What is wrong with a directive is no lexical fault. -/
theorem fault?_eq_none {cause : Cause} (h : cause.ofDirective = true) : cause.fault? = none := by
  cases cause with
  | lexical => cases h
  | badLine | badColumn | syntactic => rfl

end Cause

namespace Diagnostic

/-- How the messages of syntax errors start. -/
def syntaxMarker : String := "syntax error: "

/-- Whether the message starts like that of a syntax error. -/
def isSyntaxError (d : Diagnostic) : Bool := syntaxMarker.toList.isPrefixOf d.message.toList

/-- The lexical error that the diagnostic passes on, if it does. -/
def lexError? (d : Diagnostic) : Option LexError := d.cause.fault?.map (⟨·, d.pos.place⟩)

end Diagnostic

/-- The errors that are told with the scans, in order. -/
def lexErrors (scans : List Scan) : List LexError :=
  scans.flatMap fun scan => scan.reports.filterMap Report.error?

/-- The errors of scans one behind the other. -/
theorem lexErrors_append (scans scans' : List Scan) :
    lexErrors (scans ++ scans') = lexErrors scans ++ lexErrors scans' := List.flatMap_append

/-- The errors of one scan are those among its reports. -/
theorem lexErrors_singleton (scan : Scan) : lexErrors [scan] = scan.reports.filterMap Report.error? :=
  List.append_nil _

/-! ## Messages -/

/-- Neither text starts with the other. -/
def Apart (s t : String) : Prop := ¬s.toList <+: t.toList ∧ ¬t.toList <+: s.toList

instance (s t : String) : Decidable (Apart s t) := inferInstanceAs (Decidable (_ ∧ _))

/-- Texts that are apart stay so whatever comes behind. -/
theorem Apart.append {s t : String} (h : Apart s t) (u : String) : Apart s (t ++ u) := by
  unfold Apart at h ⊢
  rw [String.toList_append]
  refine ⟨fun hs => ?_, fun ht => h.2 ((List.prefix_append _ _).trans ht)⟩
  rcases List.prefix_or_prefix_of_prefix hs (List.prefix_append t.toList u.toList) with hs | ht
  · exact h.1 hs
  · exact h.2 ht

/-- No lexical fault sounds like a syntax error. -/
theorem LexFault.apart_message (fault : LexFault) : Apart Diagnostic.syntaxMarker fault.message := by
  cases fault with
  | reading failure =>
    cases failure with
    | failed message => exact Apart.append (by decide +kernel) message
    | noProgress => decide +kernel
  | unexpectedCharacter c => exact Apart.append (Apart.append (Apart.append (by decide +kernel) _) _) _
  | badEscapeDigit found escape =>
    exact Apart.append (Apart.append (Apart.append (Apart.append (by decide +kernel) _) _) _) _
  | noDigits radix => cases radix <;> decide +kernel
  | badDigit digit radix =>
    exact Apart.append (Apart.append (Apart.append (Apart.append (by decide +kernel) _) _) _) _
  | _ => decide +kernel

/-- Every complaint says that it is about the syntax. -/
theorem Complaint.marked_message (c : Complaint) (found : String) :
    Diagnostic.syntaxMarker.toList <+: (c.message found).toList := by
  have hmarked (text : String) :
      Diagnostic.syntaxMarker.toList <+: (Diagnostic.syntaxMarker ++ text).toList := by
    rw [String.toList_append]
    exact List.prefix_append _ _
  have hunexpected : "syntax error: unexpected " = Diagnostic.syntaxMarker ++ "unexpected " := by decide
  unfold message
  split
  · exact hmarked c.words
  · rw [hunexpected, String.append_assoc, String.append_assoc, String.append_assoc]
    exact hmarked _
  · rw [hunexpected, String.append_assoc, String.append_assoc, String.append_assoc]
    exact hmarked _

namespace Diagnostic

/-- What is neither a syntax error nor about a directive passes on a lexical error. -/
theorem isSome_lexError? (d : Diagnostic) :
    d.lexError?.isSome = (!d.isSyntaxError && !d.cause.ofDirective) := by
  obtain ⟨pos, cause⟩ := d
  cases cause with
  | lexical fault =>
    have hapart : isSyntaxError ⟨pos, .lexical fault⟩ = false := by
      rw [Bool.eq_false_iff, isSyntaxError, ne_eq, List.isPrefixOf_iff_prefix]
      exact fault.apart_message.1
    rw [hapart]
    rfl
  | badLine => exact (Bool.and_false _).symm
  | badColumn => exact (Bool.and_false _).symm
  | syntactic c found =>
    have hmarked : isSyntaxError ⟨pos, .syntactic c found⟩ = true := by
      rw [isSyntaxError, List.isPrefixOf_iff_prefix]
      exact c.marked_message found
    rw [hmarked]
    rfl

/-- A diagnostic that passes on an error is at its place and has its message. -/
theorem eq_of_lexError? {d : Diagnostic} {e : LexError} (h : d.lexError? = some e) :
    d.pos.place = e.place ∧ d.message = e.fault.message := by
  obtain ⟨pos, cause⟩ := d
  cases cause with
  | lexical fault =>
    cases h
    exact ⟨rfl, rfl⟩
  | _ => cases h

/-- The diagnostics that pass on lexical errors say the same as the errors. -/
theorem filter_eq_lexErrors (ds : List Diagnostic) :
    (ds.filter fun d => !d.isSyntaxError && !d.cause.ofDirective).map (fun d => (d.pos.place, d.message)) =
      (ds.filterMap lexError?).map fun e => (e.place, e.fault.message) := by
  induction ds with
  | nil => rfl
  | cons d ds ih =>
    have hsome := d.isSome_lexError?
    cases h : d.lexError? with
    | none =>
      rw [h, Option.isSome_none] at hsome
      rw [List.filter_cons_of_neg (by simp [← hsome]), List.filterMap_cons_none h, ih]
    | some e =>
      rw [h, Option.isSome_some] at hsome
      obtain ⟨hplace, hmessage⟩ := eq_of_lexError? h
      rw [List.filter_cons_of_pos (by simp [← hsome]), List.filterMap_cons_some h, List.map_cons,
        List.map_cons, ih, hplace, hmessage]

end Diagnostic

/-! ## What is said about a report -/

/-- A directive is rejected for a number in it. -/
theorem LineDirective.ofDirective_of_rejected {text : List Char} {offset : Nat} {cause : Cause}
    (h : read text = .rejected offset cause) : cause.ofDirective = true := by
  have hwith {file lineText : List Char} {line : Nat} {column? : Option Nat}
      (h : withLine file lineText line column? = .rejected offset cause) : cause.ofDirective = true := by
    unfold withLine at h
    split at h <;> cases h
    rfl
  -- Every way out of `read` that rejects names a line or a column.
  unfold read at h
  split at h
  · cases h
  · split at h
    · cases h
      rfl
    · split at h
      · exact hwith h
      · split at h
        · exact hwith h
        · split at h
          · exact hwith h
          · cases h
            rfl

/-- What is wrong with a directive is said as such, behind the start of the comment. -/
theorem LineDirective.rejection?_eq_some {place : Place} {comment : String} {base : Base} {d : Diagnostic}
    (h : rejection? place comment base = some d) : d.cause.ofDirective = true ∧ ∃ offset,
      d.pos = ⟨base, ⟨(operandPlace place).line, (operandPlace place).column + offset⟩⟩ := by
  unfold rejection? at h
  split at h
  · cases h
  · split at h
    · next offset cause hread =>
      cases h
      exact ⟨ofDirective_of_rejected hread, offset, rfl⟩
    · cases h
    · cases h

/-- An error is passed on, and nothing that is said about a comment passes on an error. -/
theorem Report.lexError?_diagnostic? (report : Report) (base : Base) :
    (report.diagnostic? base).toList.filterMap Diagnostic.lexError? = report.error?.toList := by
  cases report with
  | error e => rfl
  | directive place comment =>
    change (LineDirective.rejection? place comment base).toList.filterMap _ = []
    cases hd : LineDirective.rejection? place comment base with
    | none => rfl
    | some d =>
      simp [Diagnostic.lexError?, Cause.fault?_eq_none (LineDirective.rejection?_eq_some hd).1]

/-- Of what is said about some reports, the lexical errors are those that are reported. -/
theorem filterMap_diagnosticsOf (base : Base) (reports : List Report) :
    (diagnosticsOf base reports).filterMap Diagnostic.lexError? = reports.filterMap Report.error? := by
  induction reports generalizing base with
  | nil => rfl
  | cons report reports ih =>
    rw [diagnosticsOf, List.filterMap_append, report.lexError?_diagnostic?, ih]
    cases h : report.error? with
    | none => rw [List.filterMap_cons_none h, Option.toList_none, List.nil_append]
    | some e => rw [List.filterMap_cons_some h, Option.toList_some, List.singleton_append]

namespace Parser

variable {p : Parser} {base : Base} {scans : List Scan}

/-- The lexical errors that have been passed on, oldest first. -/
def relayed (p : Parser) : List LexError := p.diagnostics.filterMap Diagnostic.lexError?

/-! ## The parser on its scans -/

/-- The parser is at one of the scans and has passed on the errors in those up to it. -/
def Relays (base : Base) (scans : List Scan) (p : Parser) : Prop :=
  ∃ k, p.AtScan base scans k ∧ p.relayed = lexErrors (scans.take (k + 1))

/-- Whatever move is made, the errors in the scans that are read are passed on. -/
theorem Relays.move (a : Move) (h : p.Relays base scans) : (a.apply p).Relays base scans := by
  obtain ⟨k, hat, hrelayed⟩ := h
  obtain ⟨k', ds, hmove, hat', hsaid⟩ := hat.move a
  refine ⟨k', hat', ?_⟩
  have hall : (a.apply p).relayed = p.relayed ++ ds.filterMap Diagnostic.lexError? := by
    unfold relayed
    rw [hsaid, List.filterMap_append]
  rw [hall, hrelayed]
  cases hmove with
  | nothing => exact List.append_nil _
  | here => exact List.append_nil _
  | lookedBack => exact List.append_nil _
  | heard hk =>
    rw [filterMap_diagnosticsOf, List.take_add_one (i := k + 1), hk, Option.toList_some, lexErrors_append,
      lexErrors_singleton]

/-- At the start the errors in the first scan have been passed on. -/
theorem relays_start (base : Base) (scan : Scan) (rest : List Scan) (verbose : Bool) :
    (start base (scan :: rest) true verbose).Relays base (scan :: rest) := by
  obtain ⟨hat, hsaid⟩ := atScan_start base scan rest verbose
  refine ⟨0, hat, ?_⟩
  unfold relayed
  rw [hsaid, filterMap_diagnosticsOf]
  exact (lexErrors_singleton scan).symm

/-! ## Whole runs -/

/-- At a scan the token is that of its lexeme. -/
theorem AtScan.token_eq {k : Nat} (h : p.AtScan base scans k) :
    (scans[k]?).map (·.lexeme.token) = some p.token := by
  obtain ⟨scan, hk, hcurrent⟩ := h.current
  rw [hk, token, aborted, h.tolerant, hcurrent]
  rfl

/-- A parser that starts at a module name yields a tree. -/
theorem ok_file (h : p.token = .keyword .moduleWord) (budget : Nat) :
    ∃ f, ((ParseM.file budget).run p).1 = .ok f := by
  have hentered : (Move.apply (.enter .file) p).token = .keyword .moduleWord := by
    rw [← h]
    unfold Move.apply trace
    dsimp only
    split <;> rfl
  unfold ParseM.file
  rw [ParseM.run_traced]
  simp only [ParseM.run_bind, ParseM.run_here, ParseM.run_current, ParseM.run_got, if_pos hentered, if_true]
  exact ⟨_, rfl⟩

/-- A tolerant run over scans that start with `module` passes on the errors of all of them. -/
theorem relayed_parseFile (base : Base) (r : Reader) (verbose : Bool)
    (h : (r.scans.map Scan.lexeme).head?.map Lexeme.token = some (.keyword .moduleWord)) :
    (start base r.scans true verbose).parseFile.2.relayed = lexErrors r.scans := by
  have hends := ends_start base r true verbose
  obtain ⟨hf, hs⟩ := books_start base r.scans true verbose
  have hne : r.scans ≠ [] := fun hnil => nomatch hnil ▸ r.complete_scans
  obtain ⟨scan, rest, hscans⟩ := List.exists_cons_of_ne_nil hne
  rw [hscans] at hends hf hs h ⊢
  have hrelays := relays_start base scan rest verbose
  obtain ⟨hat, -⟩ := atScan_start base scan rest verbose
  generalize start base (scan :: rest) true verbose = p at hends hrelays hat hf hs
  obtain ⟨f, hok⟩ := ok_file (Option.some.inj (hat.token_eq.symm.trans h)) p.budget
  have hparse := parseFile_of_tolerant hat.tolerant
  have hupcoming : p.parseFile.2.upcoming = [] :=
    upcoming_of_ok hends hf hs hat.tolerant (by rw [hparse, hok])
  rw [hparse] at hupcoming ⊢
  obtain ⟨k, hat', hrelayed⟩ := (ParseM.routine_file p.budget).preserves (fun a _ => Relays.move a) hrelays
  have hlast : (scan :: rest).length ≤ k + 1 := List.drop_eq_nil_iff.mp (hat'.upcoming.symm.trans hupcoming)
  rw [hrelayed, List.take_of_length_le hlast]

end Parser

/-- If the first token of a text is `module`, then what a tolerant parser says about it, without the syntax
errors and what line directives have wrong, is exactly what `tokenize` finds wrong with it, in the same
order, at the same places and in the same words, whatever the parser skips or stops at. -/
theorem relayed_errors (filename text : String)
    (h : (tokenize text).1.head?.map Lexeme.token = some (.keyword .moduleWord)) :
    ((parseTolerantly filename text).2.filter fun d => !d.isSyntaxError && !d.cause.ofDirective).map
        (fun d => (d.pos.place, d.message)) =
      (tokenize text).2.map fun e => (e.place, e.fault.message) := by
  rw [Diagnostic.filter_eq_lexErrors]
  have hrelayed := Parser.relayed_parseFile (.file filename) (Reader.ofBytes text.toUTF8) false h
  exact congrArg (List.map fun e => (e.place, e.fault.message)) hrelayed

/-- Lexical errors in what recovery skips are passed on, and those in what has been read already are not
repeated. -/
theorem relayed_errors_skipped :
    let text := "module m\nvar ) '' 0x \"\\q\"\n//line f:0\nx \x7b 08 + @\n"
    (tokenize text).1.head?.map Lexeme.token = some (.keyword .moduleWord) ∧
      ((parseTolerantly "f" text).2.filter fun d => !d.isSyntaxError && !d.cause.ofDirective).map
          (fun d => (d.pos.place, d.message)) =
        (tokenize text).2.map fun e => (e.place, e.fault.message) := by
  intro text
  have h : (tokenize text).1.head?.map Lexeme.token = some (.keyword .moduleWord) := by decide +kernel
  exact ⟨h, relayed_errors "f" text h⟩

end FrontEnd
