import FrontEnd.Proofs.Endings.Rules
import FrontEnd.Proofs.Whole.Accepted

/-!
# Line ends do not matter

A file that is accepted with newlines is accepted with a carriage return before each of them, and its tree
is the same, with all positions and bases (`parseText_returned`). This leaves out NUL characters, which are
not always noticed, and raw strings, which keep the carriage returns.
-/

namespace FrontEnd

/-- If nothing is reported about a text, there is a byte order mark at most at its start. -/
theorem Reader.no_mark_of_calm {text : String} (h : (Reader.ofBytes text.toUTF8).Calm) :
    ∀ c ∈ text.toList.tail, c ≠ CharStream.byteOrderMark := by
  obtain ⟨text', hr, htail, -⟩ := (Reader.ofBytes text.toUTF8).exists_text fun scan hscan e he => h scan hscan _ he
  have hbytes : text.toUTF8 = text'.toUTF8 := hr.bytes_eq (Reader.delivers_ofBytes text.toUTF8).hands
  rwa [String.toByteArray_inj.mp hbytes]

namespace Parser

open ParseM

variable {p q : Parser} {f : File}

/-- Parsers start together, at the same lexeme, unless the one has something to say about it. -/
theorem together_start {scans scans' : List Scan} (hcomplete : Scanner.Complete scans)
    (h : Carried .eof scans scans') (base : Base) (tolerant : Bool) :
    (start base scans tolerant false).HasSaid ∨
      (start base scans tolerant false).Together (start base scans' tolerant false) ∧
        (start base scans' tolerant false).current = (start base scans tolerant false).current := by
  have haborted (upcoming : List Scan) : aborted
      { current := .beforeAll, upcoming, base, tolerant, verbose := false, first? := none, count := 0,
        functions := 0, openRules := 0, tracedLine? := none, groups := 0, log := #[], starved := false } =
      false := Bool.and_false _
  -- The scans start out alike, or the first one has told a fault.
  cases h with
  | nil => cases hcomplete
  | cons hlexeme hgist hrest =>
    unfold start
    rw [Together.next_of_cons (haborted _) rfl, Together.next_of_cons (haborted _) rfl]
    refine (Together.of_scan ⟨rfl, rfl⟩ rfl ⟨_, _, rfl⟩ hlexeme hgist hrest
      (closed_of_complete hcomplete)).imp_right fun ⟨htogether, halike⟩ => ⟨htogether, ?_⟩
    rcases halike with heq | ⟨hends, -⟩
    · exact heq
    · cases hends
  | faulty he =>
    unfold start
    rw [Together.next_of_cons (haborted _) rfl]
    exact .inl (hasSaid_foldl_hear he id)

/-- From parsers that are together, files are read alike if nothing is said. -/
theorem run_file_of_together (h : p.Together q) (hcurrent : q.current = p.current) (hq : q.Ends)
    (hf : p.functions = 0) (hs : p.starved = false) (hsaid : ¬((file p.budget).run p).2.HasSaid) :
    ((file q.budget).run q).1 = ((file p.budget).run p).1 ∧ ((file q.budget).run q).2.first? = none := by
  have hf' : q.functions = 0 := by
    obtain ⟨_, _, hbooks⟩ := h.books
    rw [hbooks]
    exact hf
  -- Either may have the larger budget, but both need less.
  let n := max p.budget q.budget
  have hp := alike_file h.ends hf p.le_budget (Nat.le_trans p.le_budget (Nat.le_max_left _ q.budget))
  have hq := alike_file hq hf' q.le_budget (Nat.le_trans q.le_budget (Nat.le_max_right p.budget _))
  have hstarved := hp.reaches.starved
  rw [hp.run_eq] at hsaid hstarved ⊢
  rw [hq.run_eq]
  rcases (agrees_file n).run p q h hcurrent with (hsaid' | hstarved') | ⟨hsame, htogether, -⟩
  · exact absurd hsaid' hsaid
  · rw [hstarved, hs] at hstarved'
    cases hstarved'
  · exact ⟨hsame, htogether.quiet_right.first?⟩

/-- With nothing said, a tolerant parser reads the same from scans that are carried over. -/
theorem accepts_carried {r r' : Reader} (h : Carried .eof r.scans r'.scans) (base : Base)
    (haccepts : (start base r.scans true false).Accepts) :
    (start base r'.scans true false).Accepts ∧
      (start base r'.scans true false).parseFile.1 = (start base r.scans true false).parseFile.1 := by
  have hstart := together_start r.complete_scans h base true
  have hends' := ends_start base r' true false
  have hlogs := logsFirst_start base r.scans false
  have hlogs' := logsFirst_start base r'.scans false
  have ht : (start base r.scans true false).tolerant = true := (lasting_tolerant true).next rfl
  have ht' : (start base r'.scans true false).tolerant = true := (lasting_tolerant true).next rfl
  obtain ⟨hf, hs⟩ := books_start base r.scans true false
  generalize start base r.scans true false = p at hstart hlogs ht hf hs haccepts ⊢
  generalize start base r'.scans true false = q at hstart hends' hlogs' ht' ⊢
  -- That the first run says nothing is the premise under which the two stay together to the end.
  obtain ⟨⟨f, hok⟩, hnone⟩ := haccepts
  rw [parseFile_of_tolerant ht] at hok hnone
  have hfirst : ((file p.budget).run p).2.first? = none :=
    (LogsFirst.diagnostics_eq_nil (lasting_logsFirst.run (routine_file _) hlogs)
      ((lasting_tolerant true).run (routine_file _) ht)).mp hnone
  have hsaid : ¬((file p.budget).run p).2.HasSaid := by
    unfold HasSaid
    rw [hfirst]
    exact Bool.false_ne_true
  rcases hstart with hsaid' | ⟨htogether, hcurrent⟩
  · exact absurd (lasting_hasSaid.run (routine_file _) hsaid') hsaid
  · obtain ⟨hsame, hfirst'⟩ := run_file_of_together htogether hcurrent hends' hf hs hsaid
    -- Then neither does the second, and both give the same file.
    have hnone' := (LogsFirst.diagnostics_eq_nil (lasting_logsFirst.run (routine_file q.budget) hlogs')
      ((lasting_tolerant true).run (routine_file _) ht')).mpr hfirst'
    unfold Accepts
    rw [parseFile_of_tolerant ht, parseFile_of_tolerant ht']
    exact ⟨⟨⟨f, hsame.trans hok⟩, hnone'⟩, hsame⟩

end Parser

/-- Line ends do not matter. A text with no carriage return, no raw string and no NUL character that is
accepted is accepted with a carriage return before every newline as well, and the tree is the same, with all
its positions and their bases. -/
theorem parseText_returned {filename text : String} {f : File} (hreturn : '\r' ∉ text.toList)
    (hnul : '\x00' ∉ text.toList)
    (hraw : ∀ scan ∈ (Reader.ofBytes text.toUTF8).scans, scan.lexeme.isRawString = false)
    (h : parseText filename text = .ok f) : parseText filename (returned text) = .ok f := by
  unfold parseText parse at h ⊢
  rcases Parser.hasty_parseFile_cases (.file filename) (Reader.ofBytes text.toUTF8).scans false with
    ⟨hsame, hnone⟩ | ⟨d, -, haborted⟩
  · rw [h] at hsame
    have haccepts : (Parser.start (.file filename) (Reader.ofBytes text.toUTF8).scans true false).Accepts :=
      ⟨⟨f, hsame.symm⟩, hnone⟩
    have hmark := Reader.no_mark_of_calm (Parser.calm_of_accepts haccepts)
    have hcarried := carried_scans hreturn hnul hmark hraw
    obtain ⟨haccepts', hsame'⟩ := Parser.accepts_carried hcarried (.file filename) haccepts
    rw [Parser.hasty_parseFile_of_accepts haccepts', hsame', hsame]
  · rw [h] at haborted
    cases haborted

/-- Blank lines, comments over lines and at the ends of lines, and a line directive, which applies to what is
below it. -/
theorem parseText_returned_directive :
    let text := "module m // one\n\n/* two\n */ //three\n//line x.jd:70\nvar x int\nfunc f() \x7b\n\tx = 1\n\x7d\n"
    '\r' ∉ text.toList ∧ '\x00' ∉ text.toList ∧
      (∀ scan ∈ (Reader.ofBytes text.toUTF8).scans, scan.lexeme.isRawString = false) ∧
      ∃ f, parseText "m.jd" text = .ok f ∧ parseText "m.jd" (returned text) = .ok f := by
  intro text
  have hreturn : '\r' ∉ text.toList := by decide +kernel
  have hnul : '\x00' ∉ text.toList := by decide +kernel
  have hraw : ∀ scan ∈ (Reader.ofBytes text.toUTF8).scans, scan.lexeme.isRawString = false := by
    decide +kernel
  have hok : (parseText "m.jd" text).isOk = true := by decide +kernel
  obtain ⟨f, hf⟩ := Parser.exists_eq_ok hok
  exact ⟨hreturn, hnul, hraw, f, hf, parseText_returned hreturn hnul hraw hf⟩

end FrontEnd
