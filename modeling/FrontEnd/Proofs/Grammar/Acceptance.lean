import FrontEnd.Proofs.Grammar.Derived.Trees
import FrontEnd.Proofs.Grammar.Derived.Words
import FrontEnd.Proofs.Grammar.Spelled.File
import FrontEnd.Proofs.Grammar.Taken.File
import FrontEnd.Proofs.Malformed
import FrontEnd.Proofs.Progress

/-!
# What the parser accepts

A tolerant parser accepts a source if it yields a tree and says nothing. Where the scanner and the
line directives have nothing to say either, it accepts exactly what the productions derive
(`accepts_iff_derives`). One half of this is that whatever it has read is spelled by the tree that it
yields, the other that whatever spells a tree is taken as that tree; in between is that the lexemes that
spell a tree are those that are derived.
-/

namespace FrontEnd

/-- The lexemes of a reader, without the end of the input. -/
def Reader.lexemes (r : Reader) : List Lexeme := (r.scans.map Scan.lexeme).dropLast

/-- The scanner and the line directives have nothing to say about what the reader delivers. -/
def Reader.Calm (r : Reader) : Prop := ∀ scan ∈ r.scans, ∀ report ∈ scan.reports, report.Calm

/-- The end of the input comes last, and only last. -/
theorem Scanner.Complete.exists_append {scans : List Scan} (h : Scanner.Complete scans) :
    ∃ ts e, scans.map Scan.lexeme = ts ++ [e] ∧ e.token = .eof ∧ ∀ l ∈ ts, l.token ≠ .eof := by
  induction h with
  | last he => exact ⟨[], _, rfl, he, by simp⟩
  | cons hne _ ih =>
    obtain ⟨ts, e, hts, he, hall⟩ := ih
    refine ⟨_ :: ts, e, by rw [List.map_cons, hts, List.cons_append], he, ?_⟩
    intro l hl
    rcases List.mem_cons.mp hl with rfl | hl
    · exact hne
    · exact hall l hl

namespace Reader

variable {r : Reader}

/-- The scans of a reader are its lexemes and then the end. -/
theorem lexemes_append (r : Reader) :
    ∃ e, r.scans.map Scan.lexeme = r.lexemes ++ [e] ∧ e.token = .eof ∧
      ∀ l ∈ r.lexemes, l.token ≠ .eof := by
  obtain ⟨ts, e, hts, he, hall⟩ := r.complete_scans.exists_append
  have hr : r.lexemes = ts := by rw [lexemes, hts, List.dropLast_concat]
  rw [hr]
  exact ⟨e, hts, he, hall⟩

/-- Where nothing is wrong, every lexeme is fine. -/
theorem Calm.fine (h : r.Calm) : ∀ l ∈ r.lexemes, l.Fine := by
  intro l hl
  obtain ⟨e, hscans, -, hall⟩ := r.lexemes_append
  have hmem : l ∈ r.scans.map Scan.lexeme := by
    rw [hscans]
    exact List.mem_append_left _ hl
  obtain ⟨scan, hscan, rfl⟩ := List.mem_map.mp hmem
  exact ⟨hall _ hl, r.bad_eq_false hscan fun e he => h scan hscan _ he⟩

/-- Where nothing is reported, nothing is wrong. -/
theorem calm_of_reports_eq_nil (h : r.scans.flatMap Scan.reports = []) : r.Calm := by
  intro scan hscan report hreport
  rw [List.flatMap_eq_nil_iff.mp h scan hscan] at hreport
  cases hreport

/-- A parser starts at the lexemes of its reader. -/
theorem Calm.at_start (h : r.Calm) (base : Base) (tolerant verbose : Bool) :
    (Parser.start base r.scans tolerant verbose).At 0 r.lexemes := by
  obtain ⟨e, hscans, he, -⟩ := r.lexemes_append
  exact Parser.at_start hscans he h.fine h base tolerant verbose

end Reader

namespace Parser

variable {p : Parser} {ts : List Lexeme} {f : File}

/-- Who has logged what was said first has said nothing if the log has no diagnostics. -/
theorem LogsFirst.diagnostics_eq_nil (h : p.LogsFirst) (ht : p.tolerant = true) :
    p.diagnostics = [] ↔ p.first? = none := by
  rw [← List.head?_eq_none_iff, h ht]

/-- A tree that has been read without a word is spelled by the lexemes. -/
theorem At.spells (h : p.At 0 ts) (ht : p.tolerant = true) (hlogs : p.LogsFirst)
    (hok : p.parseFile.1 = .ok f) (hnone : p.parseFile.2.diagnostics = []) : SpellsFile f ts := by
  rw [parseFile_of_tolerant ht] at hok hnone
  have hroutine := ParseM.routine_file p.budget
  have hfirst : ((ParseM.file p.budget).run p).2.first? = none :=
    (LogsFirst.diagnostics_eq_nil (lasting_logsFirst.run hroutine hlogs)
      ((lasting_tolerant true).run hroutine ht)).mp hnone
  have hbudget : 16 * (ts.length : Int) + 1 ≤ p.budget := by
    have := h.budget_eq
    omega
  have hreads := ParseM.reads_file (P := fun _ us => us = ts) hbudget p
    (.inr ⟨0, ts, ⟨rfl, rfl⟩, Int.le_refl _, h⟩)
  -- Nothing was said and no error returned, which leaves the third case, the file that was read.
  rcases hreads with hsaid | ⟨_, _, ⟨pos, found, herror⟩ | ⟨-, f', _, hf, rfl, hspells⟩, -⟩
  · unfold HasSaid at hsaid
    rw [hfirst] at hsaid
    cases hsaid
  · rw [hok] at herror
    cases herror
  · rw [hok] at hf
    cases hf
    exact hspells

/-- Lexemes that spell a tree are read as that tree, without a word. -/
theorem At.parses (h : p.At 0 ts) (ht : p.tolerant = true) (hlogs : p.LogsFirst)
    (hf : SpellsFile f ts) : ∃ f', p.parseFile.1 = .ok f' ∧ f'.unplaced = f.unplaced ∧
      p.parseFile.2.diagnostics = [] := by
  rw [parseFile_of_tolerant ht]
  have hroutine := ParseM.routine_file p.budget
  have hbudget : 16 * ts.length ≤ p.budget := by
    have := h.budget_eq
    omega
  obtain ⟨g, htakes⟩ := ParseM.takes_file hf hbudget
  obtain ⟨hat, f', hok, heq⟩ := htakes.run h
  have hnone := (LogsFirst.diagnostics_eq_nil (lasting_logsFirst.run hroutine hlogs)
    ((lasting_tolerant true).run hroutine ht)).mpr hat.first?
  exact ⟨f', hok, heq, hnone⟩

/-- The parser yields a tree and says nothing. -/
def Accepts (p : Parser) : Prop := (∃ f, p.parseFile.1 = .ok f) ∧ p.parseFile.2.diagnostics = []

/-- A parser accepts exactly the lexemes that spell a file. -/
theorem At.accepts_iff (h : p.At 0 ts) (ht : p.tolerant = true) (hlogs : p.LogsFirst) :
    p.Accepts ↔ ∃ f, SpellsFile f ts := by
  constructor
  · rintro ⟨⟨f, hok⟩, hnone⟩
    exact ⟨f, h.spells ht hlogs hok hnone⟩
  · rintro ⟨f, hf⟩
    obtain ⟨f', hok, -, hnone⟩ := h.parses ht hlogs hf
    exact ⟨⟨f', hok⟩, hnone⟩

/-- A tolerant parser accepts exactly what the productions derive. -/
theorem accepts_iff_derives (r : Reader) (base : Base) (verbose : Bool) (h : r.Calm) :
    (start base r.scans true verbose).Accepts ↔ Derives .closed (.ref .file) r.lexemes [] := by
  have ht : (start base r.scans true verbose).tolerant = true :=
    (lasting_tolerant true).next rfl
  rw [(h.at_start base true verbose).accepts_iff ht (logsFirst_start base r.scans verbose)]
  constructor
  · rintro ⟨f, hf⟩
    exact derives_of_spellsFile hf
  · exact exists_spellsFile_of_derives

/-- What has been successful has a result. -/
theorem exists_eq_ok {ε α : Type} {x : Except ε α} (h : x.isOk = true) : ∃ a, x = .ok a := by
  cases x with
  | error e => cases h
  | ok a => exact ⟨a, rfl⟩

/-- Before a block, a slice with elements is fine. -/
theorem accepts_iff_derives_slice :
    let r := Reader.ofBytes "module m\n\nfunc f() { while []T{} { } }\n".toUTF8
    r.Calm ∧ (start (.file "") r.scans true false).Accepts ∧
      Derives .closed (.ref .file) r.lexemes [] := by
  intro r
  have hr : r.Calm := Reader.calm_of_reports_eq_nil (by decide +kernel)
  have hok : (start (.file "") r.scans true false).parseFile.1.isOk = true := by decide +kernel
  have hnone : (start (.file "") r.scans true false).parseFile.2.diagnostics = [] := by
    decide +kernel
  have haccepts : (start (.file "") r.scans true false).Accepts := ⟨exists_eq_ok hok, hnone⟩
  exact ⟨hr, haccepts, (accepts_iff_derives r (.file "") false hr).mp haccepts⟩

/-- A brace after a slice type belongs to the slice. Productions for which it may belong to a block
derive more than is accepted. -/
theorem not_accepts_of_derives_free :
    let r := Reader.ofBytes "module m\n\nfunc f() { while []T { } }\n".toUTF8
    r.Calm ∧ Derives .free (.ref .file) r.lexemes [] ∧
      ¬(start (.file "") r.scans true false).Accepts := by
  intro r
  have hr : r.Calm := Reader.calm_of_reports_eq_nil (by decide +kernel)
  have hsaid : (start (.file "") r.scans true false).parseFile.2.diagnostics ≠ [] := by
    decide +kernel
  have htokens : r.lexemes.map Lexeme.token = [.keyword .moduleWord, .name, .semi,
      .keyword .funcWord, .name, .lparen, .rparen, .lbrace, .keyword .whileWord, .lbrack, .rbrack,
      .name, .lbrace, .rbrace, .rbrace, .semi] := by decide +kernel
  refine ⟨hr, ?_, fun h => hsaid h.2⟩
  generalize r.lexemes = ts at htokens
  -- The lexemes by name, one for each token of the text.
  simp only [List.map_eq_cons_iff, List.map_eq_nil_iff] at htokens
  obtain ⟨k, _, rfl, hk, n, _, rfl, hn, s, _, rfl, hs, fn, _, rfl, hfn, f, _, rfl, hf, lp, _, rfl,
    hlp, rp, _, rfl, hrp, lb, _, rfl, hlb, w, _, rfl, hw, lk, _, rfl, hlk, rk, _, rfl, hrk, t, _,
    rfl, ht, lb', _, rfl, hlb', rb', _, rfl, hrb', rb, _, rfl, hrb, s', _, rfl, hs', rfl⟩ := htokens
  -- From the inside out: the slice type as a condition, the loop around it, the function around the loop.
  have htype : Derives .free (.ref .type) (t :: lb' :: rb' :: rb :: [s']) (lb' :: rb' :: rb :: [s']) :=
    .ref (.orLeft (.tok ht))
  have hslice := ((Derives.tok hlk).append (.tok hrk)).append htype
  have hcond : Derives .free (.ref (.expr .free)) _ _ :=
    .ref (.orLeft (.ref (.orLeft (.ref (.orLeft (.ref (.orRight (.orRight (.orLeft (hslice.append .skip))))))))))
  have hinner : Derives .free (.ref .block) (lb' :: rb' :: rb :: [s']) (rb :: [s']) :=
    .ref (((Derives.tok hlb').append (.append .nil .skip)).append (.tok hrb'))
  have hwhile : Derives .free (.ref .stmt) _ _ :=
    .ref (.orRight (.orRight (.orRight (.orRight (.orRight (.orLeft
      (((Derives.tok hw).append hcond).append hinner)))))))
  have hbody : Derives .free (.ref .block) _ _ :=
    .ref (((Derives.tok hlb).append (.append .nil (.take hwhile))).append (.tok hrb))
  have hparams (ts : List Lexeme) : Derives .free (.ref .params) (lp :: rp :: ts) ts :=
    .ref (((Derives.tok hlp).append .skip).append (.tok hrp))
  have hfunc : Derives .free (.ref .decl) _ _ :=
    .ref (.orRight (.orRight (.orLeft (((((Derives.tok hfn).append (.tok hf)).append (hparams _)).append
      .skip).append (.take hbody)))))
  exact .ref (((((Derives.tok hk).append (.tok hn)).append (.tok hs)).append .nil).append
    (.orRight ((Derives.cons ((Derives.take hfunc).append (.tok hs')) .nil).append .skip)))

end Parser

end FrontEnd
