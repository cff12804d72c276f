import FrontEnd.Proofs.FailFast
import FrontEnd.Proofs.Grammar.Spelling

/-!
# Parsers with nothing wrong

A parser is on some lexemes (`Parser.On`) if they are what is left before the end of the input, and
the scanner will say nothing about them. What changes only the books leaves it there, and reading on
takes it to the next lexeme. What has been said before is kept.

It is at the lexemes (`Parser.At`) if nothing has been said before. A complaint ends that for good.
-/

namespace FrontEnd

/-- The report is no error, and no directive that is wrong. -/
def Report.Calm : Report → Prop
  | .error _ => False
  | .directive place comment => ∀ candidate offset cause,
      LineDirective.candidate? place comment = some candidate →
        LineDirective.read candidate.text ≠ .rejected offset cause

/-- The lexeme is a token before the end of the input, and no malformed literal. -/
structure Lexeme.Fine (l : Lexeme) : Prop where
  token_ne : l.token ≠ .eof
  bad : l.bad = false

/-- What a parser has said. -/
structure Said where
  first? : Option Diagnostic
  count : Nat
  diagnostics : List Diagnostic

/-- Nothing has been said. -/
def Said.nothing : Said := ⟨none, 0, []⟩

namespace Parser

/-! ## Where a parser is -/

/-- What the parser has said. -/
def said (p : Parser) : Said := ⟨p.first?, p.count, p.diagnostics⟩

/-- The parser has said `w`, has made `g` groups and is at the lexemes `ts`, with which there is nothing
wrong. -/
structure On (w : Said) (g : Nat) (ts : List Lexeme) (p : Parser) : Prop where
  said : p.said = w
  aborted : p.aborted = false
  groups : p.groups = g
  lexemes : ∃ e, p.current :: p.upcoming.map Scan.lexeme = ts ++ [e] ∧ e.token = .eof
  fine : ∀ l ∈ ts, l.Fine
  calm : ∀ scan ∈ p.upcoming, ∀ r ∈ scan.reports, r.Calm

/-- The parser has made `g` groups and is at the lexemes `ts`, and there is nothing wrong. -/
abbrev At (g : Nat) (ts : List Lexeme) (p : Parser) : Prop := p.On .nothing g ts

namespace On

variable {w : Said} {g : Nat} {ts : List Lexeme} {l : Lexeme} {p q : Parser}

/-- What has been said first is known. -/
theorem first? (h : p.On w g ts) : p.first? = w.first? := congrArg Said.first? h.said

/-- How many complaints there are is known. -/
theorem count (h : p.On w g ts) : p.count = w.count := congrArg Said.count h.said

/-- The current token is that of the first lexeme. -/
theorem token (h : p.On w g ts) : p.token = peek ts := by
  obtain ⟨e, he, heof⟩ := h.lexemes
  have hc : p.token = p.current.token := by
    unfold Parser.token
    rw [h.aborted]
    rfl
  rw [hc]
  cases ts with
  | nil =>
    obtain ⟨rfl, -⟩ := List.cons.inj he
    exact heof
  | cons l us =>
    obtain ⟨rfl, -⟩ := List.cons.inj he
    rfl

/-- The current lexeme is the first one. -/
theorem current (h : p.On w g (l :: ts)) : p.current = l := by
  obtain ⟨e, he, -⟩ := h.lexemes
  exact (List.cons.inj he).1

/-- The current operator is that of the first lexeme. -/
theorem operator? (h : p.On w g ts) : p.operator? = ts.head?.bind Lexeme.operator? := by
  unfold Parser.operator?
  rw [h.token]
  cases ts with
  | nil => simp
  | cons l us =>
    rw [h.current]
    rfl

/-- The budget is counted by the lexemes to come. -/
theorem budget_eq (h : p.On w g ts) : p.budget = 16 * (ts.length + 2) := by
  obtain ⟨e, he, -⟩ := h.lexemes
  have hlen := congrArg List.length he
  simp only [List.length_cons, List.length_map, List.length_append, List.length_nil] at hlen
  unfold budget
  omega

/-- What only changes the books does not move the parser. -/
theorem congr (h : p.On w g ts) (hs : q.said = p.said) (ha : q.aborted = p.aborted)
    (hg : q.groups = p.groups) (hc : q.current = p.current) (hu : q.upcoming = p.upcoming) :
    q.On w g ts where
  said := hs.trans h.said
  aborted := ha.trans h.aborted
  groups := hg.trans h.groups
  lexemes := by
    rw [hc, hu]
    exact h.lexemes
  fine := h.fine
  calm := by
    rw [hu]
    exact h.calm

/-- A line of the trace says nothing. -/
theorem trace (h : p.On w g ts) (note : TraceNote) : (p.trace note).On w g ts := by
  have hsaid : (p.trace note).said = p.said := by
    simp only [Parser.said, first?_trace, diagnostics_trace]
    unfold Parser.trace
    split <;> rfl
  refine h.congr hsaid ?_ ?_ ?_ ?_ <;> (unfold Parser.trace; split <;> rfl)

/-- A report that is calm changes at most the base. -/
theorem hear (h : p.On w g ts) {r : Report} (hr : r.Calm) : (p.hear r).On w g ts := by
  unfold Parser.hear
  rw [h.aborted]
  cases r with
  | error e => exact hr.elim
  | directive place comment =>
    change (p.direct place comment).On w g ts
    unfold Parser.direct
    split
    · exact h
    · next candidate hc =>
      split
      · exact h
      · next offset cause hread => exact absurd hread (hr candidate offset cause hc)
      · exact h.congr rfl rfl rfl rfl rfl

/-- Calm reports say nothing. -/
theorem foldl_hear (h : p.On w g ts) {reports : List Report} (hr : ∀ r ∈ reports, r.Calm) :
    (reports.foldl Parser.hear p).On w g ts := by
  induction reports generalizing p with
  | nil => exact h
  | cons r rest ih =>
    exact ih (h.hear (hr r List.mem_cons_self)) fun r hmem => hr r (List.mem_cons_of_mem _ hmem)

/-- Reading on from a lexeme gets to the next. -/
theorem next (h : p.On w g (l :: ts)) : p.next.On w g ts := by
  obtain ⟨e, he, heof⟩ := h.lexemes
  unfold Parser.next
  rw [h.aborted]
  have hmap : p.upcoming.map Scan.lexeme = ts ++ [e] := (List.cons.inj he).2
  have hcalm := h.calm
  cases hu : p.upcoming with
  | nil => simp [hu] at hmap
  | cons scan rest =>
    rw [hu] at hmap hcalm
    have hnext : Parser.On w g ts { p with current := scan.lexeme, upcoming := rest } :=
      ⟨h.said, h.aborted, h.groups, ⟨e, hmap, heof⟩, fun l hl => h.fine l (List.mem_cons_of_mem _ hl),
        fun scan hmem => hcalm scan (List.mem_cons_of_mem _ hmem)⟩
    exact hnext.foldl_hear (hcalm scan List.mem_cons_self)

end On

/-- A parser starts at the lexemes of its scans. -/
theorem at_start {scans : List Scan} {ts : List Lexeme} {e : Lexeme}
    (hscans : scans.map Scan.lexeme = ts ++ [e]) (he : e.token = .eof) (hfine : ∀ l ∈ ts, l.Fine)
    (hcalm : ∀ scan ∈ scans, ∀ r ∈ scan.reports, r.Calm) (base : Base) (tolerant verbose : Bool) :
    (start base scans tolerant verbose).At 0 ts := by
  unfold start Parser.next Parser.aborted
  dsimp only
  rw [if_neg (by simp)]
  cases scans with
  | nil => simp at hscans
  | cons scan rest =>
    refine On.foldl_hear ?_ (hcalm scan List.mem_cons_self)
    exact ⟨rfl, by simp [Parser.aborted], rfl, ⟨e, hscans, he⟩, hfine,
      fun scan' hmem => hcalm scan' (List.mem_cons_of_mem _ hmem)⟩

/-! ## Complaints last -/

/-- The parser has complained. -/
def HasSaid (p : Parser) : Prop := p.first?.isSome

/-- What has been said has been said. -/
theorem lasting_hasSaid : Lasting HasSaid where
  diagnose := by
    intro p pos cause _ h
    have h : p.first?.isSome := h
    change (p.first?.or (some ⟨pos, cause⟩)).isSome
    rw [Option.isSome_or, h]
    rfl
  trace := by
    intro p note h
    unfold HasSaid at h ⊢
    rw [first?_trace]
    exact h
  go _ _ _ h := h
  keepBooks _ _ _ _ h := h

/-- A parser that has not complained yet does so. -/
theorem At.hasSaid_complainAt {g : Nat} {ts : List Lexeme} {p : Parser} (h : p.At g ts) (pos : Pos)
    (c : Complaint) : (p.complainAt pos c).HasSaid := by
  have ht := h.trace (.remark ("syntax error: " ++ c.words))
  unfold complainAt
  dsimp only
  generalize p.trace _ = q at ht ⊢
  have hnone : q.first? = none := ht.first?
  rw [if_neg (by simp [hnone])]
  change (q.first?.or (some _)).isSome
  rw [Option.isSome_or, Option.isSome_some, Bool.or_true]

end Parser

end FrontEnd
