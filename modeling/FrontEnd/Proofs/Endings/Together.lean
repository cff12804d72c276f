import FrontEnd.Proofs.Endings.Scans
import FrontEnd.Proofs.Whole.Heard

/-!
# Two parsers on the same lines

Of two parsers the one reads a text and the other the text with carriage returns. They are together
(`Parser.Together`) if they have said nothing and differ only in where a separator is that a newline stands
for. Reading on keeps them together unless the one has something to say. Two dots in a row may take them
apart, but then the one is at no name after the first (`Parser.Together.next_cases`).

What a parser has said is never taken back, nor that it has starved: then all is lost (`Parser.Lost`).
-/

namespace FrontEnd

/-- Lexemes that are alike are of the same class. -/
theorem Lexeme.Alike.token_eq {separable : Bool} {l m : Lexeme} (h : l.Alike separable m) :
    m.token = l.token := by rw [h.eq_with]

namespace Parser

variable {p q : Parser}

/-- The parsers have the same books and have said the same. -/
def SameBooks (p q : Parser) : Prop := ∃ current upcoming, q = { p with current, upcoming }

/-- Nothing has been said. -/
structure Quiet (p : Parser) : Prop where
  first? : p.first? = none
  count : p.count = 0

/-- Something has been said, or a rule has run out of its budget. -/
def Lost (p : Parser) : Prop := p.HasSaid ∨ p.starved = true

/-- The parsers have said nothing, look the same but for the place of a separator, and have the same before
them. -/
structure Together (p q : Parser) : Prop where
  quiet : p.Quiet
  hushed : p.verbose = false
  current : p.current.Alike true q.current
  upcoming : Carried p.current.token p.upcoming q.upcoming
  books : p.SameBooks q
  ends : p.Ends

/-! ## What is lost -/

/-- Neither what has been said nor that a rule has starved is ever taken back. -/
theorem Lost.move (a : Move) (h : p.Lost) : (a.apply p).Lost := by
  rcases h with hsaid | hstarved
  · exact .inl (lasting_hasSaid.move a hsaid)
  · refine .inr ?_
    -- Having said something lasts, by `lasting_hasSaid`; here, that no move takes back a lack of budget.
    cases a with
    | next =>
      change p.next.starved = true
      unfold Parser.next
      split
      · exact hstarved
      · split
        · exact hstarved
        · exact (Lingers.foldl_hear _ _).starved.trans hstarved
    | complain c => exact (Lingers.complainAt p _ c).starved.trans hstarved
    | lookBack pos c => exact (Lingers.complainAt p pos c).starved.trans hstarved
    | trace note => exact (Lingers.trace p note).starved.trans hstarved
    | enter rule => exact (Lingers.trace p (.enter rule)).starved.trans hstarved
    | leave => exact (Lingers.trace _ .leave).starved.trans hstarved
    | enterFunction => exact hstarved
    | leaveFunction => exact hstarved
    | newGroup => exact hstarved
    | starve => rfl

/-- Whatever steps follow, what is lost stays so. -/
theorem Lost.steps {α : Type} {m : ParseM α} (hm : Steps m) (h : p.Lost) : (m.run p).2.Lost :=
  hm.preserves (fun a _ => Lost.move a) h

/-- With a diagnostic something has been said. -/
theorem hasSaid_diagnose (p : Parser) (pos : Pos) (cause : Cause) : (p.diagnose pos cause).HasSaid := by
  change (p.first?.or (some _)).isSome
  rw [Option.isSome_or, Option.isSome_some, Bool.or_true]

/-- After a complaint, something has been said, then or before. -/
theorem hasSaid_complainAt (p : Parser) (pos : Pos) (c : Complaint) : (p.complainAt pos c).HasSaid := by
  unfold Parser.complainAt
  dsimp only
  split
  · next h => exact (Bool.and_eq_true_iff.mp h).2
  · exact hasSaid_diagnose _ _ _

/-- Whether to trace does not change. -/
theorem lasting_hushed : Lasting fun p => p.verbose = false where
  diagnose _ _ _ h := h
  trace note h := by
    unfold trace
    split <;> exact h
  go _ _ _ h := h
  keepBooks _ _ _ _ h := h

/-- A parser that does not trace is left as it is by a note. -/
theorem trace_of_hushed (h : p.verbose = false) (note : TraceNote) : p.trace note = p := by
  unfold trace
  rw [h]
  rfl

/-! ## Hearing -/

namespace Quiet

/-- A parser that has said nothing has not been finished. -/
theorem aborted (h : p.Quiet) : p.aborted = false := by
  unfold Parser.aborted
  rw [h.first?]
  exact Bool.and_false _

/-- A parser that has said nothing is at its current lexeme. -/
theorem token (h : p.Quiet) : p.token = p.current.token := by
  unfold Parser.token
  rw [h.aborted]
  rfl

/-- A parser that has said nothing looks at every directive. -/
theorem hear_directive (h : p.Quiet) (place : Place) (comment : String) :
    p.hear (.directive place comment) = p.direct place comment := by
  unfold hear
  rw [h.aborted]
  rfl

/-- A directive changes the base, unless it is wrong and there is something to say. -/
theorem direct (h : p.Quiet) (place : Place) (comment : String) :
    (p.direct place comment).HasSaid ∨ (p.direct place comment).Quiet := by
  unfold Parser.direct
  split
  · exact .inr h
  · split
    · exact .inr h
    · exact .inl (hasSaid_diagnose _ _ _)
    · exact .inr ⟨h.first?, h.count⟩

/-- So does a report of one. -/
theorem hear (h : p.Quiet) (r : Report) : (p.hear r).HasSaid ∨ (p.hear r).Quiet := by
  cases r with
  | error e => exact .inl (hasSaid_hear id)
  | directive place comment =>
    rw [h.hear_directive]
    exact h.direct place comment

/-- Hearing of what happened under way says something or nothing. -/
theorem foldl_hear (h : p.Quiet) (reports : List Report) :
    (reports.foldl Parser.hear p).HasSaid ∨ (reports.foldl Parser.hear p).Quiet := by
  induction reports generalizing p with
  | nil => exact .inr h
  | cons r reports ih =>
    rcases h.hear r with hsaid | hquiet
    · exact .inl (lasting_hasSaid.foldl_hear hsaid reports)
    · exact ih hquiet

end Quiet

/-- Directives that say the same change the base alike. -/
theorem SameBooks.direct (h : p.SameBooks q) {place place' : Place} {comment comment' : String}
    (hplace : place = place') (hcandidate : LineDirective.candidate? place comment =
      LineDirective.candidate? place' comment') :
    (p.direct place comment).SameBooks (q.direct place' comment') := by
  obtain ⟨current, upcoming, rfl⟩ := h
  subst hplace
  unfold Parser.direct
  rw [← hcandidate]
  cases LineDirective.candidate? place comment with
  | none => exact ⟨current, upcoming, rfl⟩
  | some candidate =>
    dsimp only
    cases LineDirective.read candidate.text <;> exact ⟨current, upcoming, rfl⟩

/-- Reports that say the same change the books alike, unless there is something to say. -/
theorem SameBooks.foldl_hear (h : p.SameBooks q) (hquiet : p.Quiet) {reports reports' : List Report}
    (hgist : reports.map Report.gist = reports'.map Report.gist) :
    (reports.foldl hear p).HasSaid ∨ (reports.foldl hear p).SameBooks (reports'.foldl hear q) := by
  -- Report by report; an error is said and ends the comparison, a directive changes both bases alike.
  induction reports generalizing p q reports' with
  | nil =>
    obtain rfl := List.map_eq_nil_iff.mp hgist.symm
    exact .inr h
  | cons r reports ih =>
    obtain ⟨r', reports', rfl, hr, hreports⟩ := List.map_eq_cons_iff.mp hgist.symm
    have hquiet' : q.Quiet := by
      obtain ⟨current, upcoming, rfl⟩ := h
      exact ⟨hquiet.first?, hquiet.count⟩
    rw [List.foldl_cons, List.foldl_cons]
    cases r with
    | error e => exact .inl (lasting_hasSaid.foldl_hear (hasSaid_hear id) reports)
    | directive place comment =>
      cases r' with
      | error e => cases hr
      | directive place' comment' =>
        obtain ⟨hplace, hcandidate⟩ := Prod.mk.inj (Sum.inr.inj hr)
        have hdirect := h.direct hplace.symm hcandidate.symm
        rw [hquiet.hear_directive, hquiet'.hear_directive]
        rcases hquiet.direct place comment with hsaid | hstill
        · exact .inl (lasting_hasSaid.foldl_hear hsaid reports)
        · exact ih hdirect hstill hreports.symm

namespace Together

/-! ## Looking -/

section

variable (h : p.Together q)
include h

/-- The second parser has said nothing, too. -/
theorem quiet_right : q.Quiet := by
  obtain ⟨_, _, hq⟩ := h.books
  rw [hq]
  exact ⟨h.quiet.first?, h.quiet.count⟩

/-- Both are at a token of the same class. -/
theorem token_eq : q.token = p.token := by
  rw [h.quiet.token, h.quiet_right.token, h.current.token_eq]

/-- At the same lexeme both are at the same position. -/
theorem here_eq (hc : q.current = p.current) : q.here = p.here := by
  obtain ⟨current, upcoming, hq⟩ := h.books
  have hbase : q.base = p.base := by rw [hq]
  unfold here posAt
  rw [hc, hbase]

/-- Both see the same operator, since separators are none. -/
theorem operator?_eq : q.operator? = p.operator? := by
  unfold operator?
  rw [h.token_eq, h.current.eq_with]

/-- The second parser does not trace, either. -/
theorem hushed_right : q.verbose = false := by
  obtain ⟨_, _, hq⟩ := h.books
  rw [hq]
  exact h.hushed

/-- Changes of the books alone keep parsers together. -/
theorem keepBooks (functions openRules groups : Nat) :
    Together { p with functions, openRules, groups } { q with functions, openRules, groups } where
  quiet := ⟨h.quiet.first?, h.quiet.count⟩
  hushed := h.hushed
  current := h.current
  upcoming := h.upcoming
  books := by
    obtain ⟨current, upcoming, hq⟩ := h.books
    exact ⟨current, upcoming, by rw [hq]⟩
  ends := h.ends

/-- Numbering a group keeps parsers together. -/
theorem newGroup : (Move.newGroup.apply p).Together (Move.newGroup.apply q) := by
  have hkept := h.keepBooks p.functions p.openRules (p.groups + 1)
  obtain ⟨current, upcoming, rfl⟩ := h.books
  exact hkept

/-- Entering a rule keeps parsers together, at their lexemes. -/
theorem enter (rule : Rule) :
    (Move.apply (.enter rule) p).Together (Move.apply (.enter rule) q) ∧
      (Move.apply (.enter rule) p).current = p.current ∧ (Move.apply (.enter rule) q).current = q.current := by
  have hkept := h.keepBooks p.functions (p.openRules + 1) p.groups
  unfold Move.apply
  dsimp only
  rw [trace_of_hushed h.hushed, trace_of_hushed h.hushed_right]
  obtain ⟨current, upcoming, rfl⟩ := h.books
  exact ⟨hkept, rfl, rfl⟩

/-- Leaving a rule keeps parsers together, at their lexemes. -/
theorem leave :
    (Move.leave.apply p).Together (Move.leave.apply q) ∧
      (Move.leave.apply p).current = p.current ∧ (Move.leave.apply q).current = q.current := by
  have hkept := h.keepBooks p.functions (p.openRules - 1) p.groups
  have hp : Parser.verbose { p with openRules := p.openRules - 1 } = false := h.hushed
  have hq : Parser.verbose { q with openRules := q.openRules - 1 } = false := h.hushed_right
  unfold Move.apply
  dsimp only
  rw [trace_of_hushed hp, trace_of_hushed hq]
  obtain ⟨current, upcoming, rfl⟩ := h.books
  exact ⟨hkept, rfl, rfl⟩

/-- Entering a function keeps parsers together, at their lexemes. -/
theorem enterFunction :
    (Move.enterFunction.apply p).Together (Move.enterFunction.apply q) ∧
      (Move.enterFunction.apply p).current = p.current ∧
      (Move.enterFunction.apply q).current = q.current := by
  have hkept := h.keepBooks (p.functions + 1) p.openRules p.groups
  obtain ⟨current, upcoming, rfl⟩ := h.books
  exact ⟨hkept, rfl, rfl⟩

/-- Leaving a function keeps parsers together, at their lexemes. -/
theorem leaveFunction :
    (Move.leaveFunction.apply p).Together (Move.leaveFunction.apply q) ∧
      (Move.leaveFunction.apply p).current = p.current ∧
      (Move.leaveFunction.apply q).current = q.current := by
  have hkept := h.keepBooks (p.functions - 1) p.openRules p.groups
  obtain ⟨current, upcoming, rfl⟩ := h.books
  exact ⟨hkept, rfl, rfl⟩

end

/-! ## Reading -/

/-- Parsers that go on to alike scans are together there, unless the one has something to say. -/
theorem of_scan (hquiet : p.Quiet) (hhushed : p.verbose = false) (hbooks : p.SameBooks q) {t : Token}
    {scan scan' : Scan} {rest rest' : List Scan} (hlexeme : scan.lexeme.Alike t.endsStatement scan'.lexeme)
    (hgist : scan.reports.map Report.gist = scan'.reports.map Report.gist)
    (hrest : Carried scan.lexeme.token rest rest') (hends : Closed scan.lexeme rest) :
    let p' := scan.reports.foldl hear { p with current := scan.lexeme, upcoming := rest }
    let q' := scan'.reports.foldl hear { q with current := scan'.lexeme, upcoming := rest' }
    p'.HasSaid ∨ p'.Together q' ∧ p'.current.Alike t.endsStatement q'.current := by
  intro p' q'
  have hquiet : Quiet { p with current := scan.lexeme, upcoming := rest } := ⟨hquiet.first?, hquiet.count⟩
  have hbooks : SameBooks { p with current := scan.lexeme, upcoming := rest }
      { q with current := scan'.lexeme, upcoming := rest' } := by
    obtain ⟨current, upcoming, hq⟩ := hbooks
    exact ⟨scan'.lexeme, rest', by rw [hq]⟩
  have hhushed : Parser.verbose { p with current := scan.lexeme, upcoming := rest } = false := hhushed
  have hp' : Lingers _ p' := .foldl_hear scan.reports _
  have hq' : Lingers _ q' := .foldl_hear scan'.reports _
  -- Either something was said on the way, or all reports were directives and the books are still the same.
  rcases hbooks.foldl_hear hquiet hgist with hsaid | hbooks'
  · exact .inl hsaid
  · rcases hquiet.foldl_hear scan.reports with hsaid | hquiet'
    · exact .inl hsaid
    · have hcurrent : p'.current.Alike t.endsStatement q'.current := by
        rw [hp'.current, hq'.current]
        exact hlexeme
      refine .inr ⟨⟨hquiet', lasting_hushed.foldl_hear hhushed _, ?_, ?_, hbooks', ?_⟩, hcurrent⟩
      · exact hcurrent.imp_right fun ⟨_, hsemi, heq⟩ => ⟨rfl, hsemi, heq⟩
      · rw [hp'.current, hp'.upcoming, hq'.upcoming]
        exact hrest
      · unfold Ends
        rw [hp'.current, hp'.upcoming]
        exact hends

/-- Reading on takes the next scan and hears of what happened under way. -/
theorem next_of_cons (ha : p.aborted = false) {scan : Scan} {rest : List Scan}
    (hu : p.upcoming = scan :: rest) :
    p.next = scan.reports.foldl hear { p with current := scan.lexeme, upcoming := rest } := by
  unfold Parser.next
  rw [ha, hu]
  rfl

/-- The cases of reading on: the one says something, both stay together, or two dots take them apart. -/
theorem next_cases (h : p.Together q) : p.next.HasSaid ∨
    p.next.Together q.next ∧ p.next.current.Alike p.token.endsStatement q.next.current ∨
    p.token = .dot ∧ p.next.token ≠ .name := by
  rw [h.quiet.token]
  have hcarried := h.upcoming
  -- No scan is left only behind the end of the input, where `next` moves neither parser.
  cases hu : p.upcoming with
  | nil =>
    have heof : p.current.token = .eof := by
      have hends := h.ends
      unfold Ends at hends
      rwa [hu] at hends
    have hp : p.next = p := h.ends.next_of_eof (h.quiet.token.trans heof)
    have hq : q.next = q := by
      rw [hu, heof] at hcarried
      unfold Parser.next
      cases hv : q.upcoming with
      | nil => exact ite_self q
      | cons scan rest =>
        rw [hv] at hcarried
        cases hcarried
    rw [hp, hq]
    refine .inr (.inl ⟨h, .inl ?_⟩)
    rcases h.current with heq | ⟨-, hsemi, -⟩
    · exact heq
    · rw [heof] at hsemi
      cases hsemi
  | cons scan rest =>
    rw [hu] at hcarried
    have hends : Closed scan.lexeme rest := by
      have hends := h.ends
      unfold Ends at hends
      rw [hu] at hends
      exact hends.2
    have hquiet : Quiet { p with current := scan.lexeme, upcoming := rest } :=
      ⟨h.quiet.first?, h.quiet.count⟩
    rw [next_of_cons h.quiet.aborted hu]
    -- The tokens and scans become variables, so that the cases of `Carried` can be taken.
    generalize ht : p.current.token = t at hcarried
    generalize hv : q.upcoming = scans at hcarried
    cases hcarried with
    | cons hlexeme hgist hrest =>
      rw [next_of_cons h.quiet_right.aborted hv]
      exact (of_scan h.quiet h.hushed h.books hlexeme hgist hrest hends).imp_right .inl
    | faulty he => exact .inl (hasSaid_foldl_hear he id)
    | secondDot hname =>
      rcases hquiet.foldl_hear scan.reports with hsaid | hquiet'
      · exact .inl hsaid
      · refine .inr (.inr ⟨rfl, ?_⟩)
        rw [hquiet'.token, (Lingers.foldl_hear _ _).current]
        exact hname

end Together

end Parser

end FrontEnd
