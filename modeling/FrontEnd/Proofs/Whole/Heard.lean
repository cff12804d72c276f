import FrontEnd.Proofs.Grammar.Acceptance
import FrontEnd.Proofs.Termination.Budget

/-!
# What a parser has heard

A parser that reads on hears all that is reported on its way, so one that has not complained has read
only scans whose reports are calm (`Heeds`). A tolerant parser that yields a tree has read all scans:
the declarations of a file go on to the end of the input. So what it accepts is calm
(`calm_of_accepts`).
-/

namespace FrontEnd

namespace Parser

/-! ## Reports are heard -/

section

variable {p : Parser}

/-- A report of something wrong is complained about. -/
theorem hasSaid_hear {report : Report} (h : ¬report.Calm) : (p.hear report).HasSaid := by
  have hdiagnose (pos : Pos) (cause : Cause) : (p.diagnose pos cause).HasSaid := by
    change (p.first?.or (some ⟨pos, cause⟩)).isSome
    rw [Option.isSome_or, Option.isSome_some, Bool.or_true]
  unfold hear
  split
  · next ha =>
    simp only [aborted, Bool.and_eq_true] at ha
    exact ha.2
  · cases report with
    | error e => exact hdiagnose _ _
    | directive place comment =>
      simp only [Report.Calm, Classical.not_forall, Classical.not_not] at h
      obtain ⟨candidate, offset, cause, hcandidate, hread⟩ := h
      simp only [direct, hcandidate, hread]
      exact hdiagnose _ _

/-- A report that is not calm is said something about. -/
theorem hasSaid_foldl_hear {reports : List Report} {report : Report} (hmem : report ∈ reports)
    (h : ¬report.Calm) : (reports.foldl hear p).HasSaid := by
  induction reports generalizing p with
  | nil => cases hmem
  | cons r rest ih =>
    rcases List.mem_cons.mp hmem with rfl | hmem
    · exact lasting_hasSaid.foldl_hear (hasSaid_hear h) rest
    · exact ih hmem

/-- Of `scans`, the parser has read all but those to come. It has complained, or nothing was wrong with
what it has read. -/
def Heeds (scans : List Scan) (p : Parser) : Prop :=
  p.HasSaid ∨ ∃ heard, scans = heard ++ p.upcoming ∧ ∀ scan ∈ heard, ∀ r ∈ scan.reports, r.Calm

variable {scans : List Scan}

/-- Reading on hears all that is reported with the next scan. -/
theorem Heeds.next (h : p.Heeds scans) : p.next.Heeds scans := by
  rcases h with hsaid | ⟨heard, hscans, hcalm⟩
  · exact .inl (lasting_hasSaid.next hsaid)
  unfold Parser.next
  split
  · exact .inr ⟨heard, hscans, hcalm⟩
  · split
    · exact .inr ⟨heard, hscans, hcalm⟩
    · next scan rest hu =>
      by_cases hscan : ∀ r ∈ scan.reports, r.Calm
      · refine .inr ⟨heard ++ [scan], ?_, fun scan' hmem => ?_⟩
        · rw [upcoming_foldl_hear, List.append_assoc, List.singleton_append, ← hu]
          exact hscans
        · rcases List.mem_append.mp hmem with hmem | hmem
          · exact hcalm scan' hmem
          · rw [List.mem_singleton.mp hmem]
            exact hscan
      · obtain ⟨r, hr, hcalm⟩ : ∃ r ∈ scan.reports, ¬r.Calm := by simpa using hscan
        exact .inl (hasSaid_foldl_hear hr hcalm)

/-- What neither reads nor takes back a complaint changes nothing about it. -/
theorem Heeds.congr {q : Parser} (h : p.Heeds scans) (hsaid : p.HasSaid → q.HasSaid)
    (hu : q.upcoming = p.upcoming) : q.Heeds scans := by
  rcases h with h | ⟨heard, hscans, hcalm⟩
  · exact .inl (hsaid h)
  · exact .inr ⟨heard, hu ▸ hscans, hcalm⟩

/-- A line of the trace hears nothing. -/
theorem Heeds.trace (h : p.Heeds scans) (note : TraceNote) : (p.trace note).Heeds scans :=
  h.congr (lasting_hasSaid.trace note) (Lingers.trace p note).upcoming

/-- A complaint hears nothing. -/
theorem Heeds.complainAt (h : p.Heeds scans) (pos : Pos) (c : Complaint) : (p.complainAt pos c).Heeds scans :=
  h.congr (fun hs => lasting_hasSaid.complainAt hs pos c) (Lingers.complainAt p pos c).upcoming

/-- Whatever move is made, all that is read has been heard. -/
theorem Heeds.move (a : Move) (h : p.Heeds scans) : (a.apply p).Heeds scans := by
  cases a with
  | next => exact h.next
  | complain c => exact h.complainAt p.here c
  | lookBack pos c => exact h.complainAt pos c
  | trace note => exact h.trace note
  | enter rule => exact (h.trace (.enter rule)).congr id rfl
  | leave =>
    have hleft : Heeds scans { p with openRules := p.openRules - 1 } := h.congr id rfl
    exact hleft.trace .leave
  | enterFunction => exact h.congr id rfl
  | leaveFunction => exact h.congr id rfl
  | newGroup => exact h.congr id rfl
  | starve => exact h.congr id rfl

/-- At the start the reports of the first scan have been heard. -/
theorem heeds_start (base : Base) (scans : List Scan) (tolerant verbose : Bool) :
    (start base scans tolerant verbose).Heeds scans :=
  Heeds.next (.inr ⟨[], rfl, fun _ hmem => by cases hmem⟩)

end

end Parser

/-! ## Files are read to their end -/

namespace ParseM

variable {α β : Type} {budget : Nat} {p : Parser}

/-- The action ends at the end of the input, unless it starves. -/
def ToEnd (m : ParseM α) : Prop :=
  ∀ p : Parser, (m.run p).2.starved = true ∨ (m.run p).2.token = .eof

/-- An action that ends at the end does so after any other. -/
theorem ToEnd.after {m : ParseM α} {f : α → ParseM β} (h : ∀ x, ToEnd (f x)) : ToEnd (m >>= f) :=
  fun p => h (m.run p).1 (m.run p).2

/-- What is yielded at the end may be changed. -/
theorem ToEnd.yields {m : ParseM α} (h : ToEnd m) (f : α → β) : ToEnd (do return f (← m)) :=
  fun p => h p

/-- There are declarations up to the end of the input. -/
theorem toEnd_topLevels (afterImport : Bool) (budget : Nat) : ToEnd (topLevels afterImport budget) := by
  -- The loop is left at the end of the input or because the budget has run out, which `starve` says.
  induction budget generalizing afterImport with
  | zero => exact fun p => .inl rfl
  | succ budget ih =>
    intro p
    rw [topLevels, run_bind, run_token]
    dsimp only
    split
    · next ht => exact .inr ht
    · split
      · exact ToEnd.after (fun _ => ih afterImport) p
      · cases topLevelAt p.token budget with
        | none =>
          have hrest (imports : Bool) : ToEnd (do
              complain .strayStatement
              recover strayFollow
              topLevels imports budget) := .after fun _ => .after fun _ => ih imports
          split
          · exact ToEnd.after (fun _ => hrest _) p
          · exact hrest _ p
        | some action =>
          have hrest (imports : Bool) : ToEnd (do
              let before := (← get).count
              let decls ← action
              endTopLevel before
              return decls ++ (← topLevels imports budget)) :=
            .after fun _ => .after fun _ => .after fun _ => (ih imports).yields _
          split
          · exact ToEnd.after (fun _ => hrest _) p
          · exact hrest _ p

/-- If there is a tree of a file, it has been read to the end of the input. -/
theorem toEnd_file {f : File} (h : ((file budget).run p).1 = .ok f) :
    ((file budget).run p).2.starved = true ∨ ((file budget).run p).2.token = .eof := by
  unfold file at h ⊢
  rw [run_traced] at h ⊢
  generalize Move.apply (.enter .file) p = p at h ⊢
  simp only [run_bind, run_here, run_current, run_got] at h ⊢
  by_cases hm : p.token = .keyword .moduleWord
  · -- The header consumes what it finds, then the loop over the items runs to the end.
    have hend : ToEnd (do
        let moduleName ← ident
        remark ("module: " ++ moduleName.text)
        want .semi
        return (.ok ⟨p.here, moduleName, ← topLevels true budget⟩ : Except Failure File)) :=
      .after fun _ => .after fun _ => .after fun _ => (toEnd_topLevels true budget).yields _
    simp only [if_pos hm, if_true] at h ⊢
    have hleave (q : Parser) : (Move.apply .leave q).starved = q.starved ∧
        (Move.apply .leave q).token = q.token := by
      unfold Move.apply Parser.trace
      dsimp only
      split <;> exact ⟨rfl, rfl⟩
    rw [(hleave _).1, (hleave _).2]
    exact hend p.next
  · simp only [if_neg hm, Bool.false_eq_true, if_false, run_pure] at h
    cases h

end ParseM

namespace Parser

open ParseM

/-- At the start no function has been entered, and no rule has starved. -/
theorem books_start (base : Base) (scans : List Scan) (tolerant verbose : Bool) :
    (start base scans tolerant verbose).functions = 0 ∧
      (start base scans tolerant verbose).starved = false := by
  unfold start next aborted
  dsimp only
  rw [if_neg (by simp)]
  cases scans with
  | nil => exact ⟨rfl, rfl⟩
  | cons scan rest =>
    have hlingers := Lingers.foldl_hear scan.reports
      { current := scan.lexeme, upcoming := rest, base, tolerant, verbose, first? := none, count := 0,
        functions := 0, openRules := 0, tracedLine? := none, groups := 0, log := #[], starved := false }
    exact ⟨hlingers.functions, hlingers.starved⟩

/-- A tolerant parser that yields a tree has read everything. -/
theorem upcoming_of_ok {p : Parser} {f : File} (hends : p.Ends) (hf : p.functions = 0)
    (hs : p.starved = false) (ht : p.tolerant = true) (hok : p.parseFile.1 = .ok f) :
    p.parseFile.2.upcoming = [] := by
  have hroutine := routine_file p.budget
  have halike := alike_file hends hf p.le_budget p.le_budget
  rw [parseFile_of_tolerant ht] at hok ⊢
  have ht' := (lasting_tolerant true).run hroutine ht
  rcases toEnd_file hok with hstarved | heof
  · rw [halike.reaches.starved, hs] at hstarved
    cases hstarved
  · unfold token aborted at heof
    simp only [ht', Bool.not_true, Bool.false_and, Bool.false_eq_true, if_false] at heof
    exact Closed.eq_nil halike.reaches.ends heof

/-- What a tolerant parser accepts is calm. -/
theorem calm_of_accepts {base : Base} {r : Reader} {verbose : Bool}
    (h : (start base r.scans true verbose).Accepts) : r.Calm := by
  have hends := ends_start base r true verbose
  have hheeds := heeds_start base r.scans true verbose
  have hlogs := logsFirst_start base r.scans verbose
  have ht : (start base r.scans true verbose).tolerant = true := (lasting_tolerant true).next rfl
  obtain ⟨hf, hs⟩ := books_start base r.scans true verbose
  generalize start base r.scans true verbose = p at h hends hheeds hlogs ht hf hs
  obtain ⟨⟨f, hok⟩, hnone⟩ := h
  have hupcoming := upcoming_of_ok hends hf hs ht hok
  have hroutine := routine_file p.budget
  rw [parseFile_of_tolerant ht] at hupcoming hnone
  have hfirst := (LogsFirst.diagnostics_eq_nil (lasting_logsFirst.run hroutine hlogs)
    ((lasting_tolerant true).run hroutine ht)).mp hnone
  have hheeds' : Heeds r.scans ((file p.budget).run p).2 :=
    hroutine.preserves (fun a _ => Heeds.move a) hheeds
  rcases hheeds' with hsaid | ⟨heard, hscans, hcalm⟩
  · unfold HasSaid at hsaid
    rw [hfirst] at hsaid
    cases hsaid
  · rw [hupcoming, List.append_nil] at hscans
    unfold Reader.Calm
    rw [hscans]
    exact hcalm

end Parser

end FrontEnd
