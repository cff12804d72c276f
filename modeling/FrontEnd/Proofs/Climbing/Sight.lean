import FrontEnd.Proofs.Grammar.Spelling
import FrontEnd.Proofs.Tracing
import Mathlib.Logic.Function.Iterate

/-!
# What a parser sees

Reading on from where it is, a parser sees lexemes at certain positions and then the end of the input
(`Parser.Sees`). Whatever the scanner reports in between, and whatever a line directive makes of the
positions, is in that already; a run that has been finished sees nothing any more.

Apart from its trace, a rule that reads what it expects does nothing but read on (`Parser.Past`): it says
nothing of its own and keeps all books. `ParseM.Leads` promises that of an action, together with what it
goes on like, and is proved by going through the action step by step.
-/

namespace FrontEnd

/-- A lexeme, and the position at which it is seen. -/
structure Sighting where
  lexeme : Lexeme
  pos : Pos
deriving DecidableEq

/-- The lexemes that are seen. -/
def lexemes (ss : List Sighting) : List Lexeme := ss.map Sighting.lexeme

/-- Nothing seen, no lexemes. -/
@[simp] theorem lexemes_nil : lexemes [] = [] := rfl

/-- The lexeme that is seen first, and those that are seen behind it. -/
@[simp] theorem lexemes_cons (s : Sighting) (ss : List Sighting) :
    lexemes (s :: ss) = s.lexeme :: lexemes ss := rfl

/-- As many lexemes are seen as there are sightings. -/
@[simp] theorem length_lexemes (ss : List Sighting) : (lexemes ss).length = ss.length := List.length_map ..

namespace Parser

/-! ## Without the trace -/

/-- The parser without its trace and without what only the trace is for. -/
def still (p : Parser) : Parser := { p.quiet with openRules := 0 }

section

variable (p : Parser)

/-- A note is part of the trace. -/
theorem still_trace (note : TraceNote) : (p.trace note).still = p.still := by
  unfold still
  rw [quiet_trace]

/-- That a rule has been entered is only for the trace. -/
theorem still_enter (rule : Rule) : (Move.apply (.enter rule) p).still = p.still := by
  unfold still
  rw [quiet_move, Move.apply, trace_quiet]

/-- That a rule has been left is only for the trace. -/
theorem still_leave : (Move.apply .leave p).still = p.still := by
  unfold still
  rw [quiet_move]
  exact congrArg (fun q : Parser => { q with openRules := 0 })
    (trace_quiet { p with openRules := p.openRules - 1 } _)

/-- What is heard has nothing to do with open rules. -/
theorem hear_openRules (n : Nat) (report : Report) :
    Parser.hear { p with openRules := n } report = { p.hear report with openRules := n } := by
  unfold Parser.hear
  change (if p.aborted then _ else _) = _
  split
  · rfl
  · cases report with
    | error e => rfl
    | directive place comment =>
      unfold direct
      dsimp only
      split
      · rfl
      · split <;> rfl

/-- How many rules are open does not matter for what is heard. -/
theorem foldl_hear_openRules (n : Nat) (reports : List Report) :
    reports.foldl Parser.hear { p with openRules := n } =
      { reports.foldl Parser.hear p with openRules := n } := by
  induction reports generalizing p with
  | nil => rfl
  | cons report reports ih => rw [List.foldl_cons, hear_openRules, ih, List.foldl_cons]

/-- Reading on has nothing to do with the trace. -/
theorem still_next : p.next.still = p.still.next := by
  unfold still
  have haborted : { p.quiet with openRules := 0 }.aborted = p.quiet.aborted := rfl
  have hupcoming : { p.quiet with openRules := 0 }.upcoming = p.quiet.upcoming := rfl
  rw [quiet_next]
  unfold Parser.next
  rw [haborted, hupcoming]
  split
  · rfl
  · cases p.quiet.upcoming with
    | nil => rfl
    | cons scan rest =>
      exact (foldl_hear_openRules { p.quiet with current := scan.lexeme, upcoming := rest } 0
        scan.reports).symm

end

/-! ## Seeing -/

/-- The current lexeme where it is seen. -/
def sighting (p : Parser) : Sighting := ⟨p.current, p.here⟩

/-- The parser sees these lexemes one after another, and then the end of the input. -/
def Sees : List Sighting → Parser → Prop
  | [], p => p.token = .eof
  | s :: ss, p => p.token ≠ .eof ∧ p.sighting = s ∧ Sees ss p.next

instance decidableSees : (ss : List Sighting) → (p : Parser) → Decidable (p.Sees ss)
  | [], p => inferInstanceAs (Decidable (p.token = .eof))
  | s :: ss, p =>
    have := decidableSees ss p.next
    inferInstanceAs (Decidable (p.token ≠ .eof ∧ p.sighting = s ∧ Sees ss p.next))

section

variable {p q r : Parser} {s : Sighting} {ss us vs : List Sighting}

/-- What a parser sees does not depend on its trace. -/
theorem sees_still : p.still.Sees ss ↔ p.Sees ss := by
  induction ss generalizing p with
  | nil => exact Iff.rfl
  | cons s ss ih =>
    have hnext : p.still.next.Sees ss ↔ p.next.Sees ss := by rw [← still_next, ih]
    exact and_congr_right fun _ => and_congr_right fun _ => hnext

/-- Parsers that differ in their trace only see the same. -/
theorem Sees.congr (h : p.Sees ss) (hq : q.still = p.still) : q.Sees ss := by
  rw [← sees_still, hq, sees_still]
  exact h

/-- The current token is that of the first lexeme that is seen. -/
theorem Sees.token (h : p.Sees ss) : p.token = peek (lexemes ss) := by
  cases ss with
  | nil => exact h
  | cons s ss =>
    obtain ⟨hne, rfl, -⟩ := h
    unfold Parser.token
    rw [aborted_of_token_ne_eof hne]
    rfl

/-- The current operator is that of the first lexeme that is seen. -/
theorem Sees.operator? (h : p.Sees ss) : p.operator? = (lexemes ss).head?.bind Lexeme.operator? := by
  unfold Parser.operator?
  rw [h.token]
  cases ss with
  | nil => simp
  | cons s ss =>
    rw [← h.2.1]
    rfl

/-- The second parser is where the first one gets by reading on from the one lexemes to the others, but for
the trace. -/
structure Past (ss us : List Sighting) (p q : Parser) : Prop where
  sees : q.Sees us
  read : ∃ n, n + us.length = ss.length ∧ q.still = Parser.next^[n] p.still

namespace Past

/-- A parser that has not read on is where it was, but for its trace. -/
theorem here (h : p.Sees ss) (hq : q.still = p.still) : Past ss ss p q :=
  ⟨h.congr hq, 0, Nat.zero_add _, hq⟩

/-- Reading on gets past the first lexeme. -/
theorem next (h : p.Sees (s :: ss)) : Past (s :: ss) ss p p.next :=
  ⟨h.2.2, 1, Nat.add_comm .., still_next p⟩

/-- Past some lexemes and then past others. -/
theorem trans (h : Past ss us p q) (h' : Past us vs q r) : Past ss vs p r := by
  obtain ⟨n, hn, hq⟩ := h.read
  obtain ⟨k, hk, hr⟩ := h'.read
  refine ⟨h'.sees, k + n, by omega, ?_⟩
  rw [hr, hq, Function.iterate_add_apply]

end Past

end

end Parser

namespace ParseM

variable {α β γ : Type}

/-- From the lexemes `ss` the action reads on to `us` and goes on like `m'`. -/
def Leads (ss : List Sighting) (m : ParseM β) (us : List Sighting) (m' : ParseM β) : Prop :=
  ∀ p : Parser, p.Sees ss → ∃ q : Parser, Parser.Past ss us p q ∧ m.run p = m'.run q

/-- From the lexemes `ss` the action reads on to `us` and yields `x`. -/
abbrev Yields (ss : List Sighting) (m : ParseM α) (x : α) (us : List Sighting) : Prop :=
  Leads ss m us (pure x)

namespace Leads

variable {ss us vs : List Sighting} {s : Sighting} {t : Token} {m m' m'' : ParseM β}

/-- An action goes on like itself. -/
theorem refl (m : ParseM β) : Leads ss m ss m := fun p hp => ⟨p, .here hp rfl, rfl⟩

/-- What an action goes on like may go on in turn. -/
theorem trans (h : Leads ss m us m') (h' : Leads us m' vs m'') : Leads ss m vs m'' := by
  intro p hp
  obtain ⟨q, hq, hrun⟩ := h p hp
  obtain ⟨r, hr, hrun'⟩ := h' q hq.sees
  exact ⟨r, hq.trans hr, hrun.trans hrun'⟩

/-- An action that yields `x` goes on like what is done with it. -/
theorem bind {m : ParseM γ} {x : γ} {f : γ → ParseM β} (h : Yields ss m x us) (hf : Leads us (f x) vs m') :
    Leads ss (m >>= f) vs m' := by
  intro p hp
  obtain ⟨q, hq, hrun⟩ := h p hp
  obtain ⟨r, hr, hrun'⟩ := hf q hq.sees
  refine ⟨r, hq.trans hr, ?_⟩
  rw [run_bind, hrun]
  exact hrun'

/-- Looking at the kind of the current lexeme. -/
theorem onToken {f : Token → ParseM β} (h : Leads ss (f (peek (lexemes ss))) us m') :
    Leads ss (token >>= f) us m' := by
  intro p hp
  rw [run_bind, run_token, hp.token]
  exact h p hp

/-- Looking at the current position. -/
theorem onHere {f : Pos → ParseM β} (h : Leads (s :: ss) (f s.pos) us m') :
    Leads (s :: ss) (here >>= f) us m' := by
  intro p hp
  have hpos : p.here = s.pos := congrArg Sighting.pos hp.2.1
  rw [run_bind, run_here, hpos]
  exact h p hp

/-- Where the position does not matter. -/
theorem onAnyHere {f : Pos → ParseM β} (h : ∀ pos, Leads ss (f pos) us m') : Leads ss (here >>= f) us m' :=
  fun p hp => h p.here p hp

/-- Looking at the current lexeme. -/
theorem onCurrent {f : Lexeme → ParseM β} (h : Leads (s :: ss) (f s.lexeme) us m') :
    Leads (s :: ss) (current >>= f) us m' := by
  intro p hp
  have hcurrent : p.current = s.lexeme := congrArg Sighting.lexeme hp.2.1
  rw [run_bind, run_current, hcurrent]
  exact h p hp

/-- Looking at the parser, of which nothing but what it sees may matter. -/
theorem onGet {f : Parser → ParseM β} (h : ∀ q : Parser, q.Sees ss → Leads ss (f q) us m') :
    Leads ss (get >>= f) us m' := fun p hp => h p hp p hp

/-- Reading on. -/
theorem onNext {f : Unit → ParseM β} (h : Leads ss (f ()) us m') : Leads (s :: ss) (next >>= f) us m' := by
  intro p hp
  obtain ⟨q, hq, hrun⟩ := h p.next hp.2.2
  exact ⟨q, (Parser.Past.next hp).trans hq, hrun⟩

/-- What only the trace is changed by does not matter. -/
theorem onMove (a : Move) (ha : ∀ p : Parser, (a.apply p).still = p.still) {f : Unit → ParseM β}
    (h : Leads ss (f ()) us m') : Leads ss (modify a.apply >>= f) us m' := by
  intro p hp
  obtain ⟨q, hq, hrun⟩ := h (a.apply p) (hp.congr (ha p))
  exact ⟨q, (Parser.Past.here hp (ha p)).trans hq, hrun⟩

/-- A remark goes to the trace only. -/
theorem onRemark {text : String} {f : Unit → ParseM β} (h : Leads ss (f ()) us m') :
    Leads ss (remark text >>= f) us m' :=
  onMove (.trace (.remark text)) (fun p => p.still_trace _) h

/-- A token that is there is taken. -/
theorem onGot (hs : s.lexeme.token = t) {f : Bool → ParseM β} (h : Leads ss (f true) us m') :
    Leads (s :: ss) (got t >>= f) us m' := by
  intro p hp
  have ht : p.token = t := hp.token.trans hs
  obtain ⟨q, hq, hrun⟩ := h p.next hp.2.2
  refine ⟨q, (Parser.Past.next hp).trans hq, ?_⟩
  rw [run_bind, run_got, if_pos ht]
  exact hrun

/-- A token that is not there is left. -/
theorem onMissed (ht : peek (lexemes ss) ≠ t) {f : Bool → ParseM β} (h : Leads ss (f false) us m') :
    Leads ss (got t >>= f) us m' := by
  intro p hp
  rw [run_bind, run_got, if_neg fun he => ht (hp.token.symm.trans he)]
  exact h p hp

/-- A token that is asked for is taken if it is there. -/
theorem onWant (hs : s.lexeme.token = t) {f : Unit → ParseM β} (h : Leads ss (f ()) us m') :
    Leads (s :: ss) (want t >>= f) us m' := by
  have hwant : Yields (s :: ss) (want t) () ss := onGot hs (refl _)
  exact bind hwant h

/-- Tracing a rule does not matter. -/
theorem traced {m : ParseM α} {x : α} (rule : Rule) (h : Yields ss m x us) :
    Yields ss (traced rule m) x us := by
  have hleave : Yields us (modify Move.leave.apply >>= fun _ => Pure.pure x : ParseM α) x us :=
    onMove .leave Parser.still_leave (refl _)
  exact onMove (.enter rule) (fun p => p.still_enter rule) (bind h hleave)

end Leads

end ParseM

end FrontEnd
