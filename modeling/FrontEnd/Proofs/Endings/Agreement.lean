import FrontEnd.Proofs.Endings.Together
import FrontEnd.Proofs.Routine.Rules
import FrontEnd.Proofs.Runs

/-!
# Actions that agree

Two actions agree if they yield the same from parsers that are together, and leave them together. What is
known of the current lexemes (`Scene`) is carried from one action to the next.

A run that is lost may do anything, but stays lost. The judgement says so of its first action, so that the
law of sequencing needs no side condition.
-/

namespace FrontEnd

/-- What is known of the current lexemes of two parsers. -/
abbrev Scene := Lexeme → Lexeme → Prop

namespace Scene

/-- Nothing is known. -/
def any : Scene := fun _ _ => True

/-- The parsers are at the same lexeme. -/
def level : Scene := fun l m => m = l

/-- Also, they are at a token of the given class. -/
def seeing (P : Scene) (t : Token) : Scene := fun l m => P l m ∧ l.token = t

/-- The scene in a run that is lost. -/
def lost : Scene := fun _ _ => False

/-- In this scene, parsers that are together are at the same lexeme. -/
def Settles (P : Scene) : Prop := ∀ l m, P l m → l.Alike true m → m = l

/-- Where the tokens are no separators, parsers that are together are at the same lexeme. -/
theorem settles_of_ne {P : Scene} (h : ∀ l m, P l m → l.token ≠ .semi) : P.Settles := by
  rintro l m hP (heq | ⟨-, hsemi, -⟩)
  · exact heq
  · exact absurd hsemi (h l m hP)

/-- Parsers at the same lexeme are so. -/
theorem settles_level : level.Settles := fun _ _ h _ => h

/-- At a token of another class than separators, parsers are at the same lexeme. -/
theorem settles_seeing {P : Scene} {t : Token} (ht : t ≠ .semi) : (P.seeing t).Settles :=
  settles_of_ne fun _ _ h => h.2 ▸ ht

end Scene

namespace ParseM

variable {α β : Type}

/-- The first run is lost, or both have yielded the same and leave parsers together in the scene `Q`. -/
def Match (Q : α → Scene) (r r' : α × Parser) : Prop :=
  r.2.Lost ∨ r'.1 = r.1 ∧ r.2.Together r'.2 ∧ Q r.1 r.2.current r'.2.current

/-- The runs of the actions from parsers that are together in the scene `P` match. -/
structure Agree (P : Scene) (m m' : ParseM α) (Q : α → Scene) : Prop where
  lost : ∀ p : Parser, p.Lost → (m.run p).2.Lost
  run : ∀ p q : Parser, p.Together q → P p.current q.current → Match Q (m.run p) (m'.run q)

/-- The runs of the action match. -/
abbrev Agrees (P : Scene) (m : ParseM α) : Prop := Agree P m m fun _ => .any

namespace Agree

variable {P P' : Scene} {m m' n n' : ParseM α} {f f' : α → ParseM β} {Q Q' : α → Scene} {R : β → Scene}
  {t : Token}

/-! ## The judgement -/

/-- Actions that agree, one after the other. -/
theorem bind (hm : Agree P m m' Q) (hf : ∀ x, Agree (Q x) (f x) (f' x) R) :
    Agree P (m >>= f) (m' >>= f') R where
  lost p h := (hf _).lost _ (hm.lost p h)
  run p q h hP := by
    rw [run_bind, run_bind]
    rcases hm.run p q h hP with hlost | ⟨hsame, htogether, hQ⟩
    · exact .inl ((hf _).lost _ hlost)
    · rw [hsame]
      exact (hf _).run _ _ htogether hQ

/-- What is yielded right away is the same. -/
theorem pure (x : α) (h : ∀ l m, P l m → Q x l m) : Agree P (pure x) (Pure.pure x) Q where
  lost _ h := h
  run _ _ htogether hP := .inr ⟨rfl, htogether, h _ _ hP⟩

/-- Nothing need be known of the parsers where something is yielded. -/
theorem done (x : α) : Agrees P (Pure.pure x) := pure x fun _ _ _ => trivial

/-- What is known of parsers that are together may be added to the scene before, and dropped from that
after. -/
theorem mono (hm : Agree P' m m' Q') (hP : ∀ l m, P l m → l.Alike true m → P' l m)
    (hQ : ∀ x l m, Q' x l m → Q x l m) : Agree P m m' Q where
  lost := hm.lost
  run p q h hp := (hm.run p q h (hP _ _ hp h.current)).imp_right fun ⟨hsame, htogether, hq⟩ =>
    ⟨hsame, htogether, hQ _ _ _ hq⟩

/-- More may be known of the current lexemes than is used. -/
theorem weaken (hm : Agree P' m m' Q) (hP : ∀ l m, P l m → P' l m) : Agree P m m' Q :=
  hm.mono (fun l m h _ => hP l m h) fun _ _ _ => id

/-- What agrees wherever it starts agrees in any scene. -/
theorem anywhere (hm : Agrees .any m) : Agrees P m := hm.weaken fun _ _ _ => trivial

/-- In an impossible scene it only matters that what is lost stays lost. -/
theorem impossible (hm : Routine m) (h : ∀ l m, ¬P l m) : Agree P m m' Q where
  lost _ := Parser.Lost.steps hm.steps
  run _ _ _ hP := absurd hP (h _ _)

/-- Whatever comes in a run that is lost agrees. -/
theorem ofLost (hm : Routine m) : Agree .lost m m' Q := impossible hm fun _ _ => id

/-- Either the parsers are at a token of the given class or they are not. -/
theorem cases (t : Token) (hm : Agree (P.seeing t) m m' Q)
    (hm' : Agree (fun l m => P l m ∧ l.token ≠ t) m m' Q) : Agree P m m' Q where
  lost := hm.lost
  run p q h hP := by
    by_cases ht : p.current.token = t
    · exact hm.run p q h ⟨hP, ht⟩
    · exact hm'.run p q h ⟨hP, ht⟩

/-! ## Looks -/

/-- Looking at the kind of the current lexeme agrees: together, both are at a token of one class. -/
theorem token : Agree P token token fun t => P.seeing t where
  lost _ h := h
  run _ _ h hP := .inr ⟨h.token_eq, h, hP, h.quiet.token.symm⟩

/-- Positions are the same if the parsers are at the same lexeme. -/
theorem here {f f' : Pos → ParseM β} (h : ∀ pos pos',
    Agree (fun l m => P l m ∧ (m = l → pos' = pos)) (f pos) (f' pos') R) :
    Agree P (here >>= f) (here >>= f') R where
  lost p := (h p.here p.here).lost p
  run p q hpq hP := (h p.here q.here).run p q hpq ⟨hP, hpq.here_eq⟩

/-- So are the lexemes, and their text in any case. -/
theorem current {f f' : Lexeme → ParseM β} (h : ∀ lexeme lexeme', lexeme'.literal = lexeme.literal →
    Agree (fun l m => P l m ∧ (m = l → lexeme' = lexeme)) (f lexeme) (f' lexeme') R) :
    Agree P (current >>= f) (current >>= f') R where
  lost p := (h p.current p.current rfl).lost p
  run p q hpq hP := by
    have hliteral : q.current.literal = p.current.literal := by rw [hpq.current.eq_with]
    exact (h p.current q.current hliteral).run p q hpq ⟨hP, id⟩

/-- Looking at the current position and lexeme agrees as far as they are the same. -/
theorem hereCurrent {f f' : Pos → Lexeme → ParseM β} (h : ∀ pos pos' lexeme lexeme',
    Agree (fun l m => P l m ∧ (m = l → pos' = pos ∧ lexeme' = lexeme)) (f pos lexeme) (f' pos' lexeme') R) :
    Agree P (do f (← ParseM.here) (← ParseM.current)) (do f' (← ParseM.here) (← ParseM.current)) R :=
  here fun pos pos' => current fun lexeme lexeme' _ => (h pos pos' lexeme lexeme').weaken
    fun _ _ hs => ⟨hs.1.1, fun heq => ⟨hs.1.2 heq, hs.2 heq⟩⟩

/-- What is the same at the same lexeme is the same in a scene that settles. -/
theorem same {c : Prop} (hm : Agree P m n Q) (hP : P.Settles) (h : c → m' = n) :
    Agree (fun l m => P l m ∧ (m = l → c)) m m' Q where
  lost := hm.lost
  run p q hpq hs := by
    rw [h (hs.2 (hP _ _ hs.1 hpq.current))]
    exact hm.run p q hpq hs.1

/-- Likewise away from separators. -/
theorem sameAt {c : Prop} (hm : Agree (P.seeing t) m n Q) (ht : t ≠ .semi) (h : c → m' = n) :
    Agree (Scene.seeing (fun l m => P l m ∧ (m = l → c)) t) m m' Q :=
  (same hm (Scene.settles_seeing ht) h).weaken fun _ _ h => ⟨⟨h.1.1, h.2⟩, h.1.2⟩

/-- At the same lexeme the position is the same. -/
theorem hereLevel {f f' : Pos → ParseM β} (hP : P.Settles) (h : ∀ pos, Agree P (f pos) (f' pos) R) :
    Agree P (ParseM.here >>= f) (ParseM.here >>= f') R :=
  here fun pos _ => same (h pos) hP fun heq => by rw [heq]

/-- At the same lexeme the lexeme is the same. -/
theorem currentLevel {f f' : Lexeme → ParseM β} (hP : P.Settles)
    (h : ∀ lexeme, Agree P (f lexeme) (f' lexeme) R) :
    Agree P (ParseM.current >>= f) (ParseM.current >>= f') R :=
  current fun lexeme _ _ => same (h lexeme) hP fun heq => by rw [heq]

/-- Looking for an operator agrees, since no separator is one. -/
theorem operator? {f f' : Parser → ParseM β} (h : ∀ p q : Parser, q.operator? = p.operator? →
    Agree (fun l m => P l m ∧ (p.operator?.isSome → l.token ≠ .dot ∧ l.token ≠ .semi ∧
      l.token.endsStatement = false)) (f p) (f' q) R) :
    Agree P (get >>= f) (get >>= f') R where
  lost p := (h p p rfl).lost p
  run p q hpq hP := by
    refine (h p q hpq.operator?_eq).run p q hpq ⟨hP, fun hsome => ?_⟩
    obtain ⟨op, hop⟩ := Option.isSome_iff_exists.mp hsome
    rw [← hpq.quiet.token]
    rcases Parser.token_of_operator? hop with ht | ht
    all_goals
      rw [ht]
      exact ⟨Token.noConfusion, Token.noConfusion, rfl⟩

/-- As long as the parsers are together, there are no diagnostics. -/
theorem count {f f' : Parser → ParseM β} (hf : ∀ p, Routine (f p))
    (h : ∀ p q : Parser, p.count = 0 → q.count = 0 → Agree P (f p) (f' q) R) :
    Agree P (get >>= f) (get >>= f') R where
  lost p hp := by
    change (StateT.run (f p) p).2.Lost
    exact hp.steps (hf p).steps
  run p q hpq hP := (h p q hpq.quiet.count hpq.quiet_right.count).run p q hpq hP

/-- What is expected here may be differently placed if something is said at once. -/
theorem hole {f f' : Expr → ParseM β} (h : ∀ x y, Agree P (f x) (f' y) R) :
    Agree P (hole >>= f) (hole >>= f') R where
  lost p := (h (.bad p.here) (.bad p.here)).lost p
  run p q := (h (.bad p.here) (.bad q.here)).run p q

/-! ## Moves -/

/-- Reading on agrees, unless at a dot: two of them in a row may take the parsers apart. -/
theorem next (h : ∀ l m, P l m → l.token ≠ .dot) : Agrees P next where
  lost _ := Parser.Lost.move .next
  run p q hpq hP := by
    have hdot := h _ _ hP
    rcases hpq.next_cases with hsaid | ⟨htogether, -⟩ | ⟨hdot', -⟩
    · exact .inl (.inl hsaid)
    · exact .inr ⟨rfl, htogether, trivial⟩
    · exact absurd (hpq.quiet.token.symm.trans hdot') hdot

/-- Behind a token that ends no statement, the parsers are at the same lexeme. -/
theorem nextLevel (h : ∀ l m, P l m → l.token ≠ .dot ∧ l.token.endsStatement = false) :
    Agree P ParseM.next ParseM.next fun _ => .level where
  lost _ := Parser.Lost.move .next
  run p q hpq hP := by
    obtain ⟨hdot, hends⟩ := h _ _ hP
    rcases hpq.next_cases with hsaid | ⟨htogether, heq | ⟨hends', -⟩⟩ | ⟨hdot', -⟩
    · exact .inl (.inl hsaid)
    · exact .inr ⟨rfl, htogether, heq⟩
    · rw [hpq.quiet.token, hends] at hends'
      cases hends'
    · exact absurd (hpq.quiet.token.symm.trans hdot') hdot

/-- Reading on from a token of the given class agrees. -/
theorem nextAt (ht : t ≠ .dot) : Agrees (P.seeing t) ParseM.next := next fun _ _ h => h.2 ▸ ht

/-- Behind a token that no separator is inserted after, parsers are at the same lexeme. -/
theorem nextLevelAt (ht : t ≠ .dot) (hends : t.endsStatement = false) :
    Agree (P.seeing t) ParseM.next ParseM.next fun _ => .level :=
  nextLevel fun _ _ h => ⟨h.2 ▸ ht, h.2 ▸ hends⟩

/-- Whatever is complained about, all is lost. -/
theorem complainAt (pos pos' : Pos) (c c' : Complaint) :
    Agree P (complainAt pos c) (ParseM.complainAt pos' c') fun _ => .lost where
  lost p _ := .inl (p.hasSaid_complainAt pos c)
  run p _ _ _ := .inl (.inl (p.hasSaid_complainAt pos c))

/-- Behind a complaint a run is lost. -/
theorem complain (c c' : Complaint) : Agree P (complain c) (ParseM.complain c') fun _ => .lost where
  lost p _ := .inl (p.hasSaid_complainAt p.here c)
  run p _ _ _ := .inl (.inl (p.hasSaid_complainAt p.here c))

/-- Behind running out of budget a run is lost. -/
theorem starve : Agree P starve starve fun _ => .lost where
  lost _ _ := .inr rfl
  run _ _ _ _ := .inl (.inr rfl)

/-- A line of the trace agrees. -/
theorem remark (text : String) : Agree P (remark text) (remark text) fun _ => P where
  lost _ := Parser.Lost.move (.trace _)
  run p q hpq hP := by
    rw [run_remark, run_remark, Parser.trace_of_hushed hpq.hushed, Parser.trace_of_hushed hpq.hushed_right]
    exact .inr ⟨rfl, hpq, hP⟩

/-- A move that keeps books only leaves parsers together, and at their lexemes. -/
theorem keepBooks (a : Move) (ha : ∀ p q : Parser, p.Together q → (a.apply p).Together (a.apply q) ∧
    (a.apply p).current = p.current ∧ (a.apply q).current = q.current) :
    Agree P (modify a.apply) (modify a.apply) fun _ => P where
  lost _ := Parser.Lost.move a
  run p q hpq hP := by
    obtain ⟨htogether, hp, hq⟩ := ha p q hpq
    refine .inr ⟨rfl, htogether, ?_⟩
    change P (a.apply p).current (a.apply q).current
    rwa [hp, hq]

/-- Numbering a group agrees. -/
theorem newGroup : Agree P newGroup newGroup fun _ => P where
  lost _ := Parser.Lost.move .newGroup
  run p q hpq hP := by
    have hgroups : q.groups = p.groups := by
      obtain ⟨_, _, hq⟩ := hpq.books
      rw [hq]
    exact .inr ⟨hgroups, hpq.newGroup, hP⟩

/-! ## Put together -/

/-- Tracing a rule agrees. -/
theorem traced (rule : Rule) (hm : Agree P m m' Q) : Agree P (traced rule m) (ParseM.traced rule m') Q :=
  (keepBooks (.enter rule) fun _ _ h => h.enter rule).bind fun _ => hm.bind fun x =>
    (keepBooks .leave fun _ _ h => h.leave).bind fun _ => .pure x fun _ _ => id

/-- Whether a token is there is the same in both, and what is done about it agrees. -/
theorem gotThen {f f' : Bool → ParseM β}
    (ht : Agree (P.seeing t) (ParseM.next >>= fun _ => f true) (ParseM.next >>= fun _ => f' true) R)
    (hf : Agree (fun l m => P l m ∧ l.token ≠ t) (f false) (f' false) R) :
    Agree P (got t >>= f) (got t >>= f') R := by
  -- The test on the token, out of the way of the monad.
  have hrun (g : Bool → ParseM β) (p : Parser) : (got t >>= g).run p =
      if p.token = t then (ParseM.next >>= fun _ => g true).run p else (g false).run p := by
    rw [run_bind, run_got]
    split <;> rfl
  constructor
  case lost =>
    intro p hp
    rw [hrun]
    split
    · exact ht.lost p hp
    · exact hf.lost p hp
  case run =>
    intro p q hpq hP
    rw [hrun, hrun, hpq.token_eq, hpq.quiet.token]
    split
    · next heq => exact ht.run p q hpq ⟨hP, heq⟩
    · next hne => exact hf.run p q hpq ⟨hP, hne⟩

/-- Asking for a token agrees: if it is missing, the run is lost. -/
theorem want (ht : t ≠ .dot) : Agrees P (want t) :=
  gotThen ((nextAt ht).bind fun _ => .pure () fun _ _ => id)
    ((complain _ _).mono (fun _ _ h _ => h) fun _ _ _ => False.elim)

/-- Where something else is, nothing that is wanted is found. -/
theorem wantOther (h : ∀ l m, P l m → l.token ≠ t) : Agree P (ParseM.want t) (ParseM.want t) fun _ => .lost :=
  gotThen (.impossible (routine_next.bind fun _ => .done ()) fun l m hs => h l m hs.1 hs.2) (complain _ _)

/-- What comes after a complaint cannot find the run again. -/
theorem lost_complain {c : Complaint} {g : Unit → ParseM β} (hg : Routine (g ())) (p : Parser) :
    ((ParseM.complain c >>= g).run p).2.Lost := by
  change (StateT.run (g ()) (p.complainAt p.here c)).2.Lost
  exact Parser.Lost.steps hg.steps (.inl (p.hasSaid_complainAt p.here c))

/-- What follows a dot is a name, or all is lost. -/
theorem afterDot {n n' bad : ParseM β} (hn : Agree (Scene.any.seeing .name) n n' R)
    (hbad : ∀ p, (bad.run p).2.Lost) :
    Agree P (do ParseM.next; if (← ParseM.token) = .name then n else bad)
      (do ParseM.next; if (← ParseM.token) = .name then n' else bad) R := by
  -- The one test on the token, out of the way of the monad.
  have hrun (n : ParseM β) (p : Parser) :
      (do ParseM.next; if (← ParseM.token) = .name then n else bad : ParseM β).run p =
        if p.next.token = .name then n.run p.next else bad.run p.next := by
    change StateT.run (if p.next.token = .name then n else bad) p.next = _
    split <;> rfl
  constructor
  case lost =>
    intro p hp
    rw [hrun]
    split
    · exact hn.lost _ (hp.move .next)
    · exact hbad _
  case run =>
    intro p q hpq hp
    rw [hrun, hrun]
    by_cases hname : p.next.token = .name
    · rw [if_pos hname]
      -- A name behind the dot keeps the two parsers together; the other outcomes of `next` have no name there.
      rcases hpq.next_cases with hsaid | ⟨htogether, -⟩ | ⟨-, hother⟩
      · exact .inl (hn.lost _ (.inl hsaid))
      · rw [if_pos (htogether.token_eq.trans hname)]
        exact hn.run _ _ htogether ⟨trivial, htogether.quiet.token.symm.trans hname⟩
      · exact absurd hname hother
    · rw [if_neg hname]
      exact .inl (hbad _)

end Agree

end ParseM

end FrontEnd
