import FrontEnd.Parser.Basic

/-!
# Grammar rules as routines

A grammar rule only ever does two things: it looks at a few facts about the parser (`View`), and it
makes one of a few changes to it (`Move`). It complains of the lexeme that it is at; only complaints of
a few kinds are about something that has been read before (`Complaint.looksBack`). An action that is put
together from looks and moves consists of `Steps`. A grammar rule is more than that: what it opens, it
closes again (`Bracket`). Such an action is a `Routine`.

What all moves keep, every rule keeps (`Routine.preserves`). Likewise for two parsers: if they look
the same as long as they are together, and every move either keeps them together or sets them apart
for good, then so does every rule, and as long as they are together it yields the same from both
(`Routine.simulates`).
-/

namespace FrontEnd

/-- What a rule can find out about a parser. -/
structure View where
  token : Token
  current : Lexeme
  here : Pos
  count : Nat
  functions : Nat
  groups : Nat
  /-- the number of lexemes to come -/
  left : Nat

/-- The view of a parser. -/
def Parser.view (p : Parser) : View where
  token := p.token
  current := p.current
  here := p.here
  count := p.count
  functions := p.functions
  groups := p.groups
  left := p.upcoming.length

/-- Whether a search for one of `follow` ends with what is seen. -/
def View.endsSearch (follow : List Token) (v : View) : Bool :=
  v.token = .eof || follow.contains v.token ||
    (0 < v.functions && Parser.stopWords.contains v.token) || v.left = 0

/-- Whether a search ends is seen in the view. -/
theorem Parser.endsSearch_view (follow : List Token) (p : Parser) :
    p.view.endsSearch follow = (p.isStop follow || p.upcoming.isEmpty) := by
  unfold View.endsSearch Parser.isStop Parser.view
  cases p.upcoming <;> simp

/-- Whether the complaint may be about something that has been read before. -/
def Complaint.looksBack : Complaint → Bool
  | .importPathNotString | .unknownOverload _ | .declarationInPost | .missingCondition _
  | .separatorBeforeBlock _ | .notAValue _ => true
  | _ => false

/-- A change that a rule can make to a parser. -/
inductive Move where
  | next
  /-- complain of the current lexeme -/
  | complain (complaint : Complaint)
  /-- complain of something that has been read before -/
  | lookBack (pos : Pos) (complaint : Complaint) (h : complaint.looksBack)
  | trace (note : TraceNote)
  | enter (rule : Rule)
  | leave
  | enterFunction
  | leaveFunction
  | newGroup
  | starve

/-- The parser after a move. -/
def Move.apply : Move → Parser → Parser
  | .next, p => p.next
  | .complain complaint, p => p.complainAt p.here complaint
  | .lookBack pos complaint _, p => p.complainAt pos complaint
  | .trace note, p => p.trace note
  | .enter rule, p => { p.trace (.enter rule) with openRules := p.openRules + 1 }
  | .leave, p => Parser.trace { p with openRules := p.openRules - 1 } .leave
  | .enterFunction, p => { p with functions := p.functions + 1 }
  | .leaveFunction, p => { p with functions := p.functions - 1 }
  | .newGroup, p => { p with groups := p.groups + 1 }
  | .starve, p => { p with starved := true }

/-- What a rule opens and closes again. -/
inductive Bracket where
  | rule (rule : Rule)
  | functionBody

/-- The move that opens the bracket. -/
def Bracket.opening : Bracket → Move
  | .rule r => .enter r
  | .functionBody => .enterFunction

/-- The move that closes the bracket. -/
def Bracket.closing : Bracket → Move
  | .rule _ => .leave
  | .functionBody => .leaveFunction

/-- Whether the move neither opens nor closes a bracket, and does not trace as if it did. -/
def Move.isFlat : Move → Bool
  | .enter _ | .leave | .enterFunction | .leaveFunction => false
  | .trace (.enter _) | .trace .leave => false
  | _ => true

/-- An action that is made of looks and moves. -/
inductive Steps {α : Type} : ParseM α → Prop where
  | done (x : α) : Steps (pure x)
  | look (f : View → ParseM α) : (∀ v, Steps (f v)) → Steps fun p => f p.view p
  | move (a : Move) (m : ParseM α) : Steps m → Steps fun p => m (a.apply p)

namespace Steps

variable {α β : Type}

/-- What every move keeps, all steps keep. -/
theorem preserves {P : Parser → Prop} (hP : ∀ a p, P p → P (Move.apply a p)) {m : ParseM α}
    (h : Steps m) {p : Parser} (hp : P p) : P (m.run p).2 := by
  induction h generalizing p with
  | done => exact hp
  | look f _ ih => exact ih p.view hp
  | move a m _ ih => exact ih (hP a p hp)

/-- Some steps after others are steps. -/
theorem bind {m : ParseM α} (h : Steps m) {f : α → ParseM β} (hf : ∀ x, Steps (f x)) :
    Steps (m >>= f) := by
  induction h with
  | done x => exact hf x
  | look g _ ih => exact look (fun v => g v >>= f) ih
  | move a m _ ih => exact move a (m >>= f) ih

/-- A single move is a step. -/
theorem ofMove (a : Move) : Steps (modify a.apply) := move a (pure ()) (done ())

end Steps

/-- An action inside a bracket. -/
def Bracket.around {α : Type} (b : Bracket) (m : ParseM α) : ParseM α := do
  modify b.opening.apply
  let x ← m
  modify b.closing.apply
  return x

/-- An action that is made of looks and moves, in which every bracket is closed. -/
inductive Routine : {α : Type} → ParseM α → Prop where
  | done {α : Type} (x : α) : Routine (pure x)
  | look {α : Type} (f : View → ParseM α) : (∀ v, Routine (f v)) → Routine fun p => f p.view p
  | move {α : Type} (a : Move) (ha : a.isFlat) (m : ParseM α) :
      Routine m → Routine fun p => m (a.apply p)
  | within {α β : Type} (b : Bracket) (m : ParseM α) (f : α → ParseM β) :
      Routine m → (∀ x, Routine (f x)) → Routine (b.around m >>= f)

namespace Routine

variable {α β : Type}

/-- A routine is made of steps. -/
theorem steps {m : ParseM α} (h : Routine m) : Steps m := by
  induction h with
  | done x => exact .done x
  | look f _ ih => exact .look f ih
  | move a _ m _ ih => exact .move a m ih
  | within b m f _ _ ih ihf =>
    exact ((Steps.ofMove b.opening).bind fun _ => ih.bind fun x =>
      .move b.closing (pure x) (.done x)).bind ihf

/-- What every move keeps, every routine keeps. -/
theorem preserves {P : Parser → Prop} (hP : ∀ a p, P p → P (Move.apply a p)) {m : ParseM α}
    (h : Routine m) {p : Parser} (hp : P p) : P (m.run p).2 := h.steps.preserves hP hp

/-- One routine after another is a routine. -/
theorem bind {m : ParseM α} (h : Routine m) {f : α → ParseM β} (hf : ∀ x, Routine (f x)) :
    Routine (m >>= f) := by
  induction h with
  | done x => exact hf x
  | look g _ ih => exact look (fun v => g v >>= f) fun v => ih v hf
  | move a ha m _ ih => exact move a ha (m >>= f) (ih hf)
  | within b m g hm _ _ ihg => exact within b m (fun x => g x >>= f) hm fun x => ihg x hf

/-- What is inside a bracket is a routine. -/
theorem around (b : Bracket) {m : ParseM α} (h : Routine m) : Routine (b.around m) :=
  within b m pure h done

/-- A single move is a routine, unless it opens or closes a bracket. -/
theorem ofMove (a : Move) (ha : a.isFlat) : Routine (modify a.apply) := move a ha (pure ()) (done ())

/-- A single look is a routine. -/
theorem ofLook (f : View → α) : Routine (do return f (← get).view) :=
  look (fun v => pure (f v)) fun v => done (f v)

end Routine

/-- What an action does after a look at the whole parser is a routine if it only depends on the
view. -/
theorem Routine.ofGet {α : Type} (f : Parser → ParseM α) (h : ∀ p, Routine (f p))
    (hf : ∀ p q, p.view = q.view → f p = f q) : Routine (get >>= f) := by
  classical
  let g (v : View) : ParseM α := if hv : ∃ p : Parser, p.view = v then f hv.choose else f default
  have hg (p : Parser) : g p.view = f p := by
    have hv : ∃ q : Parser, q.view = p.view := ⟨p, rfl⟩
    rw [show g p.view = f hv.choose from dif_pos hv]
    exact hf _ _ hv.choose_spec
  have heq : (get >>= f) = fun p => g p.view p := by
    funext p
    rw [hg]
    rfl
  rw [heq]
  refine Routine.look g fun v => ?_
  dsimp only [g]
  split <;> exact h _

/-- The operator at the current lexeme is seen in the view. -/
theorem Parser.operator?_of_view {p q : Parser} (h : p.view = q.view) :
    p.operator? = q.operator? := by
  have ht : p.token = q.token := congrArg View.token h
  have hc : p.current = q.current := congrArg View.current h
  simp only [Parser.operator?, ht, hc]

/-- How many complaints there are is seen in the view. -/
theorem Parser.count_of_view {p q : Parser} (h : p.view = q.view) : p.count = q.count :=
  congrArg View.count h

/-! ## What moves keep -/

/-- A property that does not depend on where a parser is, and that what it says does not end. Only a
parser that has not been finished says anything. -/
structure Parser.Lasting (P : Parser → Prop) : Prop where
  diagnose : ∀ {p} pos cause, p.aborted = false → P p → P (p.diagnose pos cause)
  trace : ∀ {p} note, P p → P (p.trace note)
  go : ∀ {p : Parser} current upcoming base, P p → P { p with current, upcoming, base }
  keepBooks : ∀ {p : Parser} functions openRules groups starved,
    P p → P { p with functions, openRules, groups, starved }

namespace Parser.Lasting

variable {P : Parser → Prop} (h : Parser.Lasting P) {p : Parser}
include h

/-- Hearing of what happened under way keeps a lasting property: it complains, or changes the base at most. -/
theorem hear (hp : P p) (report : Report) : P (p.hear report) := by
  unfold Parser.hear
  split
  · exact hp
  · next ha =>
    have ha' : p.aborted = false := by simpa using ha
    split
    · exact h.diagnose _ _ ha' hp
    · unfold Parser.direct
      split
      · exact hp
      · split
        · exact hp
        · exact h.diagnose _ _ ha' hp
        · exact h.go p.current p.upcoming _ hp

/-- So does hearing of everything that happened under way. -/
theorem foldl_hear (hp : P p) (reports : List Report) : P (reports.foldl Parser.hear p) := by
  induction reports generalizing p with
  | nil => exact hp
  | cons r rest ih => exact ih (h.hear hp r)

/-- Going on to the next lexeme keeps a lasting property. -/
theorem next (hp : P p) : P p.next := by
  unfold Parser.next
  split
  · exact hp
  · split
    · exact hp
    · exact h.foldl_hear (h.go _ _ p.base hp) _

/-- A complaint keeps a lasting property; only a parser that has not been finished makes one. -/
theorem complainAt (hp : P p) (pos : Pos) (c : Complaint) : P (p.complainAt pos c) := by
  have ht := h.trace (.remark ("syntax error: " ++ c.words)) hp
  unfold Parser.complainAt
  dsimp only
  generalize p.trace _ = p' at ht ⊢
  split
  · exact ht
  · next hc =>
    refine h.diagnose _ _ ?_ ht
    cases ha : p'.aborted with
    | false => rfl
    | true =>
      -- A parser that has been finished is at the end and has a first diagnostic.
      have he : p'.token = .eof := if_pos ha
      have hf : p'.first?.isSome := by
        simp only [Parser.aborted, Bool.and_eq_true] at ha
        exact ha.2
      exact absurd (by simp [he, hf]) hc

/-- Every move keeps a lasting property. -/
theorem move (a : Move) (hp : P p) : P (a.apply p) := by
  cases a with
  | next => exact h.next hp
  | complain c => exact h.complainAt hp p.here c
  | lookBack pos c => exact h.complainAt hp pos c
  | trace note => exact h.trace note hp
  | enter rule => exact h.keepBooks _ _ _ _ (h.trace (.enter rule) hp)
  | leave => exact h.trace .leave (h.keepBooks p.functions _ p.groups p.starved hp)
  | enterFunction => exact h.keepBooks _ _ _ _ hp
  | leaveFunction => exact h.keepBooks _ _ _ _ hp
  | newGroup => exact h.keepBooks _ _ _ _ hp
  | starve => exact h.keepBooks _ _ _ _ hp

/-- All steps keep a lasting property. -/
theorem steps {α : Type} {m : ParseM α} (hm : Steps m) (hp : P p) : P (m.run p).2 :=
  hm.preserves (fun a _ => h.move a) hp

/-- Every routine keeps a lasting property. -/
theorem run {α : Type} {m : ParseM α} (hm : Routine m) (hp : P p) : P (m.run p).2 :=
  h.steps hm.steps hp

end Parser.Lasting

/-! ## Two parsers -/

/-- A relation between two parsers that every move keeps, or breaks for good. -/
structure Simulation where
  /-- the parsers look the same -/
  together : Parser → Parser → Prop
  /-- the parsers differ, and whatever they do does not matter any more -/
  apart : Parser → Parser → Prop
  view_eq : ∀ {p q}, together p q → p.view = q.view
  move : ∀ a {p q}, together p q →
    together (Move.apply a p) (Move.apply a q) ∨ apart (Move.apply a p) (Move.apply a q)
  apart_left : ∀ a {p q}, apart p q → apart (Move.apply a p) q
  apart_right : ∀ a {p q}, apart p q → apart p (Move.apply a q)

/-- Once parsers are apart, they stay apart whatever each of them does. -/
theorem Simulation.apart_run (S : Simulation) {α β : Type} {m : ParseM α} {n : ParseM β}
    (hm : Steps m) (hn : Steps n) {p q : Parser} (h : S.apart p q) :
    S.apart (m.run p).2 (n.run q).2 := by
  have hp : S.apart (m.run p).2 q := hm.preserves (P := (S.apart · q)) (fun a _ => S.apart_left a) h
  exact hn.preserves (fun a _ => S.apart_right a) hp

/-- Steps do the same to parsers that are together, or set them apart. -/
theorem Steps.simulates (S : Simulation) {α : Type} {m : ParseM α} (h : Steps m)
    {p q : Parser} (hpq : S.together p q) :
    ((m.run p).1 = (m.run q).1 ∧ S.together (m.run p).2 (m.run q).2) ∨
      S.apart (m.run p).2 (m.run q).2 := by
  induction h generalizing p q with
  | done x => exact .inl ⟨rfl, hpq⟩
  | look f _ ih =>
    have hv : f p.view = f q.view := by rw [S.view_eq hpq]
    change (((f p.view).run p).1 = ((f q.view).run q).1 ∧
      S.together ((f p.view).run p).2 ((f q.view).run q).2) ∨
      S.apart ((f p.view).run p).2 ((f q.view).run q).2
    rw [hv]
    exact ih q.view hpq
  | move a m hm ih =>
    rcases S.move a hpq with h | h
    · exact ih h
    · exact .inr (S.apart_run hm hm h)

/-- A routine does the same to parsers that are together, or sets them apart. -/
theorem Routine.simulates (S : Simulation) {α : Type} {m : ParseM α} (h : Routine m)
    {p q : Parser} (hpq : S.together p q) :
    ((m.run p).1 = (m.run q).1 ∧ S.together (m.run p).2 (m.run q).2) ∨
      S.apart (m.run p).2 (m.run q).2 := h.steps.simulates S hpq

end FrontEnd
