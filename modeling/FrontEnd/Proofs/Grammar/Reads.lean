import FrontEnd.Proofs.Grammar.Calm

/-!
# What runs get to

`Reads` is a statement about every run of an action: unless it complains, it gets from lexemes with
one property to lexemes with another, of which there is a bounded number. It is closed under
sequencing, and each basic action has its law.

In a run that has complained, nothing matters any more but that the complaint lasts. Therefore `Reads`
allows for it before the action as well as after, and the law of sequencing needs no side condition.
-/

namespace FrontEnd

/-- A property of the number of groups and of the lexemes to come. -/
abbrev Outlook := Nat → List Lexeme → Prop

namespace ParseM

variable {α β : Type}

/-- The parser has complained, or it is at lexemes with `P`, at most `n` of them. -/
def Stands (n : Int) (P : Outlook) (p : Parser) : Prop :=
  p.HasSaid ∨ ∃ g ts, P g ts ∧ ts.length ≤ n ∧ p.At g ts

/-- Unless it complains, the action gets from lexemes with `P`, at most `n` of them, to lexemes with
`Q` for its result, at most `k` of them. -/
def Reads (n : Int) (P : Outlook) (m : ParseM α) (k : Int) (Q : α → Outlook) : Prop :=
  ∀ p, Stands n P p → Stands k (Q (m.run p).1) (m.run p).2

/-- What is left after a lexeme of the given class. -/
def After (t : Token) (P : Outlook) : Outlook := fun g us => ∃ l, l.token = t ∧ P g (l :: us)

/-- What is left after something with `R`. -/
def Past (R : List Lexeme → List Lexeme → Prop) (P : Outlook) : Outlook :=
  fun g us => ∃ ts, P g ts ∧ R ts us

/-- What is left after something with `R`, which may contain groups. -/
def PastGroups (R : Nat → List Lexeme → Nat → List Lexeme → Prop) (P : Outlook) : Outlook :=
  fun g' us => ∃ g ts, P g ts ∧ R g ts g' us

/-- The outlook of a parser that has complained. -/
def never : Outlook := fun _ _ => False

namespace Reads

variable {n k j : Int} {P P' : Outlook} {m : ParseM α} {f : α → ParseM β}
  {Q Q' : α → Outlook} {R : β → Outlook}

/-- Actions one after the other, by what is known in between. -/
theorem bind (hm : Reads n P m k Q) (hf : ∀ x, Reads k (Q x) (f x) j R) :
    Reads n P (m >>= f) j R :=
  fun p hp => hf _ _ (hm p hp)

/-- Less may be known before an action, and less be asked after it. -/
theorem weaken (hm : Reads n P' m k Q') (hP : ∀ g ts, P g ts → P' g ts)
    (hQ : ∀ x g ts, Q' x g ts → Q x g ts) (hk : k ≤ j) : Reads n P m j Q := by
  intro p hp
  have hp' : Stands n P' p := by
    rcases hp with hs | ⟨g, ts, hP', hn, hat⟩
    · exact .inl hs
    · exact .inr ⟨g, ts, hP g ts hP', hn, hat⟩
  rcases hm p hp' with hs | ⟨g, ts, hQ', hn, hat⟩
  · exact .inl hs
  · exact .inr ⟨g, ts, hQ _ g ts hQ', Int.le_trans hn hk, hat⟩

/-- Yielding a value reads nothing. -/
theorem pure {x : α} (h : ∀ g ts, P g ts → Q x g ts) (hk : n ≤ k) :
    Reads n P (pure x : ParseM α) k Q := by
  rintro p (hs | ⟨g, ts, hP, hn, hat⟩)
  · exact .inl hs
  · exact .inr ⟨g, ts, h g ts hP, Int.le_trans hn hk, hat⟩

/-- What is known of any lexemes to come may be used. -/
theorem known (hm : Reads n (fun g ts => P g ts ∧ (ts.length : Int) ≤ n ∧ ∀ l ∈ ts, l.Fine) m k Q) :
    Reads n P m k Q := by
  rintro p (hs | ⟨g, ts, hP, hn, hat⟩)
  · exact hm p (.inl hs)
  · exact hm p (.inr ⟨g, ts, ⟨hP, hn, hat.fine⟩, hn, hat⟩)

/-- The number of lexemes may be known to be smaller. -/
theorem tighten (hm : Reads j P m k Q) (h : ∀ g ts, P g ts → (ts.length : Int) ≤ j) :
    Reads n P m k Q := by
  rintro p (hs | ⟨g, ts, hP, hn, hat⟩)
  · exact hm p (.inl hs)
  · exact hm p (.inr ⟨g, ts, hP, h g ts hP, hat⟩)

/-- In a run that must have complained, any rule will do. -/
theorem impossible (hm : Routine m) (h : ∀ g ts, ¬P g ts) : Reads n P m k Q := by
  rintro p (hs | ⟨g, ts, hP, -⟩)
  · exact .inl (Parser.lasting_hasSaid.run hm hs)
  · exact (h g ts hP).elim

/-- In a run that has complained, any rule will do. -/
theorem never (hm : Routine m) : Reads n never m k Q := impossible hm fun _ _ h => h

/-- Less than no lexemes are left only in a run that has complained. -/
theorem overrun (hm : Routine m) (hn : n < 0) : Reads n P m k Q := by
  rintro p (hs | ⟨_, ts, _, hlen, -⟩)
  · exact .inl (Parser.lasting_hasSaid.run hm hs)
  · omega

/-- What only changes the books gets nowhere. -/
theorem move (a : Move) (h : ∀ {g ts p}, p.At g ts → (a.apply p).At g ts) :
    Reads n P (modify a.apply) n fun _ => P := by
  rintro p (hs | ⟨g, ts, hP, hn, hat⟩)
  · exact .inl (Parser.lasting_hasSaid.move a hs)
  · exact .inr ⟨g, ts, hP, hn, h hat⟩

/-- Looking at the kind of the current lexeme. -/
theorem token : Reads n P token n fun t g ts => P g ts ∧ peek ts = t := by
  rintro p (hs | ⟨g, ts, hP, hn, hat⟩)
  · exact .inl hs
  · exact .inr ⟨g, ts, ⟨hP, hat.token.symm⟩, hn, hat⟩

/-- Looking at the current position. -/
theorem here : Reads n P here n fun _ => P := fun _ hp => hp

/-- Making a hole at the current position. -/
theorem hole : Reads n P hole n fun _ => P := fun _ hp => hp

/-- What a look at the parser shows is what is to come. -/
theorem get : Reads n P get n fun q g ts => P g ts ∧ q.At g ts := by
  rintro p (hs | ⟨g, ts, hP, hn, hat⟩)
  · exact .inl hs
  · exact .inr ⟨g, ts, ⟨hP, hat⟩, hn, hat⟩

/-- If there is a lexeme before the end, it is the current one. -/
theorem current : Reads n P current n fun l g ts =>
    P g ts ∧ ∀ l' us, ts = l' :: us → l' = l ∧ l.Fine := by
  rintro p (hs | ⟨g, ts, hP, hn, hat⟩)
  · exact .inl hs
  · refine .inr ⟨g, ts, ⟨hP, ?_⟩, hn, hat⟩
    rintro l us rfl
    have hl : p.current = l := hat.current
    have hfine : p.current.Fine := by
      rw [hl]
      exact hat.fine l List.mem_cons_self
    exact ⟨hl.symm, hfine⟩

/-- Reading on takes a lexeme, where there is one. -/
theorem next (h : ∀ g ts, P g ts → ts ≠ []) :
    Reads n P next (n - 1) fun _ g us => ∃ l, P g (l :: us) := by
  rintro p (hs | ⟨g, ts, hP, hn, hat⟩)
  · exact .inl (Parser.lasting_hasSaid.next hs)
  · cases ts with
    | nil => exact (h g [] hP rfl).elim
    | cons l us =>
      have hlen : (us.length : Int) ≤ n - 1 := by
        rw [List.length_cons] at hn
        omega
      exact .inr ⟨g, us, ⟨l, hP⟩, hlen, hat.next⟩

/-- Before any token but the end there is a lexeme. -/
theorem ne_nil_of_peek {ts : List Lexeme} {t : Token} (h : peek ts = t) (ht : t ≠ .eof) :
    ts ≠ [] := by
  rintro rfl
  exact ht h.symm

/-- Reading on from a token of the given class. -/
theorem nextAfter {t : Token} (ht : t ≠ .eof) :
    Reads n (fun g ts => P g ts ∧ peek ts = t) ParseM.next (n - 1) fun _ => After t P :=
  (next fun _ _ h => ne_nil_of_peek h.2 ht).weaken (fun _ _ h => h)
    (fun _ _ _ ⟨l, hP, hl⟩ => ⟨l, hl, hP⟩) (Int.le_refl _)

/-- Behind a complaint nothing matters. -/
theorem complainAt (pos : Pos) (c : Complaint) :
    Reads n P (complainAt pos c) k fun _ => ParseM.never := by
  rintro p (hs | ⟨g, ts, hP, hn, hat⟩)
  · exact .inl (Parser.lasting_hasSaid.complainAt hs pos c)
  · exact .inl (hat.hasSaid_complainAt pos c)

/-- Behind a complaint at the current lexeme nothing matters. -/
theorem complain (c : Complaint) : Reads n P (complain c) k fun _ => ParseM.never :=
  here.bind fun pos => complainAt pos c

/-- A line of the trace reads nothing. -/
theorem remark (text : String) : Reads n P (remark text) n fun _ => P :=
  move (.trace (.remark text)) fun h => h.trace _

/-- Tracing a rule reads nothing. -/
theorem traced (rule : Rule) (hm : Reads n P m k Q) : Reads n P (traced rule m) k Q := by
  have henter : Reads n P (modify (Move.enter rule).apply) n fun _ => P :=
    move (.enter rule) fun h => (h.trace (.enter rule)).congr rfl rfl rfl rfl rfl
  have hleave (x : α) : Reads k (Q x) (modify Move.leave.apply) k fun _ => Q x := by
    refine move .leave fun {g ts p} h => ?_
    have h' : Parser.At g ts { p with openRules := p.openRules - 1 } := h.congr rfl rfl rfl rfl rfl
    exact h'.trace .leave
  exact henter.bind fun _ => hm.bind fun x => (hleave x).bind fun _ =>
    .pure (fun _ _ h => h) (Int.le_refl _)

/-- A token is read, or it is not there. -/
theorem gotThen {t : Token} (ht : t ≠ .eof) {f : Bool → ParseM β}
    (hyes : Reads (n - 1) (After t P) (f true) j R)
    (hno : Reads n (fun g ts => P g ts ∧ peek ts ≠ t) (f false) j R) :
    Reads n P (got t >>= f) j R := by
  rintro p hp
  rw [run_bind, run_got]
  split
  · next hpt =>
    refine hyes _ ?_
    rcases hp with hs | ⟨g, ts, hP, hn, hat⟩
    · exact .inl (Parser.lasting_hasSaid.next hs)
    · have hpeek : peek ts = t := hat.token.symm.trans hpt
      exact nextAfter ht p (.inr ⟨g, ts, ⟨hP, hpeek⟩, hn, hat⟩)
  · next hpt =>
    refine hno _ ?_
    rcases hp with hs | ⟨g, ts, hP, hn, hat⟩
    · exact .inl hs
    · exact .inr ⟨g, ts, ⟨hP, fun h => hpt (hat.token.trans h)⟩, hn, hat⟩

/-- A token that is asked for is read, or complained about. -/
theorem want {t : Token} (ht : t ≠ .eof) : Reads n P (want t) (n - 1) fun _ => After t P := by
  refine gotThen ht (.pure (fun _ _ h => h) (Int.le_refl _)) ?_
  exact (complain _).weaken (fun _ _ h => h) (fun _ _ _ h => h.elim) (Int.le_refl _)

end Reads

end ParseM

end FrontEnd
