import FrontEnd.Proofs.Grammar.Calm

/-!
# Runs that are sure to succeed

`Takes` promises of an action that from the given lexemes it gets to others, with a result of the given
kind and without a complaint. It is a case of `Reaches`, which only promises that the action gets to a
point from where it goes on like another; that is how a loop is followed turn by turn. Both are proved
by going through the action step by step: there is a law for each thing that it may start with.
-/

namespace FrontEnd

namespace ParseM

variable {α β γ δ : Type}

/-- The action takes the lexemes from `ts` to `us` and goes on like `k x`, for some `x` in `Q`. -/
def Reaches (g : Nat) (ts : List Lexeme) (m : ParseM β) (Q : α → Prop) (k : α → ParseM β) (g' : Nat)
    (us : List Lexeme) : Prop :=
  ∀ (w : Said) (p : Parser), p.On w g ts → ∃ x q, Q x ∧ q.On w g' us ∧ m.run p = (k x).run q

/-- The action takes the lexemes from `ts` to `us`, with a result in `Q`. -/
abbrev Takes (g : Nat) (ts : List Lexeme) (m : ParseM α) (Q : α → Prop) (g' : Nat)
    (us : List Lexeme) : Prop :=
  Reaches g ts m Q pure g' us

/-- What takes lexemes gets a parser from the ones to the others, with nothing said. -/
theorem Takes.run {g g' : Nat} {ts us : List Lexeme} {m : ParseM α} {Q : α → Prop}
    (h : Takes g ts m Q g' us) {w : Said} {p : Parser} (hp : p.On w g ts) :
    (m.run p).2.On w g' us ∧ Q (m.run p).1 := by
  obtain ⟨x, q, hQ, hq, hrun⟩ := h w p hp
  rw [hrun]
  exact ⟨hq, hQ⟩

namespace Reaches

variable {g g' g'' : Nat} {ts us vs : List Lexeme} {l : Lexeme} {t : Token} {m : ParseM β}
  {Q Q' : α → Prop} {k : α → ParseM β}

/-- An action goes on like itself. -/
theorem refl {x : α} (h : Q x) : Reaches g ts (k x) Q k g ts := fun _ p hp => ⟨x, p, h, hp, rfl⟩

/-- What an action goes on like may go on in turn. -/
theorem trans {R : γ → Prop} {k' : γ → ParseM β} (hm : Reaches g ts m Q k g' us)
    (hk : ∀ x, Q x → Reaches g' us (k x) R k' g'' vs) : Reaches g ts m R k' g'' vs := by
  intro w p hp
  obtain ⟨x, q, hQ, hat, hrun⟩ := hm w p hp
  obtain ⟨y, r, hR, hat', hrun'⟩ := hk x hQ w q hat
  exact ⟨y, r, hR, hat', hrun.trans hrun'⟩

/-- Less may be said of the results. -/
theorem weaken (hm : Reaches g ts m Q' k g' us) (h : ∀ x, Q' x → Q x) :
    Reaches g ts m Q k g' us := by
  intro w p hp
  obtain ⟨x, q, hQ, hat, hrun⟩ := hm w p hp
  exact ⟨x, q, h x hQ, hat, hrun⟩

/-- An action that takes lexemes, and what is done with its result. -/
theorem bind {m : ParseM γ} {R : γ → Prop} {f : γ → ParseM β} (hm : Takes g ts m R g' us)
    (hf : ∀ x, R x → Reaches g' us (f x) Q k g'' vs) : Reaches g ts (m >>= f) Q k g'' vs := by
  intro w p hp
  obtain ⟨hat, hR⟩ := hm.run hp
  exact hf _ hR w _ hat

/-- Looking at the kind of the first lexeme. -/
theorem onToken {f : Token → ParseM β} (h : Reaches g ts (f (peek ts)) Q k g' us) :
    Reaches g ts (token >>= f) Q k g' us := by
  intro w p hp
  rw [run_bind, run_token, hp.token]
  exact h w p hp

/-- Looking at the position, which may be any. -/
theorem onHere {f : Pos → ParseM β} (h : ∀ pos, Reaches g ts (f pos) Q k g' us) :
    Reaches g ts (here >>= f) Q k g' us := fun w p hp => h p.here w p hp

/-- Looking at the first lexeme. -/
theorem onCurrent {f : Lexeme → ParseM β} (h : Reaches g (l :: ts) (f l) Q k g' us) :
    Reaches g (l :: ts) (current >>= f) Q k g' us := by
  intro w p hp
  rw [run_bind, run_current, hp.current]
  exact h w p hp

/-- Looking at the parser, of which only its lexemes and groups are known. -/
theorem onGet {f : Parser → ParseM β} (h : ∀ w q, Parser.On w g ts q → Reaches g ts (f q) Q k g' us) :
    Reaches g ts (get >>= f) Q k g' us := fun w p hp => h w p hp w p hp

/-- A move that gets from the ones to the others. -/
theorem onMove (a : Move) (h : ∀ {w} {p : Parser}, p.On w g ts → (a.apply p).On w g' us) {f : Unit → ParseM β}
    (hf : Reaches g' us (f ()) Q k g'' vs) : Reaches g ts (modify a.apply >>= f) Q k g'' vs :=
  fun w _ hp => hf w _ (h hp)

/-- Reading on. -/
theorem onNext {f : Unit → ParseM β} (h : Reaches g ts (f ()) Q k g' us) :
    Reaches g (l :: ts) (next >>= f) Q k g' us := onMove .next (fun hp => hp.next) h

/-- A line of the trace takes nothing. -/
theorem onRemark {text : String} {f : Unit → ParseM β} (h : Reaches g ts (f ()) Q k g' us) :
    Reaches g ts (remark text >>= f) Q k g' us :=
  onMove (.trace (.remark text)) (fun hp => hp.trace _) h

/-- A token that is there is taken. -/
theorem onGot (hl : l.token = t) {f : Bool → ParseM β} (h : Reaches g ts (f true) Q k g' us) :
    Reaches g (l :: ts) (got t >>= f) Q k g' us := by
  intro w p hp
  have ht : p.token = t := hp.token.trans hl
  rw [run_bind, run_got, if_pos ht]
  exact h w _ hp.next

/-- A token that is not there is left. -/
theorem onMissed (ht : peek ts ≠ t) {f : Bool → ParseM β} (h : Reaches g ts (f false) Q k g' us) :
    Reaches g ts (got t >>= f) Q k g' us := by
  intro w p hp
  have ht : p.token ≠ t := fun h => ht (hp.token.symm.trans h)
  rw [run_bind, run_got, if_neg ht]
  exact h w _ hp

/-- A token that is asked for is taken if it is there. -/
theorem onWant (hl : l.token = t) {f : Unit → ParseM β} (h : Reaches g ts (f ()) Q k g' us) :
    Reaches g (l :: ts) (want t >>= f) Q k g' us := by
  have hw : Takes g (l :: ts) (want t) (fun _ => True) g ts := onGot hl (refl trivial)
  exact bind hw fun _ _ => h

/-- A group gets the next number. -/
theorem onNewGroup {f : Nat → ParseM β} (h : Reaches (g + 1) ts (f g) Q k g' us) :
    Reaches g ts (newGroup >>= f) Q k g' us := by
  intro w p hp
  obtain rfl := hp.groups
  exact h w { p with groups := p.groups + 1 }
    ⟨hp.said, hp.aborted, rfl, hp.lexemes, hp.fine, hp.calm⟩

/-- Yielding a value takes nothing. -/
theorem pure {x : α} (h : Q x) : Takes g ts (pure x) Q g ts := refl h

/-- Tracing a rule takes nothing. -/
theorem traced {m : ParseM α} (rule : Rule) (hm : Takes g ts m Q g' us) :
    Takes g ts (traced rule m) Q g' us := by
  have hleave {x : α} (hx : Q x) : Takes g' us
      (modify Move.leave.apply >>= fun _ => Pure.pure x : ParseM α) Q g' us := by
    refine onMove .leave (fun {w p} hp => ?_) (pure hx)
    have hp' : Parser.On w g' us { p with openRules := p.openRules - 1 } := hp.congr rfl rfl rfl rfl rfl
    exact hp'.trace .leave
  exact onMove (.enter rule) (fun hp => (hp.trace (.enter rule)).congr rfl rfl rfl rfl rfl)
    (bind hm fun _ hx => hleave hx)

end Reaches

end ParseM

end FrontEnd
