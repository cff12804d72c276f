import FrontEnd.Proofs.Runs
import FrontEnd.Proofs.Termination.Reach

/-!
# Actions that do the same

Two actions are alike at a parser if they do the same to it, and that does not lead back. The judgement
also bounds where they lead: what it says afterwards is about the result, the token and the number of
lexemes left.

It is closed under sequencing, and each basic action, being like itself, has its law.
-/

namespace FrontEnd

namespace ParseM

variable {α β : Type} {p : Parser}

/-- Both actions do the same to `p`. They reach a parser that is not before `p`, and `Q` holds of their
result, the token there and the number of lexemes left. -/
structure Alike (m m' : ParseM α) (p : Parser) (Q : α → Token → Nat → Prop) : Prop where
  run_eq : m.run p = m'.run p
  reaches : p.Reaches (m.run p).2
  post : Q (m.run p).1 (m.run p).2.token (m.run p).2.left

namespace Alike

variable {m m' : ParseM α} {f f' : α → ParseM β} {Q Q' : α → Token → Nat → Prop}
  {R : β → Token → Nat → Prop}

/-- What follows alike actions need only do the same where they lead. -/
theorem run_bind_eq (hm : Alike m m' p Q)
    (hf : ∀ x q, p.Reaches q → Q x q.token q.left → (f x).run q = (f' x).run q) :
    (m >>= f).run p = (m' >>= f').run p :=
  calc (m >>= f).run p = (f (m.run p).1).run (m.run p).2 := run_bind m f p
    _ = (f' (m.run p).1).run (m.run p).2 := hf _ _ hm.reaches hm.post
    _ = (f' (m'.run p).1).run (m'.run p).2 := by rw [hm.run_eq]
    _ = (m' >>= f').run p := (run_bind m' f' p).symm

/-- Actions that do the same, one after the other. -/
theorem bind (hm : Alike m m' p Q)
    (hf : ∀ x q, p.Reaches q → Q x q.token q.left → Alike (f x) (f' x) q R) :
    Alike (m >>= f) (m' >>= f') p R := by
  have h := hf (m.run p).1 (m.run p).2 hm.reaches hm.post
  refine ⟨?_, hm.reaches.trans h.reaches, h.post⟩
  exact hm.run_bind_eq fun x q hq hQ => (hf x q hq hQ).run_eq

/-- Less may be said of where actions lead. -/
theorem weaken (hm : Alike m m' p Q) (hQ : ∀ x t n, n ≤ p.left → Q x t n → Q' x t n) :
    Alike m m' p Q' :=
  ⟨hm.run_eq, hm.reaches, hQ _ _ _ hm.reaches.left_le hm.post⟩

/-- Yielding a value leaves a parser as it is. -/
theorem pure {x : α} (hp : p.Ends) (h : Q x p.token p.left) :
    Alike (pure x : ParseM α) (Pure.pure x) p Q :=
  ⟨rfl, .refl hp, h⟩

/-- Only the runs matter. -/
theorem ofRun {n n' : ParseM α} (h : Alike n n' p Q) (hm : m.run p = n.run p)
    (hm' : m'.run p = n'.run p) : Alike m m' p Q := by
  refine ⟨?_, ?_, ?_⟩
  · rw [hm, hm', h.run_eq]
  · rw [hm]
    exact h.reaches
  · rw [hm]
    exact h.post

/-- What only looks at the parser may be replaced by what it sees. -/
theorem onToken {f f' : Token → ParseM β} (h : Alike (f p.token) (f' p.token) p R) :
    Alike (token >>= f) (token >>= f') p R := h.ofRun rfl rfl

/-- Looking at the current position. -/
theorem onHere {f f' : Pos → ParseM β} (h : Alike (f p.here) (f' p.here) p R) :
    Alike (here >>= f) (here >>= f') p R := h.ofRun rfl rfl

/-- Looking at the current lexeme. -/
theorem onCurrent {f f' : Lexeme → ParseM β} (h : Alike (f p.current) (f' p.current) p R) :
    Alike (current >>= f) (current >>= f') p R := h.ofRun rfl rfl

/-- Looking at the parser. -/
theorem onGet {f f' : Parser → ParseM β} (h : Alike (f p) (f' p) p R) :
    Alike (get >>= f) (get >>= f') p R := h.ofRun rfl rfl

/-- Making a hole at the current position. -/
theorem onHole {f f' : Expr → ParseM β} (h : Alike (f (.bad p.here)) (f' (.bad p.here)) p R) :
    Alike (hole >>= f) (hole >>= f') p R := h.ofRun rfl rfl

/-- A change with which a parser lingers does the same. -/
theorem lingers {g : Parser → Parser} (hp : p.Ends) (hg : p.Lingers (g p)) :
    Alike (modify g) (modify g) p fun _ _ _ => True :=
  ⟨rfl, hg.reaches hp, trivial⟩

/-- Reading on leaves fewer lexemes, unless at the end. -/
theorem next (hp : p.Ends) :
    Alike next next p fun _ _ n => p.token ≠ .eof → n < p.left :=
  ⟨rfl, hp.reaches_next, hp.left_next_lt⟩

/-- A complaint does the same, and does not read on. -/
theorem complainAt (hp : p.Ends) (pos : Pos) (c : Complaint) :
    Alike (complainAt pos c) (ParseM.complainAt pos c) p fun _ _ _ => True :=
  lingers hp (.complainAt p pos c)

/-- A complaint at the current lexeme does the same. -/
theorem complain (hp : p.Ends) (c : Complaint) :
    Alike (complain c) (ParseM.complain c) p fun _ _ _ => True :=
  onHere (complainAt hp p.here c)

/-- A line of the trace leaves token and lexemes as they are. -/
theorem remark (hp : p.Ends) (text : String) :
    Alike (remark text) (ParseM.remark text) p fun _ t n => t = p.token ∧ n = p.left := by
  refine ⟨rfl, (Parser.Lingers.trace p _).reaches hp, ?_⟩
  change (p.trace (.remark text)).token = p.token ∧ (p.trace (.remark text)).left = p.left
  unfold Parser.trace
  split <;> exact ⟨rfl, rfl⟩

/-- Recovery takes a lexeme, unless the search ends where it starts. -/
theorem recover (hp : p.Ends) {follow : List Token} (hf : follow ≠ []) :
    Alike (recover follow) (ParseM.recover follow) p fun _ _ n =>
      p.isStop follow = false → n < p.left :=
  ⟨rfl, hp.reaches_recover follow, hp.left_recover_lt hf⟩

/-- A recovery without tokens to look for reads on, unless at the end. -/
theorem recover_nil (hp : p.Ends) :
    Alike (ParseM.recover []) (ParseM.recover []) p fun _ _ n => p.token ≠ .eof → n < p.left :=
  ⟨rfl, hp.reaches_recover [], hp.left_recover_nil_lt⟩

/-- To enter and leave a rule changes neither the token nor what is left. -/
theorem traced (rule : Rule) (hp : p.Ends)
    (hm : ∀ q, p.Reaches q → q.token = p.token → q.left = p.left → Alike m m' q Q) :
    Alike (traced rule m) (ParseM.traced rule m') p Q := by
  -- Entering and leaving a rule only writes to the trace and counts, which no later move reads.
  have hlast (r : Parser) : (Move.apply .leave r).token = r.token ∧
      (Move.apply .leave r).left = r.left ∧ r.Lingers (Move.apply .leave r) := by
    unfold Move.apply Parser.trace
    dsimp only
    split <;> exact ⟨rfl, rfl, rfl, rfl, rfl, rfl, id⟩
  have hfirst : (Move.apply (.enter rule) p).token = p.token ∧
      (Move.apply (.enter rule) p).left = p.left ∧ p.Lingers (Move.apply (.enter rule) p) := by
    unfold Move.apply Parser.trace
    dsimp only
    split <;> exact ⟨rfl, rfl, rfl, rfl, rfl, rfl, id⟩
  obtain ⟨htoken, hleft, hlingers⟩ := hfirst
  have hq := hlingers.reaches hp
  have h := hm _ hq htoken hleft
  obtain ⟨htoken', hleft', hlingers'⟩ := hlast (m.run (Move.apply (.enter rule) p)).2
  have hrun := run_traced rule m p
  have hrun' := run_traced rule m' p
  rw [← h.run_eq] at hrun'
  refine ⟨hrun.trans hrun'.symm, ?_, ?_⟩
  · rw [hrun]
    exact (hq.trans h.reaches).trans (hlingers'.reaches h.reaches.ends)
  · rw [hrun]
    dsimp only
    rw [htoken', hleft']
    exact h.post

/-- Taking a token if it is there does the same. -/
theorem got (hp : p.Ends) (t : Token) :
    Alike (got t) (ParseM.got t) p fun _ _ _ => True := by
  refine .onToken ?_
  split
  · exact (next hp).bind fun _ q hq _ => .pure hq.ends trivial
  · exact .pure hp trivial

/-- A token is taken, which leaves fewer lexemes, or it is not there. -/
theorem gotThen {t : Token} {f f' : Bool → ParseM β} (hp : p.Ends) (ht : t ≠ .eof)
    (hyes : ∀ q, p.token = t → p.Reaches q → q.left < p.left → Alike (f true) (f' true) q R)
    (hno : p.token ≠ t → Alike (f false) (f' false) p R) :
    Alike (ParseM.got t >>= f) (ParseM.got t >>= f') p R := by
  by_cases hpt : p.token = t
  · have hrun (f : Bool → ParseM β) : (ParseM.got t >>= f).run p = (ParseM.next >>= fun _ => f true).run p := by
      rw [run_bind, run_got, if_pos hpt]
      rfl
    have hnext := (next hp).bind fun _ q hq hlt => hyes q hpt hq (hlt (hpt ▸ ht))
    exact hnext.ofRun (hrun f) (hrun f')
  · have hrun (f : Bool → ParseM β) : (ParseM.got t >>= f).run p = (f false).run p := by
      rw [run_bind, run_got, if_neg hpt]
    exact (hno hpt).ofRun (hrun f) (hrun f')

/-- Asking for a token leaves fewer lexemes if it is there. -/
theorem want {t : Token} (hp : p.Ends) (ht : t ≠ .eof) :
    Alike (want t) (ParseM.want t) p fun _ _ n => p.token = t → n < p.left := by
  refine gotThen hp ht (fun q _ hq hlt => ?_) fun hne => ?_
  · exact .pure hq.ends fun _ => hlt
  · exact (complain hp _).weaken fun _ _ _ _ _ h => absurd h hne

/-- Taking an assignment does the same. -/
theorem gotAssign (hp : p.Ends) : Alike gotAssign ParseM.gotAssign p fun _ _ _ => True := by
  refine .onToken ?_
  split
  · refine (complain hp _).bind fun _ q hq _ => (next hq.ends).bind fun _ r hr _ => ?_
    exact .pure hr.ends trivial
  · exact (next hp).bind fun _ q hq _ => .pure hq.ends trivial
  · exact .pure hp trivial

/-- Numbering a group leaves token and lexemes as they are. -/
theorem newGroup (hp : p.Ends) :
    Alike newGroup ParseM.newGroup p fun _ t n => t = p.token ∧ n = p.left := by
  have hl : p.Lingers { p with groups := p.groups + 1 } := ⟨rfl, rfl, rfl, rfl, id⟩
  exact ⟨rfl, hl.reaches hp, rfl, rfl⟩

/-- The rule for identifiers leaves fewer lexemes, unless at the end: what is no name is skipped. -/
theorem ident (hp : p.Ends) :
    Alike ident ParseM.ident p fun _ _ n => p.token ≠ .eof → n < p.left := by
  refine .onHere (.onToken ?_)
  split
  · refine .onCurrent ((next hp).bind fun _ q hq hlt => ?_)
    exact .pure hq.ends hlt
  · refine (complain hp _).bind fun _ q hq _ => (recover_nil hq.ends).bind fun _ r hr hlt => ?_
    refine .pure hr.ends fun hne => ?_
    -- A complaint may have ended the run, which leaves less as well.
    rcases hq.onFrom with hq' | ⟨hleft, htoken⟩
    · exact Nat.lt_of_le_of_lt hr.left_le hq'
    · exact hleft ▸ hlt (htoken ▸ hne)

/-- The rule for literals leaves fewer lexemes, unless at the end. -/
theorem literal (hp : p.Ends) :
    Alike literal ParseM.literal p fun _ _ n => p.token ≠ .eof → n < p.left :=
  .onHere (.onCurrent ((next hp).bind fun _ _ hq hlt => .pure hq.ends hlt))

end Alike

end ParseM

end FrontEnd
