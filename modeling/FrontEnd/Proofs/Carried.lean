import FrontEnd.Proofs.Lexemes
import FrontEnd.Proofs.Routine.Rules
import FrontEnd.Proofs.Runs
import FrontEnd.Proofs.Trees.Built

/-!
# What a lexeme carries

Whatever a scanner reads, the lexeme that it holds is consistent (`Lexeme.Consistent`): it has an
operator exactly if the class of the token is one of those that carry one, and binds as strongly as that
operator, or not at all without one; the class says which operators it may be, and whether a statement may
end with the token; only a literal is malformed; and a separator gives one of three reasons. What the
token before it carried is cleared with every call, and a token is completed from what is left
(`Lexeme.consistent_of_found`), or it is the end (`Scanner.consistent_next`).

The parser relies on it. Wherever a rule looks at the parser in a run (`Parser.ComesTo`), a token whose
class announces an operator has one (`Parser.Supplied`), so it does not matter what a rule would do
without. The loop over binary operators, written with the class, the strength and the operator apart
(`ParseM.binaryLoop`), and the simple statements, with any operator in place of a missing one
(`ParseM.simpleStmtOr`), are the rules of the grammar.
-/

namespace FrontEnd

/-- Whether a token of the class carries an operator. -/
def Token.carriesOperator : Token → Bool
  | .op | .assignOp | .incOp | .star => true
  | _ => false

/-- What a lexeme carries goes with the class of its token. -/
structure Lexeme.Consistent (l : Lexeme) : Prop where
  present : l.token.carriesOperator = true →
    ∃ op, l.op? = some op ∧ l.precedence = op.precedence
  absent : l.token.carriesOperator = false → l.op? = none ∧ l.precedence = 0
  ends : l.endsStatement = l.token.endsStatement
  star : l.token = .star → l.op? = some .mul
  op : l.token = .op → l.op? ≠ some .mul
  assignOp : l.token = .assignOp → ∀ op, l.op? = some op → op.isAssignable = true
  incOp : l.token = .incOp → ∀ op, l.op? = some op → op.isStep = true
  bad : l.bad = true → l.token = .literal
  semi : l.token = .semi → l.literal ∈ [semicolonReason, newlineReason, endReason]
  eof : l.token = .eof → l.literal = ""

/-- Marks carry no operator. -/
theorem Token.carriesOperator_of_isMark {token : Token} (h : token.isMark = true) :
    token.carriesOperator = false := by
  cases token <;> first | rfl | cases h

namespace Lexeme

variable {l l' : Lexeme}

/-- A lexeme without an operator is consistent if its class carries none, and its other parts go with
it. -/
theorem consistent_of_absent (hop : l.op? = none) (hprecedence : l.precedence = 0)
    (hends : l.endsStatement = l.token.endsStatement) (ht : l.token.carriesOperator = false)
    (hbad : l.bad = true → l.token = .literal)
    (hsemi : l.token = .semi → l.literal ∈ [semicolonReason, newlineReason, endReason])
    (heof : l.token = .eof → l.literal = "") : l.Consistent where
  -- Each field about a token with an operator has a premise that the token at hand denies.
  present h := by
    rw [ht] at h
    cases h
  absent _ := ⟨hop, hprecedence⟩
  ends := hends
  star h := by
    rw [h] at ht
    cases ht
  op h := by
    rw [h] at ht
    cases ht
  assignOp h := by
    rw [h] at ht
    cases ht
  incOp h := by
    rw [h] at ht
    cases ht
  bad := hbad
  semi := hsemi
  eof := heof

/-- A lexeme with an operator is consistent if it binds as that does and its class carries such a one. -/
theorem consistent_of_present {o : Operator} (hop : l.op? = some o) (hprecedence : l.precedence = o.precedence)
    (hends : l.endsStatement = l.token.endsStatement) (ht : l.token.carriesOperator = true)
    (hbad : l.bad = false) (hstar : l.token = .star → o = .mul) (hne : l.token = .op → o ≠ .mul)
    (hassign : l.token = .assignOp → o.isAssignable = true)
    (hinc : l.token = .incOp → o.isStep = true) : l.Consistent where
  present _ := ⟨o, hop, hprecedence⟩
  absent h := by
    rw [ht] at h
    cases h
  ends := hends
  star h := by rw [hop, hstar h]
  op h := by
    rw [hop]
    exact fun heq => hne h (Option.some.inj heq)
  assignOp h _ heq := Option.some.inj (hop.symm.trans heq) ▸ hassign h
  incOp h _ heq := Option.some.inj (hop.symm.trans heq) ▸ hinc h
  -- And here the fields about literals, semicolons and the end of the input.
  bad h := by
    rw [hbad] at h
    cases h
  semi h := by
    rw [h] at ht
    cases ht
  eof h := by
    rw [h] at ht
    cases ht

/-- What a scanner holds before the first token is consistent. -/
theorem consistent_beforeAll : beforeAll.Consistent :=
  consistent_of_absent rfl rfl rfl rfl nofun nofun fun _ => rfl

/-- Nothing is left in the lexeme of what the token before it carried. -/
structure Bare (l : Lexeme) : Prop where
  op : l.op? = none
  precedence : l.precedence = 0
  endsStatement : l.endsStatement = false
  bad : l.bad = false

/-- A lexeme that has been cleared carries nothing. -/
theorem bare_cleared (l : Lexeme) (place : Place) : Bare { l.cleared with place } := ⟨rfl, rfl, rfl, rfl⟩

section

variable (hbare : l.Bare)
include hbare

/-- A word carries no operator, and is never malformed. -/
theorem consistent_withWord (text : String) : (l.withWord text).Consistent := by
  have hfalse : ¬(l.withWord text).bad = true := by
    rw [show (l.withWord text).bad = false from hbare.bad]
    exact Bool.false_ne_true
  have hends := (Found.word text).endsStatement_eq hbare.endsStatement
  rcases l.token_withWord text with ht | ⟨k, ht⟩ <;>
    exact consistent_of_absent hbare.op hbare.precedence hends (by rw [ht]; rfl) (fun h => absurd h hfalse)
      (fun h => absurd (ht.symm.trans h) nofun) (fun h => absurd (ht.symm.trans h) nofun)

/-- A separator carries its reason only. -/
theorem consistent_withReason {reason : String}
    (h : reason ∈ [semicolonReason, newlineReason, endReason]) : (l.withReason reason).Consistent :=
  consistent_of_absent hbare.op hbare.precedence hbare.endsStatement rfl
    (fun ht => Bool.noConfusion (hbare.bad.symm.trans ht)) (fun _ => h) nofun

/-- The end carries nothing. -/
theorem consistent_atEnd : l.atEnd.Consistent :=
  consistent_of_absent hbare.op hbare.precedence hbare.endsStatement rfl
    (fun ht => Bool.noConfusion (hbare.bad.symm.trans ht)) nofun fun _ => rfl

/-- A token that is found at a character is consistent, if nothing is left of the token before it. -/
theorem consistent_of_found (h : l.Found l') : l'.Consistent := by
  have hfalse {x : Prop} (ht : l.bad = true) : x := Bool.noConfusion (hbare.bad.symm.trans ht)
  have hends := h.endsStatement_eq hbare.endsStatement
  cases h with
  | word text => exact consistent_withWord hbare text
  | shaped h =>
    -- Every shape sets what its class carries. What it does not set, nothing is left in.
    cases h with
    | literal text kind bad =>
      exact consistent_of_absent hbare.op hbare.precedence rfl rfl (fun _ => rfl) nofun nofun
    | newline => exact consistent_withReason hbare (by simp)
    | semicolon => exact consistent_withReason hbare (by simp)
    | mark hm =>
      exact consistent_of_absent hbare.op hbare.precedence hends (Token.carriesOperator_of_isMark hm) hfalse
        (fun h => absurd h (Token.ne_of_isMark hm rfl)) (fun h => absurd h (Token.ne_of_isMark hm rfl))
    | op hne => exact consistent_of_present rfl rfl hends rfl hbare.bad nofun (fun _ => hne) nofun nofun
    | star => exact consistent_of_present rfl rfl hends rfl hbare.bad (fun _ => rfl) nofun nofun nofun
    | assignOp h => exact consistent_of_present rfl rfl hends rfl hbare.bad nofun nofun (fun _ => h) nofun
    | incOp h => exact consistent_of_present rfl rfl rfl rfl hbare.bad nofun nofun nofun fun _ => h

end

end Lexeme

/-! ## Scanners -/

namespace Scanner

variable {ω : Type} [ByteWindow ω]

/-- Whatever a scanner held before, it finds a consistent lexeme. -/
theorem consistent_next (s : Scanner ω) : s.next.lexeme.Consistent := by
  obtain ⟨place, hfound | hend⟩ := lexeme_find s.lexeme.endsStatement s.lexeme.cleared s.stream
  · exact Lexeme.consistent_of_found (Lexeme.bare_cleared _ place) hfound
  · rw [next, hend]
    split
    · exact Lexeme.consistent_withReason (Lexeme.bare_cleared _ place) (by simp)
    · exact Lexeme.consistent_atEnd (Lexeme.bare_cleared _ place)

/-- The states of a scanner on what a reader delivers: it finds one lexeme after another, and what it
has to tell may be taken from it at any time. -/
inductive Reached (r : Reader) : Scanner Buffer → Prop
  | start : Reached r (ofWindow (Buffer.ofReader r))
  | next {s} : Reached r s → Reached r s.next
  | dropReports {s} : Reached r s → Reached r s.dropReports

/-- Whatever state a scanner gets to, the lexeme that it holds is consistent. -/
theorem Reached.consistent {r : Reader} {s : Scanner Buffer} (h : Reached r s) :
    s.lexeme.Consistent := by
  induction h with
  | start => exact Lexeme.consistent_beforeAll
  | next _ _ => exact consistent_next _
  | dropReports _ ih => exact ih

/-- Every lexeme that is handed on is consistent. -/
theorem consistent_of_mem_scans {s : Scanner ω} {scan : Scan} (h : scan ∈ s.scans) :
    scan.lexeme.Consistent := by
  obtain ⟨n, hn⟩ := List.getElem?_of_mem h
  rw [lexeme_of_scanUpTo hn]
  exact consistent_next _

end Scanner

/-! ## Parsers -/

namespace Parser

/-- The second parser comes up when rules are applied to the first: rules make moves, and nothing else
changes a parser. -/
inductive ComesTo (p : Parser) : Parser → Prop
  | here : ComesTo p p
  | move {q} (a : Move) : ComesTo p q → ComesTo p (a.apply q)

/-- What a routine leads to comes up. -/
theorem ComesTo.run {p q : Parser} (h : p.ComesTo q) {α : Type} {m : ParseM α} (hm : Routine m) :
    p.ComesTo (m.run q).2 :=
  hm.preserves (fun a _ => .move a) h

/-- The current lexeme and those to come are consistent. -/
structure Supplied (p : Parser) : Prop where
  current : p.current.Consistent
  upcoming : ∀ scan ∈ p.upcoming, scan.lexeme.Consistent

variable {p q : Parser}

/-- A parser that lingers has the same lexemes. -/
theorem Supplied.ofLingers (hp : p.Supplied) (h : p.Lingers q) : q.Supplied :=
  ⟨h.current ▸ hp.current, h.upcoming ▸ hp.upcoming⟩

/-- Reading on takes one of the lexemes to come. -/
theorem Supplied.next (hp : p.Supplied) : p.next.Supplied := by
  rcases p.next_cases with h | ⟨scan, rest, hu, h⟩
  · rw [h]
    exact hp
  · have hupcoming := hp.upcoming
    rw [hu, List.forall_mem_cons] at hupcoming
    have hscan : Supplied { p with current := scan.lexeme, upcoming := rest } := ⟨hupcoming.1, hupcoming.2⟩
    rw [h]
    exact hscan.ofLingers (.foldl_hear scan.reports _)

/-- Every move leaves a parser supplied. -/
theorem Supplied.move (a : Move) (hp : p.Supplied) : (a.apply p).Supplied := by
  cases a with
  | next => exact hp.next
  | complain c => exact hp.ofLingers (.complainAt p _ c)
  | lookBack pos c => exact hp.ofLingers (.complainAt p pos c)
  | trace note => exact hp.ofLingers (.trace p note)
  | enter rule =>
    have h := hp.ofLingers (.trace p (.enter rule))
    exact ⟨h.current, h.upcoming⟩
  | leave =>
    have h : Supplied { p with openRules := p.openRules - 1 } := ⟨hp.current, hp.upcoming⟩
    exact h.ofLingers (.trace _ .leave)
  | enterFunction | leaveFunction | newGroup | starve => exact ⟨hp.current, hp.upcoming⟩

/-- Whatever comes up when rules are applied has consistent lexemes. -/
theorem Supplied.comesTo (hp : p.Supplied) (h : p.ComesTo q) : q.Supplied := by
  induction h with
  | here => exact hp
  | move a _ ih => exact ih.move a

/-- So does what a routine leads to. -/
theorem Supplied.run (hp : p.Supplied) {α : Type} {m : ParseM α} (hm : Routine m) :
    (m.run p).2.Supplied := hm.preserves (fun a _ => .move a) hp

/-- At the start the lexemes are those that a scanner finds. -/
theorem supplied_start (base : Base) (r : Reader) (tolerant verbose : Bool) :
    (start base r.scans tolerant verbose).Supplied :=
  Supplied.next ⟨Lexeme.consistent_beforeAll, fun _ h => Scanner.consistent_of_mem_scans h⟩

/-- The class of the current token is that of the current lexeme, unless the run is over. -/
theorem current_token_of_token {t : Token} (h : p.token = t) (ht : t ≠ .eof) : p.current.token = t :=
  (token_eq_current (h ▸ ht)).trans h

/-- A supplied parser at an operator token has an operator, which binds as the lexeme says. -/
theorem Supplied.exists_op (hp : p.Supplied) {t : Token} (ht : p.token = t)
    (hcarries : t.carriesOperator = true) :
    ∃ op, p.current.op? = some op ∧ p.current.precedence = op.precedence := by
  have hne : t ≠ .eof := by
    rintro rfl
    cases hcarries
  exact hp.current.present ((current_token_of_token ht hne).symm ▸ hcarries)

end Parser

namespace ParseM

/-- The loop over operators that bind more strongly than `floor`, after `x`. It asks for the class of
the token, for its strength and for its operator one by one; `missing` is what it comes to if there is no
operator although the class and the strength announce one. -/
def binaryLoop (missing : Expr → ParseM Expr) (floor : Nat) (x : Expr) : Nat → ParseM Expr
  | 0 => do
    starve
    return x
  | budget + 1 => do
    let p ← get
    if (p.token = .op ∨ p.token = .star) ∧ floor < p.current.precedence then
      match p.current.op? with
      | none => missing x
      | some op =>
        let pos ← here
        remark ("operator(" ++ op.spelling ++ ")")
        next
        let y ← binaryExpr p.current.precedence budget
        if op = .less then binaryLoop missing floor (.binary pos .greater y x) budget
        else binaryLoop missing floor (.binary pos op x y) budget
    else return x

/-- A simple statement, with `fallback` for an operator that its token does not carry. -/
def simpleStmtOr (fallback : Operator) (budget : Nat) : ParseM Stmt := traced .simpleStmt do
  let lhs ← expr budget
  let pos ← here
  let lexeme ← current
  match ← token with
  | .assign =>
    next
    return .assign pos none lhs (← expr budget)
  | .assignOp =>
    next
    return .assign pos (some (lexeme.op?.getD fallback)) lhs (← expr budget)
  | .incOp =>
    next
    return .incDec pos (lexeme.op?.getD fallback) lhs
  | .define =>
    next
    return .define pos lhs (← expr budget)
  | _ => return .expr lhs

variable {α β : Type} {p : Parser}

/-- After a rule, actions that agree on supplied parsers do the same. -/
theorem run_bind_congr {m : ParseM α} (hm : Routine m) {f g : α → ParseM β}
    (h : ∀ x q, q.Supplied → (f x).run q = (g x).run q) (hp : p.Supplied) :
    (m >>= f).run p = (m >>= g).run p :=
  h _ _ (hp.run hm)

/-- Rules whose insides agree on supplied parsers do the same. -/
theorem run_traced_congr (rule : Rule) {m n : ParseM α} (h : ∀ q, q.Supplied → m.run q = n.run q)
    (hp : p.Supplied) : (traced rule m).run p = (traced rule n).run p :=
  congrArg (fun r : α × Parser => (r.1, Move.apply .leave r.2)) (h _ (hp.move (.enter rule)))

/-- On supplied parsers the operator is never missing from the loop. -/
theorem run_binaryLoop (missing : Expr → ParseM Expr) (floor : Nat) (x : Expr) (budget : Nat)
    (hp : p.Supplied) : (binaryLoop missing floor x budget).run p = (binaryRest floor x budget).run p := by
  induction budget generalizing x p with
  | zero => rfl
  | succ budget ih =>
    rw [binaryLoop, binaryRest, run_bind, run_bind, run_get]
    dsimp only
    -- Both sides look for an operator. At an operator token there is one, and it is as strong as the lexeme.
    by_cases ht : p.token = .op ∨ p.token = .star
    · obtain ⟨op, hop, hprecedence⟩ :
          ∃ op, p.current.op? = some op ∧ p.current.precedence = op.precedence := by
        rcases ht with ht | ht <;> exact hp.exists_op ht rfl
      have hoperator : p.operator? = some op := (if_pos ht).trans hop
      rw [hoperator]
      dsimp only
      by_cases hfloor : floor < op.precedence
      · rw [if_pos ⟨ht, hprecedence ▸ hfloor⟩, if_pos hfloor, hop]
        dsimp only
        rw [hprecedence]
        refine run_bind_congr routine_here (fun pos q hq => run_bind_congr (routine_remark _) (fun _ r hr =>
          run_bind_congr routine_next (fun _ s hs =>
            run_bind_congr ((exprRoutines budget).binaryExpr _) (fun y u hu => ?_) hs) hr) hq) hp
        split
        · exact ih _ hu
        · exact ih _ hu
      · rw [if_neg (fun h => hfloor (hprecedence ▸ h.2)), if_neg hfloor]
    · have hoperator : p.operator? = none := if_neg ht
      rw [hoperator, if_neg (fun h => ht h.1)]

/-- On supplied parsers the operator of an assignment or a step is never missing. -/
theorem run_simpleStmtOr (fallback : Operator) (budget : Nat) (hp : p.Supplied) :
    (simpleStmtOr fallback budget).run p = (simpleStmt budget).run p := by
  refine run_traced_congr .simpleStmt (fun q hq =>
    run_bind_congr (routine_expr budget) (fun lhs r hr => ?_) hq) hp
  -- The token and the lexeme are looked at in one state, so the class is that of the lexeme.
  simp only [run_bind, run_here, run_current, run_token]
  cases ht : r.token with
  | assignOp =>
    obtain ⟨op, hop, -⟩ := hr.exists_op ht rfl
    dsimp only
    rw [hop]
    rfl
  | incOp =>
    obtain ⟨op, hop, -⟩ := hr.exists_op ht rfl
    dsimp only
    rw [hop]
    rfl
  | _ => rfl

end ParseM

/-- Whatever a reader delivers, the lexeme that a scanner holds is consistent in every state, and so no
rule of a run ever does without an operator: in all states that rules come to, the loop over binary
operators and the simple statements do not depend on what stands in for a missing one. -/
theorem Reader.operators_carried (r : Reader) :
    (∀ s, Scanner.Reached r s → s.lexeme.Consistent) ∧
      ∀ base tolerant verbose p, (Parser.start base r.scans tolerant verbose).ComesTo p →
        (∀ missing floor x budget, (ParseM.binaryLoop missing floor x budget).run p =
          (ParseM.binaryRest floor x budget).run p) ∧
        ∀ fallback budget, (ParseM.simpleStmtOr fallback budget).run p =
          (ParseM.simpleStmt budget).run p := by
  refine ⟨fun s hs => hs.consistent, fun base tolerant verbose p hp => ?_⟩
  have hsupplied := (Parser.supplied_start base r tolerant verbose).comesTo hp
  exact ⟨fun missing floor x budget => ParseM.run_binaryLoop missing floor x budget hsupplied,
    fun fallback budget => ParseM.run_simpleStmtOr fallback budget hsupplied⟩

/-- The star between two names carries its operator, for the scanner and for the rule that has read the
first name. -/
theorem Reader.operators_carried_star :
    let r := ofBytes "a * b".toUTF8
    let s := (Scanner.ofWindow (Buffer.ofReader r)).next.next
    let p := ((ParseM.unaryExpr 8).run (Parser.start (.file "f") r.scans true false)).2
    s.lexeme.token = .star ∧ s.lexeme.Consistent ∧ p.token = .star ∧
      (ParseM.binaryLoop (fun _ => ParseM.hole) 4 (.bad p.here) 8).run p =
        (ParseM.binaryRest 4 (.bad p.here) 8).run p := by
  intro r s p
  obtain ⟨hscanner, hparser⟩ := operators_carried r
  have hp : (Parser.start (.file "f") r.scans true false).ComesTo p :=
    Parser.ComesTo.here.run (ParseM.exprRoutines 8).unaryExpr
  exact ⟨by decide +kernel, hscanner s (.next (.next .start)), by decide +kernel,
    (hparser (.file "f") true false p hp).1 (fun _ => ParseM.hole) 4 (.bad p.here) 8⟩

end FrontEnd
