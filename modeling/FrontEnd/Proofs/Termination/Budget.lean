import FrontEnd.Proofs.Progress
import FrontEnd.Proofs.Termination.File

/-!
# Budgets

A budget in proportion to the lexemes left suffices for every rule of the grammar: no run is cut short,
and more budget changes nothing. The reason is that every rule makes only calls that come after it in
the order of `Call.Below`: each turn of a loop and each way of a rule back to itself takes at least one
lexeme, also where the search for something to go on with ends where it starts.
-/

namespace FrontEnd

namespace ParseM

variable {α : Type} {budget budget' : Nat} {p : Parser} {call : Calls}

/-- A rule does the same with all ways of making calls that do the same to the calls that come after
it. -/
theorem alike_body (c : Call α) (hp : p.Ends) (hready : c.Ready p)
    (h : AlikeBelow (c.rank p.token) p call (Call.runs budget'))
    (hb : AlikeBelow (c.rank p.token) p (Call.runs budget) (Call.runs budget')) :
    Alike (c.body budget call) (c.body budget' (Call.runs budget')) p (c.Takes p) := by
  -- One lemma a rule; where the rank depends on the token it says that the token is not the one that must be
  -- taken.
  cases c with
  | type? => exact alike_type? hp h
  | sliceElem => exact alike_sliceElem hp h
  | expr => exact alike_expr hp h
  | binaryExpr floor => exact alike_binaryExpr hp h
  | binaryRest floor x => exact alike_binaryRest hp h
  | unaryExpr => exact alike_unaryExpr hp h
  | primaryExpr => exact alike_primaryExpr hp h
  | primaryRest x => exact alike_primaryRest hp h
  | operand => exact alike_operand hp h
  | list kind element => exact alike_list hp hready h
  | block after? => exact alike_block hp h
  | stmtList => exact alike_stmtList hp h
  | stmts => exact alike_stmts hp h
  | stmt? => exact alike_stmt? hp h hb
  | ifStmt => exact alike_ifStmt hp h hb
  | elseBranch => exact alike_elseBranch hp h
  | whileStmt => exact alike_whileStmt hp h hb
  | forStmt => exact alike_forStmt hp h hb
  | topLevels afterImport => exact alike_topLevels hp hready h hb

/-- Budgets that suffice do the same. -/
theorem alike_run (c : Call α) (hp : p.Ends) (hready : c.Ready p) (hb : c.need p ≤ budget)
    (hb' : c.need p ≤ budget') : Alike (c.run budget) (c.run budget') p (c.Takes p) := by
  have hpos : 0 < c.need p := Nat.lt_of_lt_of_le (c.rank_pos p.token) (Nat.le_add_left _ _)
  induction budget generalizing α budget' p with
  | zero => omega
  | succ budget ih =>
    obtain ⟨budget', rfl⟩ := Nat.exists_eq_succ_of_ne_zero (by omega : budget' ≠ 0)
    -- Whatever is called needs less than the rule itself.
    have hbelow : AlikeBelow (c.rank p.token) p (Call.runs budget) (Call.runs budget') := by
      intro β c' q hq hready' hlt
      have hneed : c'.need q < c.need p := hlt.need_lt (c.rank_pos p.token)
      have hpos' : 0 < c'.need q := Nat.lt_of_lt_of_le (c'.rank_pos q.token) (Nat.le_add_left _ _)
      exact ih c' hq hready' (by omega) (by omega) hpos'
    rw [c.run_succ budget, Nat.succ_eq_add_one, c.run_succ budget']
    exact alike_body c hp hready hbelow hbelow

/-- With enough for everything at the current token, whatever is called is called alike. -/
theorem alikeBelow_runs (r : Nat) (hp : 0 < r) (hb : 16 * p.left + r ≤ budget + 1)
    (hb' : 16 * p.left + r ≤ budget' + 1) :
    AlikeBelow r p (Call.runs budget) (Call.runs budget') := by
  intro β c q hq hready hbelow
  have hneed := hbelow.need_lt hp
  exact alike_run c hq hready (by omega) (by omega)

/-- The rules of the grammar below those for files, as they depend on their budget. -/
inductive IsRule : {α : Type} → (Nat → ParseM α) → Prop where
  | call {α : Type} (c : Call α) (h : ∀ p, c.Ready p) : IsRule c.run
  | importSpec : IsRule fun _ => importSpec
  | typeSpec : IsRule typeSpec
  | varSpec : IsRule varSpec
  | grouped (keyword : Keyword) (pos : Pos) {spec : Nat → ParseM (Option Spec)} (h : IsRule spec) :
      IsRule fun budget => grouped keyword pos (spec budget) budget
  | simpleStmt : IsRule simpleStmt
  | condition (c : Construct) (stmt? : Option Stmt) (separator? : Option (Pos × String)) :
      IsRule fun _ => condition c stmt? separator?
  | clauseSeparator : IsRule fun _ => clauseSeparator
  | postStmt : IsRule postStmt
  | forTail : IsRule forTail
  | clauseInit (c : Construct) : IsRule (clauseInit c)
  | clause (c : Construct) : IsRule (clause c)
  | declStmt (keyword : Keyword) : IsRule (declStmt keyword)
  | funcBody : IsRule funcBody
  | funcBody? : IsRule funcBody?
  | param? (what : Expected) (follow : List Token) (h : follow ≠ []) : IsRule (param? what follow)
  | params : IsRule params
  | operandParam? (what : Expected) : IsRule (operandParam? what)
  | funcSpec : IsRule funcSpec
  | overload? : IsRule fun _ => overload?
  | operResult (lhs : Param) (overload : Overload) (rhs : Param) :
      IsRule (operResult lhs overload rhs)
  | operSpec : IsRule operSpec
  | endTopLevel (before : Nat) : IsRule fun _ => endTopLevel before

/-- A budget of sixteen for each lexeme left, and for the end, suffices for every rule. -/
theorem alike_rule {rule : Nat → ParseM α} (h : IsRule rule) (hp : p.Ends)
    (hb : 16 * (p.left + 1) ≤ budget) (hb' : 16 * (p.left + 1) ≤ budget') :
    Alike (rule budget) (rule budget') p fun _ _ _ => True := by
  -- With sixteen for each token left no call on the way runs out, twelve being the highest rank.
  have hbelow := alikeBelow_runs 12 (p := p) (by decide) (by omega : _ ≤ budget + 1)
    (by omega : _ ≤ budget' + 1)
  induction h generalizing p with
  | call c hready =>
    have hrank := c.rank_le p.token
    have hneed : c.need p ≤ 16 * (p.left + 1) := by
      unfold Call.need
      omega
    exact (alike_run c hp (hready p) (by omega) (by omega)).weaken fun _ _ _ _ _ => trivial
  | importSpec => exact alike_importSpec hp
  | typeSpec => exact alike_typeSpec hp (by decide) hbelow
  | varSpec => exact alike_varSpec hp (by decide) hbelow
  | grouped keyword pos _ ih =>
    refine alike_grouped keyword pos hp hbelow fun q hq hpq => ?_
    have hle := hpq.left_le
    exact ih hq (by omega) (by omega) (hbelow.mono hpq (Nat.le_refl 12))
  | simpleStmt => exact (alike_simpleStmt hp (by decide) hbelow).weaken fun _ _ _ _ _ => trivial
  | condition c stmt? separator? => exact alike_condition hp c stmt? separator?
  | clauseSeparator => exact alike_clauseSeparator hp
  | postStmt => exact alike_postStmt hp (by decide) hbelow
  | forTail => exact alike_forTail hp (by decide) hbelow
  | clauseInit c => exact alike_clauseInit hp (by decide) c hbelow
  | clause c => exact (alike_clause hp (by decide) c hbelow).weaken fun _ _ _ _ _ => trivial
  | declStmt keyword =>
    exact (alike_declStmt hp (by decide) keyword hbelow).weaken fun _ _ _ _ _ => trivial
  | funcBody => exact alike_funcBody hp (by decide) hbelow
  | funcBody? => exact alike_funcBody? hp (by decide) hbelow
  | param? what follow hf => exact alike_param? hp (by decide) what follow hf hbelow
  | params => exact alike_params hp (by decide) hbelow
  | operandParam? what => exact alike_operandParam? hp (by decide) what hbelow
  | funcSpec => exact alike_funcSpec hp (by decide) hbelow
  | overload? => exact alike_overload? hp
  | operResult lhs overload rhs => exact alike_operResult hp (by decide) lhs rhs overload hbelow
  | operSpec => exact alike_operSpec hp (by decide) hbelow
  | endTopLevel before => exact alike_endTopLevel hp before

/-- Likewise for a file. -/
theorem alike_file (hp : p.Ends) (hf : p.functions = 0) (hb : 16 * (p.left + 1) ≤ budget)
    (hb' : 16 * (p.left + 1) ≤ budget') :
    Alike (file budget) (file budget') p fun _ _ _ => True := by
  refine .traced _ hp fun q hq _ _ => .onHere (.onCurrent ?_)
  refine .gotThen hq.ends (by decide) (fun s _ hs _ => ?_) fun _ => .pure hq.ends trivial
  refine (Alike.ident hs.ends).bind fun name t ht _ => (Alike.remark ht.ends _).bind fun _ u hu _ => ?_
  refine (Alike.want hu.ends (by decide)).bind fun _ v hv _ => ?_
  have hpv := hq.trans (hs.trans (ht.trans (hu.trans hv)))
  have hneed : (Call.topLevels true).need v ≤ 16 * (p.left + 1) := by
    have hle := hpv.left_le
    change 16 * v.left + 1 ≤ 16 * (p.left + 1)
    omega
  have hdecls : Alike (topLevels true budget) (topLevels true budget') v fun _ _ _ => True :=
    alike_run (.topLevels true) hv.ends (hpv.functions.trans hf) (by omega) (by omega)
  exact hdecls.bind fun decls w hw _ => .pure hw.ends trivial

end ParseM

namespace Parser

open ParseM

variable {p : Parser}

/-- Scans that come to the end have it last. -/
theorem closed_of_complete {scan : Scan} {rest : List Scan} (h : Scanner.Complete (scan :: rest)) :
    Closed scan.lexeme rest := by
  induction rest generalizing scan with
  | nil =>
    cases h with
    | last he => exact he
    | cons _ h => cases h
  | cons scan' rest ih =>
    cases h with
    | cons hne h => exact ⟨hne, ih h⟩

/-- A parser that starts on the scans of a reader gets to their end. -/
theorem ends_start (base : Base) (r : Reader) (tolerant verbose : Bool) :
    (start base r.scans tolerant verbose).Ends := by
  have hcomplete := r.complete_scans
  unfold start next aborted
  dsimp only
  rw [if_neg (by simp)]
  cases hs : r.scans with
  | nil =>
    rw [hs] at hcomplete
    cases hcomplete
  | cons scan rest =>
    rw [hs] at hcomplete
    have hlingers := Lingers.foldl_hear scan.reports
      { current := scan.lexeme, upcoming := rest, base, tolerant, verbose, first? := none, count := 0,
        functions := 0, openRules := 0, tracedLine? := none, groups := 0, log := #[], starved := false }
    exact (hlingers.reaches (closed_of_complete hcomplete)).ends

/-- A run starves only if the rule for files does. -/
theorem run_parseFile_starved (p : Parser) : p.parseFile.2.starved = p.starved ∨
    p.parseFile.2.starved = ((file p.budget).run p).2.starved := by
  unfold parseFile
  split
  · exact .inl rfl
  · refine .inr ?_
    generalize (file p.budget).run p = r
    obtain ⟨result, q⟩ := r
    cases result with
    | error failure => rfl
    | ok f =>
      dsimp only
      split <;> rfl

/-- The budget is sixteen for every lexeme that is left. -/
theorem le_budget (p : Parser) : 16 * (p.left + 1) ≤ p.budget := by
  have hle := p.left_le_length
  unfold budget
  omega

/-- Reading makes progress, with a handler or without, and whatever is wrong with the input.

A search takes a lexeme with each step. A rule that is called relies on the rules that it calls only
where they come after it, and on itself only with fewer lexemes left: this holds of the loops, each turn
of which is a call of its own, and of every way of a rule back to itself. So with sixteen of budget for
each lexeme left and for the end no rule runs out of it, and no file with the budget that it is read
with; with more, they do the same. -/
theorem reading_progresses (hp : p.Ends) :
    (∀ follow, p.isStop follow = false →
      p.skipTo follow = p.next.skipTo follow ∧ p.next.left < p.left) ∧
    (∀ {α : Type} (c : Call α) (budget : Nat), c.Ready p → c.need p ≤ budget + 1 →
      (∀ q, c.Below q (c.rank p.token) p → q.left < p.left) ∧
      c.run (budget + 1) = c.body budget (Call.runs budget) ∧
      ∀ call : Calls,
        (∀ (β : Type) (c' : Call β) (q : Parser), q.Ends → c'.Ready q →
          c'.Below q (c.rank p.token) p → (call β c').run q = (c'.run budget).run q) →
        (c.body budget call).run p = (c.run (budget + 1)).run p) ∧
    (∀ {α : Type} (rule : Nat → ParseM α), IsRule rule → ∀ budget, 16 * (p.left + 1) ≤ budget →
      ((rule budget).run p).2.starved = p.starved ∧
      (rule budget).run p = (rule (16 * (p.left + 1))).run p) ∧
    (p.functions = 0 → p.parseFile.2.starved = p.starved ∧
      ∀ budget, p.budget ≤ budget → (file budget).run p = (file p.budget).run p) := by
  refine ⟨fun follow hs => ?_, fun {α} c budget hready hneed => ⟨fun q hbelow => ?_, c.run_succ budget,
    fun call hcall => ?_⟩, fun {α} rule hrule budget hb => ?_, fun hf => ⟨?_, fun budget hb => ?_⟩⟩
  · exact ⟨hp.skipTo_eq hs, hp.left_next_lt (token_ne_of_isStop hs)⟩
  · -- A call that is below and at the same token has a lower rank, so below the rank of a call the input
    -- shrinks.
    rcases hbelow with hlt | ⟨-, ht, hrank⟩
    · exact hlt
    · rw [ht] at hrank
      exact absurd hrank (Nat.lt_irrefl _)
  · -- The calls made in the body are those below it, hence only what they return matters.
    have hruns := alikeBelow_runs (c.rank p.token) (c.rank_pos p.token) hneed hneed
    have hbelow : AlikeBelow (c.rank p.token) p call (Call.runs budget) := fun β c' q hq hready' hlt =>
      (hruns c' hq hready' hlt).ofRun (hcall β c' q hq hready' hlt) rfl
    rw [c.run_succ budget]
    exact (alike_body c hp hready hbelow hruns).run_eq
  · have hrule := alike_rule hrule hp hb (Nat.le_refl _)
    exact ⟨hrule.reaches.starved, hrule.run_eq⟩
  · have hfile := alike_file hp hf p.le_budget p.le_budget
    rcases run_parseFile_starved p with h | h
    · exact h
    · exact h.trans hfile.reaches.starved
  · exact (alike_file hp hf (Nat.le_trans p.le_budget hb) p.le_budget).run_eq

/-- Recovery stops where it starts, at the keywords inside of the function, and nobody starves. -/
theorem reading_progresses_keywords :
    let p := start (.file "") (Reader.ofBytes "module m\nfunc f() \x7b x y if var ( if".toUTF8).scans
      true false
    p.Ends ∧ p.functions = 0 ∧ p.parseFile.2.starved = false ∧
      ∀ budget, p.budget ≤ budget → (file budget).run p = (file p.budget).run p := by
  intro p
  have hp : p.Ends := ends_start _ _ _ _
  have hf : p.functions = 0 := by decide +kernel
  have hstarved : p.starved = false := by decide +kernel
  obtain ⟨-, -, -, hfile⟩ := reading_progresses hp
  obtain ⟨hparse, hmore⟩ := hfile hf
  exact ⟨hp, hf, hparse.trans hstarved, hmore⟩

end Parser

end FrontEnd
