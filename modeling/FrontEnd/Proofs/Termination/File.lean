import FrontEnd.Proofs.Termination.Stmt

/-!
# How declarations call each other

The rules for functions, operators and the declarations of a file.
-/

namespace FrontEnd

namespace ParseM

variable {budget budget' r : Nat} {p : Parser} {call : Calls}

/-- The body of a function is read inside one more function, which is left after it. -/
theorem alike_funcBody (hp : p.Ends) (hr : 12 ≤ r)
    (h : AlikeBelow r p (Call.runs budget) (Call.runs budget')) :
    Alike (funcBody budget) (funcBody budget') p fun _ _ _ => True := by
  have hrank : (Call.block none).rank p.token < r := by
    refine Nat.lt_of_lt_of_le ?_ hr
    unfold Call.rank
    dsimp only
    split <;> decide
  -- Inside the body the count of functions is one higher, which changes nothing of what the budget needs.
  have hinside : Alike (block none budget) (block none budget')
      { p with functions := p.functions + 1 } _ := h (.block none) hp trivial (.inr ⟨rfl, rfl, hrank⟩)
  have hrun (n : Nat) : (funcBody n).run p =
      let b := (block none n).run { p with functions := p.functions + 1 }
      (b.1, { b.2 with functions := b.2.functions - 1 }) := rfl
  have hreaches := hinside.reaches
  refine ⟨?_, ?_, trivial⟩
  · rw [hrun, hrun, hinside.run_eq]
  · rw [hrun]
    generalize (block none budget).run { p with functions := p.functions + 1 } = b at hreaches ⊢
    refine ⟨hreaches.ends, hreaches.onFrom, ?_, hreaches.starved⟩
    change b.2.functions - 1 = p.functions
    rw [hreaches.functions]
    exact Nat.add_sub_cancel _ _

/-- The body of a function does the same if the rules for blocks do. -/
theorem alike_funcBody? (hp : p.Ends) (hr : 12 ≤ r)
    (h : AlikeBelow r p (Call.runs budget) (Call.runs budget')) :
    Alike (funcBody? budget) (funcBody? budget') p fun _ _ _ => True := by
  refine .onToken ?_
  split
  · exact (alike_funcBody hp hr h).bind fun body q hq _ => .pure hq.ends trivial
  · exact .pure hp trivial

/-- Giving up does not depend on a budget. -/
theorem alike_giveUp {α : Type} (hp : p.Ends) (complaint : Complaint) {follow : List Token}
    (hf : follow ≠ []) :
    Alike (giveUp complaint follow : ParseM (Option α)) (giveUp complaint follow) p
      fun _ _ _ => True :=
  (Alike.complain hp _).bind fun _ _ hq _ => (Alike.recover hq.ends hf).bind fun _ _ hs _ =>
    .pure hs.ends trivial

/-- A parameter does the same if the rules for types do. -/
theorem alike_param? (hp : p.Ends) (hr : 12 ≤ r) (what : Expected) (follow : List Token)
    (hf : follow ≠ []) (h : AlikeBelow r p (Call.runs budget) (Call.runs budget')) :
    Alike (param? what follow budget) (param? what follow budget') p fun _ _ _ => True := by
  refine .onHere (.onToken ?_)
  split
  · refine (Alike.ident hp).bind fun name q hq _ => ?_
    have htype : Alike (type? budget) (type? budget') q _ :=
      h.atFrom .type? hq trivial (Nat.lt_of_lt_of_le (by decide : 2 < 12) hr)
    refine htype.bind fun type? s hs _ => ?_
    split
    · exact .pure hs.ends trivial
    · exact alike_giveUp hs.ends _ hf
  · exact alike_giveUp hp _ hf

/-- Parameters do the same if the rules for types do. -/
theorem alike_params (hp : p.Ends) (hr : 12 ≤ r)
    (h : AlikeBelow r p (Call.runs budget) (Call.runs budget')) :
    Alike (params budget) (params budget') p fun _ _ _ => True := by
  refine .gotThen hp (by decide) (fun q _ hq hlt => ?_) fun _ => ?_
  · have hparams := h.lists .parameters hq hlt fun s hs hqs =>
      alike_param? hs hr .parameter paramFollow (by decide)
        (h.mono (hq.onFrom.trans hqs) (Nat.le_refl r))
    exact hparams.bind fun params s hs _ => .pure hs.ends trivial
  · exact (Alike.complain hp _).bind fun _ q hq _ => .pure hq.ends trivial

/-- A parameter of an operator does the same if the rules for types do. -/
theorem alike_operandParam? (hp : p.Ends) (hr : 12 ≤ r) (what : Expected)
    (h : AlikeBelow r p (Call.runs budget) (Call.runs budget')) :
    Alike (operandParam? what budget) (operandParam? what budget') p fun _ _ _ => True := by
  refine .gotThen hp (by decide) (fun q _ hq _ => ?_) fun _ => alike_giveUp hp _ (by decide)
  have hparam := alike_param? hq.ends hr what funcFollow (by decide)
    (h.mono hq.onFrom (Nat.le_refl r))
  refine hparam.bind fun param? s hs _ => ?_
  split
  · exact (Alike.want hs.ends (by decide)).bind fun _ t ht _ => .pure ht.ends trivial
  · exact .pure hs.ends trivial

/-- A function does the same if the rules for its types and its body do. -/
theorem alike_funcSpec (hp : p.Ends) (hr : 12 ≤ r)
    (h : AlikeBelow r p (Call.runs budget) (Call.runs budget')) :
    Alike (funcSpec budget) (funcSpec budget') p fun _ _ _ => True := by
  have hlater {q : Parser} (hq : p.Reaches q) : AlikeBelow r q (Call.runs budget) (Call.runs budget') :=
    h.mono hq.onFrom (Nat.le_refl r)
  refine .traced _ hp fun q hq _ _ => .onToken ?_
  split
  · refine (Alike.ident hq.ends).bind fun name s hs _ => ?_
    refine (Alike.remark hs.ends _).bind fun _ t ht _ => ?_
    have hpt := hq.trans (hs.trans ht)
    refine (alike_params ht.ends hr (hlater hpt)).bind fun params u hu _ => ?_
    have htype : Alike (type? budget) (type? budget') u _ :=
      h.atFrom .type? (hpt.trans hu) trivial (Nat.lt_of_lt_of_le (by decide : 2 < 12) hr)
    refine htype.bind fun result? v hv _ => ?_
    have hbody := alike_funcBody? hv.ends hr (hlater (hpt.trans (hu.trans hv)))
    exact hbody.bind fun body? w hw _ => .pure hw.ends trivial
  · exact alike_giveUp hq.ends _ (by decide)

/-- The operator that is declared does not depend on a budget. -/
theorem alike_overload? (hp : p.Ends) : Alike overload? overload? p fun _ _ _ => True := by
  refine .onToken ?_
  split
  · refine (Alike.ident hp).bind fun name q hq _ => ?_
    split
    · exact (Alike.remark hq.ends _).bind fun _ s hs _ => .pure hs.ends trivial
    · refine (Alike.complainAt hq.ends _ _).bind fun _ s hs _ => ?_
      exact (Alike.recover hs.ends (by decide)).bind fun _ t ht _ => .pure ht.ends trivial
  · exact alike_giveUp hp _ (by decide)

/-- The result and the body of an operator do the same if the rules for them do. -/
theorem alike_operResult (hp : p.Ends) (hr : 12 ≤ r) (lhs rhs : Param) (overload : Overload)
    (h : AlikeBelow r p (Call.runs budget) (Call.runs budget')) :
    Alike (operResult lhs overload rhs budget) (operResult lhs overload rhs budget') p
      fun _ _ _ => True := by
  have htype : Alike (type? budget) (type? budget') p _ :=
    h.atFrom .type? (.refl hp) trivial (Nat.lt_of_lt_of_le (by decide : 2 < 12) hr)
  refine htype.bind fun result? q hq _ => ?_
  split
  · refine (alike_funcBody? hq.ends hr (h.mono hq.onFrom (Nat.le_refl r))).bind fun body? s hs _ => ?_
    split
    · exact .pure hs.ends trivial
    · exact (Alike.complain hs.ends _).bind fun _ t ht _ => .pure ht.ends trivial
  · exact alike_giveUp hq.ends _ (by decide)

/-- An operator does the same if the rules for its types and its body do. -/
theorem alike_operSpec (hp : p.Ends) (hr : 12 ≤ r)
    (h : AlikeBelow r p (Call.runs budget) (Call.runs budget')) :
    Alike (operSpec budget) (operSpec budget') p fun _ _ _ => True := by
  have hlater {q : Parser} (hq : p.Reaches q) : AlikeBelow r q (Call.runs budget) (Call.runs budget') :=
    h.mono hq.onFrom (Nat.le_refl r)
  refine .traced _ hp fun q hq _ _ => ?_
  refine (alike_operandParam? hq.ends hr _ (hlater hq)).bind fun lhs? s hs _ => ?_
  split
  · exact .pure hs.ends trivial
  · refine (alike_overload? hs.ends).bind fun overload? t ht _ => ?_
    split
    · exact .pure ht.ends trivial
    · have hpt := hq.trans (hs.trans ht)
      refine (alike_operandParam? ht.ends hr _ (hlater hpt)).bind fun rhs? u hu _ => ?_
      split
      · exact .pure hu.ends trivial
      · exact alike_operResult hu.ends hr _ _ _ (hlater (hpt.trans hu))

/-! ## Declarations of a file -/

/-- What is to be done at a token does not depend on the budget. Its keyword is taken first. -/
theorem alike_topLevelAt (budget' : Nat) {t : Token} {action : ParseM (List Decl)}
    (ha : topLevelAt t budget = some action) : ∃ action', topLevelAt t budget' = some action' ∧
      ∀ p : Parser, p.Ends →
        (∀ q, p.Reaches q → (p.token ≠ .eof → q.left < p.left) →
          AlikeBelow 12 q (Call.runs budget) (Call.runs budget')) →
        Alike action action' p fun _ _ n => p.token ≠ .eof → n < p.left := by
  -- Two shapes of an item, with and without a group, each of which takes its keyword first.
  have group (k : Keyword) {spec spec' : ParseM (Option Spec)} {p : Parser} (hp : p.Ends)
      (hlater : ∀ q, p.Reaches q → (p.token ≠ .eof → q.left < p.left) →
        AlikeBelow 12 q (Call.runs budget) (Call.runs budget'))
      (hspec : ∀ q : Parser, q.Ends → AlikeBelow 12 q (Call.runs budget) (Call.runs budget') →
        Alike spec spec' q fun _ _ _ => True) :
      Alike (do let pos ← here; next; grouped k pos spec budget)
        (do let pos ← here; next; grouped k pos spec' budget') p fun _ _ n =>
          p.token ≠ .eof → n < p.left := by
    refine .onHere ((Alike.next hp).bind fun _ q hq hlt => ?_)
    have hb := hlater q hq hlt
    have hgroup := alike_grouped k p.here hq.ends hb fun s hs hqs =>
      hspec s hs (hb.mono hqs (Nat.le_refl 12))
    exact hgroup.weaken fun _ _ _ hle _ hne => Nat.lt_of_le_of_lt hle (hlt hne)
  have single {spec spec' : ParseM (Option Spec)} {p : Parser} (hp : p.Ends)
      (hlater : ∀ q, p.Reaches q → (p.token ≠ .eof → q.left < p.left) →
        AlikeBelow 12 q (Call.runs budget) (Call.runs budget'))
      (hspec : ∀ q : Parser, q.Ends → AlikeBelow 12 q (Call.runs budget) (Call.runs budget') →
        Alike spec spec' q fun _ _ _ => True) :
      Alike (do let pos ← here; next; return ((← spec).map (Decl.mk pos none)).toList)
        (do let pos ← here; next; return ((← spec').map (Decl.mk pos none)).toList) p fun _ _ n =>
          p.token ≠ .eof → n < p.left := by
    refine .onHere ((Alike.next hp).bind fun _ q hq hlt => ?_)
    refine (hspec q hq.ends (hlater q hq hlt)).bind fun spec? s hs _ => .pure hs.ends fun hne => ?_
    exact Nat.lt_of_le_of_lt hs.left_le (hlt hne)
  -- By the keyword, which alone says whether there is an action.
  unfold topLevelAt at ha
  split at ha
  · unfold topLevel? at ha
    split at ha
    · refine ⟨_, rfl, fun p hp hlater => ?_⟩
      exact Option.some.inj ha ▸ group _ hp hlater fun q hq _ => alike_importSpec hq
    · refine ⟨_, rfl, fun p hp hlater => ?_⟩
      exact Option.some.inj ha ▸ group _ hp hlater fun q hq hb => alike_typeSpec hq (by decide) hb
    · refine ⟨_, rfl, fun p hp hlater => ?_⟩
      exact Option.some.inj ha ▸ group _ hp hlater fun q hq hb => alike_varSpec hq (by decide) hb
    · refine ⟨_, rfl, fun p hp hlater => ?_⟩
      exact Option.some.inj ha ▸ single hp hlater fun q hq hb => alike_funcSpec hq (by decide) hb
    · refine ⟨_, rfl, fun p hp hlater => ?_⟩
      exact Option.some.inj ha ▸ single hp hlater fun q hq hb => alike_operSpec hq (by decide) hb
    · simp at ha
  · simp at ha

/-- Where there is something to do with one budget, there is with any other. -/
theorem topLevelAt_eq_none (budget' : Nat) {t : Token} (h : topLevelAt t budget = none) :
    topLevelAt t budget' = none := by
  cases h' : topLevelAt t budget' with
  | none => rfl
  | some action =>
    obtain ⟨action', ha, -⟩ := alike_topLevelAt budget h'
    rw [h] at ha
    cases ha

/-- Outside of functions, a token for which there is nothing to do ends no search. -/
theorem isStop_strayFollow (ht : p.token ≠ .eof) (hs : p.token ≠ .semi) (hf : p.functions = 0)
    (h : topLevelAt p.token budget = none) : p.isStop strayFollow = false := by
  have hdecl (k : Keyword) (hk : topLevel? k budget ≠ none) : p.token ≠ .keyword k := by
    intro heq
    rw [heq] at h
    exact hk h
  have himport := hdecl .importWord (by simp [topLevel?])
  have htype := hdecl .typeWord (by simp [topLevel?])
  have hvar := hdecl .varWord (by simp [topLevel?])
  have hfunc := hdecl .funcWord (by simp [topLevel?])
  have hoper := hdecl .operWord (by simp [topLevel?])
  simp [Parser.isStop, strayFollow, declFollow, ht, hs, hf, himport, htype, hvar, hfunc, hoper]

/-- What must follow a declaration does not depend on a budget. -/
theorem alike_endTopLevel (hp : p.Ends) (before : Nat) :
    Alike (endTopLevel before) (endTopLevel before) p fun _ _ _ => True := by
  refine .onToken ?_
  split
  · exact .pure hp trivial
  · refine .gotThen hp (by decide) (fun q _ hq _ => .pure hq.ends trivial) fun _ => .onGet ?_
    split
    · refine (Alike.complain hp _).bind fun _ q hq _ => ?_
      exact (Alike.recover hq.ends (by decide)).weaken fun _ _ _ _ _ => trivial
    · exact (Alike.recover hp (by decide)).weaken fun _ _ _ _ _ => trivial

/-- Declarations go on only after a lexeme has been taken: a keyword, a separator, or what is passed
over because nothing can be done with it. -/
theorem alike_topLevels {afterImport : Bool} (hp : p.Ends) (hf : p.functions = 0)
    (h : AlikeBelow 1 p call (Call.runs budget'))
    (hb : AlikeBelow 1 p (Call.runs budget) (Call.runs budget')) :
    Alike (Call.body budget call (.topLevels afterImport))
      (Call.body budget' (Call.runs budget') (.topLevels afterImport)) p
      ((Call.topLevels afterImport).Takes p) := by
  -- The loop goes on only after something was taken.
  have hmore (imports : Bool) {q : Parser} (hq : p.Reaches q) (hlt : q.left < p.left) :
      Alike (call _ (.topLevels imports)) (topLevels imports budget') q fun _ _ _ => True :=
    h.atLater (.topLevels imports) hq (hq.functions.trans hf) hlt
  refine .onToken ?_
  split
  · exact .pure hp trivial
  · next hne =>
    split
    · exact (Alike.next hp).bind fun _ q hq hlt => hmore _ hq (hlt hne)
    · next hsemi =>
      dsimp only
      cases ha : topLevelAt p.token budget with
      | none =>
        rw [topLevelAt_eq_none budget' ha]
        have hrest (imports : Bool) {q : Parser} (hq : p.Reaches q) :
            Alike (do complain .strayStatement; recover strayFollow; call _ (.topLevels imports))
              (do complain .strayStatement; recover strayFollow; topLevels imports budget') q
              fun _ _ _ => True := by
          refine (Alike.complain hq.ends _).bind fun _ s hs _ => ?_
          refine (Alike.recover hs.ends (by decide)).bind fun _ t ht hlt => ?_
          have hps := hq.trans hs
          refine hmore imports (hps.trans ht) ?_
          rcases hps.onFrom with hslt | ⟨hsleft, hstoken⟩
          · exact Nat.lt_of_le_of_lt ht.left_le hslt
          · rw [← hsleft]
            refine hlt ?_
            rw [Parser.isStop_congr hstoken hps.functions]
            exact isStop_strayFollow hne hsemi hf ha
        split
        · exact (Alike.complain hp _).bind fun _ q hq _ => hrest _ hq
        · exact hrest _ (.refl hp)
      | some action =>
        obtain ⟨action', ha', haction⟩ := alike_topLevelAt budget' ha
        rw [ha']
        have hrest (imports : Bool) {q : Parser} (hq : p.Reaches q) :
            Alike (do let before := (← get).count; let decls ← action; endTopLevel before
                      return decls ++ (← call _ (.topLevels imports)))
              (do let before := (← get).count; let decls ← action'; endTopLevel before
                  return decls ++ (← topLevels imports budget')) q fun _ _ _ => True := by
          -- After a complaint that has ended the run nothing is left.
          have hqlt {s : Parser} (hs : q.Reaches s) (hlt : q.token ≠ .eof → s.left < q.left) :
              s.left < p.left := by
            by_cases hqt : q.token = .eof
            · have hzero := Parser.left_eq_zero hqt
              have hle := hs.left_le
              have hpos := hp.left_pos hne
              omega
            · exact Nat.lt_of_lt_of_le (hlt hqt) hq.left_le
          have hdecls := haction q hq.ends fun s hs hlt => hb.later (hqlt hs hlt) 12
          refine .onGet (hdecls.bind fun decls s hs hlt => ?_)
          refine (alike_endTopLevel hs.ends _).bind fun _ t ht _ => ?_
          have hplt : t.left < p.left := Nat.lt_of_le_of_lt ht.left_le (hqlt hs hlt)
          exact (hmore imports (hq.trans (hs.trans ht)) hplt).bind fun rest u hu _ =>
            .pure hu.ends trivial
        split
        · exact (Alike.complain hp _).bind fun _ q hq _ => hrest _ hq
        · exact hrest _ (.refl hp)

end ParseM

end FrontEnd
