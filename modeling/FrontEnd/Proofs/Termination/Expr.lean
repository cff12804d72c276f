import FrontEnd.Proofs.Termination.Call

/-!
# How types, expressions and lists call each other

One theorem for each rule: if two ways of making calls do the same to those that come after the rule, the
rule does the same with both. On the way each rule is seen to call others only further on, and to take
a lexeme where it has to.
-/

namespace FrontEnd

namespace ParseM

variable {budget budget' : Nat} {p : Parser} {call : Calls}

/-! ## Types -/

/-- The rule for types does the same if what it calls does. -/
theorem alike_type? (hp : p.Ends) (h : AlikeBelow 2 p call (Call.runs budget')) :
    Alike (Call.body budget call .type?) (Call.body budget' (Call.runs budget') .type?) p (Call.type?.Takes p) := by
  refine .onToken ?_
  split
  · exact (Alike.ident hp).bind fun _ q hq _ => .pure hq.ends trivial
  · next ht =>
    have hrank : Call.sliceElem.rank p.token < 2 := by
      rw [ht]
      decide
    refine .onHere ((h.atFrom .sliceElem (.refl hp) trivial hrank).bind fun _ q hq _ => ?_)
    exact .pure hq.ends trivial
  · exact .pure hp trivial

/-- The rule for the elements of a slice does the same if what it calls does. -/
theorem alike_sliceElem (hp : p.Ends) (h : AlikeBelow (Call.sliceElem.rank p.token) p call (Call.runs budget')) :
    Alike (Call.body budget call .sliceElem) (Call.body budget' (Call.runs budget') .sliceElem) p
      (Call.sliceElem.Takes p) := by
  refine .tracedCall _ hp fun q hq htoken => (Alike.next hq.ends).bind fun _ r hr hlt => ?_
  refine (Alike.want hr.ends (by decide)).bind fun _ s hs _ => ?_
  have hqs := hr.trans hs
  have hslt : q.token ≠ .eof → s.left < q.left := fun hne =>
    Nat.lt_of_le_of_lt hs.left_le (hlt hne)
  -- The bracket has been taken, or there was nothing to take.
  have hcall : Alike (call _ .type?) (type? budget') s (Call.type?.Takes s) := by
    by_cases ht : p.token = .eof
    · exact h.atFrom .type? (hq.trans hqs) trivial (by rw [ht]; exact (by decide : 2 < 3))
    · exact h.atLater .type? (hq.trans hqs) trivial
        (Nat.lt_of_lt_of_le (hslt (by rwa [htoken])) hq.left_le)
  refine hcall.bind fun elem? u hu _ => ?_
  split
  · exact .pure hu.ends fun hne => Nat.lt_of_le_of_lt hu.left_le (hslt hne)
  · refine .onHole ((Alike.complain hu.ends _).bind fun _ v hv _ => ?_)
    exact .pure hv.ends fun hne => Nat.lt_of_le_of_lt (hu.trans hv).left_le (hslt hne)

/-! ## Lists -/

/-- A turn of a list goes on only after it has taken a lexeme: the token has changed, whatever the
element does. -/
theorem alike_list {α : Type} {kind : ListKind} {element : ParseM α} (hp : p.Ends)
    (hready : (Call.list kind element).Ready p) (h : AlikeBelow 1 p call (Call.runs budget')) :
    Alike (Call.body budget call (.list kind element)) (Call.body budget' (Call.runs budget') (.list kind element)) p
      ((Call.list kind element).Takes p) := by
  have hcloser : kind.closer ≠ .eof := by cases kind <;> decide
  have hseparator : kind.separator ≠ .eof := by cases kind <;> decide
  -- The rest of the list is called only after something has been taken.
  have hmore {q : Parser} (x : α) (hq : p.Reaches q) (hlt : q.left < p.left) :
      Alike (do return x :: (← call _ (.list kind element)))
        (do return x :: (← list kind element budget')) q fun _ _ _ => True := by
    have hq' : (Call.list kind element).Ready q := fun r hr hqr => hready r hr (hq.onFrom.trans hqr)
    exact (h.atLater _ hq hq' hlt).bind fun _ r hr _ => .pure hr.ends trivial
  refine .onToken ?_
  split
  · exact (Alike.want hp hcloser).bind fun _ q hq _ => .pure hq.ends trivial
  · next ht =>
    obtain ⟨-, hne⟩ := not_or.mp ht
    have hx : Alike element element p fun _ _ _ => True := ⟨rfl, hready p hp (.refl p), trivial⟩
    refine hx.bind fun x q hq _ => .gotThen hq.ends hseparator (fun r _ hr hlt => ?_) fun _ => ?_
    · exact hmore x (hq.trans hr) (Nat.lt_of_lt_of_le hlt hq.left_le)
    · refine .onToken ?_
      split
      · -- The closer was not there before the element, so the element has taken something.
        next hqt => exact hmore x hq (hq.onFrom.left_lt fun heq => hne (heq.symm.trans hqt))
      · refine (Alike.complain hq.ends _).bind fun _ r hr _ => ?_
        refine (Alike.recover hr.ends (by decide)).bind fun _ s hs _ => .onToken ?_
        have hps := hq.trans (hr.trans hs)
        split
        · next hst => exact hmore x hps (hps.onFrom.left_lt fun heq => hne (heq.symm.trans hst))
        · exact .pure hs.ends trivial

/-- Lists with the same elements are the same, whatever their budget. -/
theorem run_list_congr {α : Type} {kind : ListKind} {element element' : ParseM α} (hp : p.Ends)
    (h : ∀ q : Parser, q.Ends → p.OnFrom q → Alike element element' q fun _ _ _ => True)
    (budget : Nat) : (list kind element budget).run p = (list kind element' budget).run p := by
  -- By the budget, since the list calls itself once for each element.
  induction budget generalizing p with
  | zero => rfl
  | succ budget ih =>
    have hmore {q : Parser} (x : α) (hq : p.Reaches q) :
        (do return x :: (← list kind element budget) : ParseM (List α)).run q =
          (do return x :: (← list kind element' budget) : ParseM (List α)).run q := by
      rw [run_bind, run_bind, ih hq.ends fun r hr hqr => h r hr (hq.onFrom.trans hqr)]
    change StateT.run (if p.token = .eof ∨ p.token = kind.closer then _ else _ : ParseM (List α)) p =
      StateT.run (if p.token = .eof ∨ p.token = kind.closer then _ else _ : ParseM (List α)) p
    split
    · rfl
    · refine (h p hp (.refl p)).run_bind_eq fun x q hq _ => ?_
      refine (Alike.got hq.ends _).run_bind_eq fun found r hr _ => ?_
      have hpr := hq.trans hr
      split
      · exact hmore x hpr
      · change StateT.run (if r.token = kind.closer then _ else _ : ParseM (List α)) r =
          StateT.run (if r.token = kind.closer then _ else _ : ParseM (List α)) r
        split
        · exact hmore x hpr
        · refine (Alike.complain hr.ends _).run_bind_eq fun _ s hs _ => ?_
          refine (Alike.recover hs.ends (by decide)).run_bind_eq fun _ u hu _ => ?_
          change StateT.run (if u.token = kind.closer then _ else _ : ParseM (List α)) u =
            StateT.run (if u.token = kind.closer then _ else _ : ParseM (List α)) u
          split
          · exact hmore x (hpr.trans (hs.trans hu))
          · rfl

/-- Lists are alike once a lexeme has been taken, if their elements are. -/
theorem AlikeBelow.lists {α : Type} {r : Nat} {q : Parser} {element element' : ParseM α}
    (h : AlikeBelow r p call (Call.runs budget')) (kind : ListKind) (hq : p.Reaches q)
    (hlt : q.left < p.left)
    (helement : ∀ s : Parser, s.Ends → q.OnFrom s → Alike element element' s fun _ _ _ => True) :
    Alike (call _ (.list kind element)) (list kind element' budget') q fun _ _ _ => True := by
  have hready : (Call.list kind element).Ready q := fun s hs hqs => (helement s hs hqs).reaches
  have hlist := h.atLater (.list kind element) hq hready hlt
  exact hlist.ofRun rfl (run_list_congr hq.ends helement budget').symm

/-- A list of expressions does the same behind a lexeme. -/
theorem AlikeBelow.exprs {r : Nat} {q : Parser} (h : AlikeBelow r p call (Call.runs budget'))
    (kind : ListKind) (hq : p.Reaches q) (hlt : q.left < p.left) :
    Alike (call _ (.list kind (call _ .expr))) (list kind (expr budget') budget') q
      fun _ _ _ => True := by
  refine h.lists kind hq hlt fun s hs hqs => ?_
  have hle := hqs.left_le
  exact (h .expr hs trivial (.inl (by omega))).weaken fun _ _ _ _ _ => trivial

/-! ## Expressions -/

/-- The rule for expressions does the same if what it calls does. -/
theorem alike_expr (hp : p.Ends) (h : AlikeBelow 6 p call (Call.runs budget')) :
    Alike (Call.body budget call .expr) (Call.body budget' (Call.runs budget') .expr) p
      (Call.expr.Takes p) := by
  exact .tracedCall _ hp fun q hq _ => h.atFrom (.binaryExpr 0) hq trivial (by decide : 5 < 6)

/-- The rule for operations does the same if what it calls does. -/
theorem alike_binaryExpr {floor : Nat} (hp : p.Ends)
    (h : AlikeBelow 5 p call (Call.runs budget')) :
    Alike (Call.body budget call (.binaryExpr floor))
      (Call.body budget' (Call.runs budget') (.binaryExpr floor)) p
      ((Call.binaryExpr floor).Takes p) := by
  refine (h.atFrom .unaryExpr (.refl hp) trivial (by decide : 4 < 5)).bind fun x q hq hlt => ?_
  have hrest := h.atFrom (.binaryRest floor x) hq trivial (by decide : 1 < 5)
  exact hrest.weaken fun y t n hle _ hs => Nat.lt_of_le_of_lt hle (hlt hs)

/-- Every operator is taken before its right operand. -/
theorem alike_binaryRest {floor : Nat} {x : Expr} (hp : p.Ends)
    (h : AlikeBelow 1 p call (Call.runs budget')) :
    Alike (Call.body budget call (.binaryRest floor x))
      (Call.body budget' (Call.runs budget') (.binaryRest floor x)) p
      ((Call.binaryRest floor x).Takes p) := by
  refine .onGet ?_
  split
  · next op hop =>
    have hne : p.token ≠ .eof := by rcases Parser.token_of_operator? hop with ht | ht <;> simp [ht]
    split
    · refine .onHere ((Alike.remark hp _).bind fun _ q hq hsame => ?_)
      refine (Alike.next hq.ends).bind fun _ r hr hlt => ?_
      have hpr := hq.trans hr
      -- The operator is taken before either call.
      have hrlt : r.left < p.left := by
        rw [← hsame.2]
        exact hlt (by rwa [hsame.1])
      refine (h.atLater (.binaryExpr op.precedence) hpr trivial hrlt).bind fun y s hs _ => ?_
      have hps := hpr.trans hs
      have hslt : s.left < p.left := Nat.lt_of_le_of_lt hs.left_le hrlt
      split
      · exact h.atLater (.binaryRest floor _) hps trivial hslt
      · exact h.atLater (.binaryRest floor _) hps trivial hslt
    · exact .pure hp trivial
  · exact .pure hp trivial

/-- The rule for unary operations does the same if what it calls does. -/
theorem alike_unaryExpr (hp : p.Ends) (h : AlikeBelow 4 p call (Call.runs budget')) :
    Alike (Call.body budget call .unaryExpr) (Call.body budget' (Call.runs budget') .unaryExpr) p
      (Call.unaryExpr.Takes p) := by
  refine .tracedCall _ hp fun q hq _ => .onGet ?_
  split
  · next op hop =>
    obtain ⟨hop, -⟩ := Option.filter_eq_some_iff.mp hop
    have hne : q.token ≠ .eof := by rcases Parser.token_of_operator? hop with ht | ht <;> simp [ht]
    refine .onHere ((Alike.next hq.ends).bind fun _ r hr hlt => ?_)
    have hrlt : r.left < q.left := hlt hne
    have hx := h.atLater .unaryExpr (hq.trans hr) trivial (Nat.lt_of_lt_of_le hrlt hq.left_le)
    exact hx.bind fun x s hs _ => .pure hs.ends fun _ => Nat.lt_of_le_of_lt hs.left_le hrlt
  · exact h.atFrom .primaryExpr hq trivial (by decide : 3 < 4)

/-- The rule for operands with what follows them does the same if what it calls does. -/
theorem alike_primaryExpr (hp : p.Ends) (h : AlikeBelow 3 p call (Call.runs budget')) :
    Alike (Call.body budget call .primaryExpr) (Call.body budget' (Call.runs budget') .primaryExpr) p
      (Call.primaryExpr.Takes p) := by
  refine .tracedCall _ hp fun q hq _ => ?_
  refine (h.atFrom .operand hq trivial (by decide : 2 < 3)).bind fun x r hr hlt => ?_
  have hrest := h.atFrom (.primaryRest x) (hq.trans hr) trivial (by decide : 1 < 3)
  exact hrest.weaken fun y t n hle _ hs => Nat.lt_of_le_of_lt hle (hlt hs)

/-- Every selector, index and call is opened before what is in it. -/
theorem alike_primaryRest {x : Expr} (hp : p.Ends) (h : AlikeBelow 1 p call (Call.runs budget')) :
    Alike (Call.body budget call (.primaryRest x))
      (Call.body budget' (Call.runs budget') (.primaryRest x)) p ((Call.primaryRest x).Takes p) := by
  -- Each suffix takes its first token before the loop is entered again.
  have hmore (y : Expr) {q : Parser} (hq : p.Reaches q) (hlt : q.left < p.left) :
      Alike (call _ (.primaryRest y)) (primaryRest y budget') q fun _ _ _ => True :=
    h.atLater (.primaryRest y) hq trivial hlt
  refine .onHere (.onToken ?_)
  split
  · next ht =>
    refine (Alike.next hp).bind fun _ q hq hlt => .onToken ?_
    have hqlt : q.left < p.left := hlt (by simp [ht])
    split
    · refine (Alike.ident hq.ends).bind fun field r hr _ => ?_
      exact hmore _ (hq.trans hr) (Nat.lt_of_le_of_lt hr.left_le hqlt)
    · refine (Alike.complain hq.ends _).bind fun _ r hr _ => ?_
      refine (Alike.recover hr.ends (by decide)).bind fun _ s hs _ => ?_
      have hqs := hr.trans hs
      exact hmore _ (hq.trans hqs) (Nat.lt_of_le_of_lt hqs.left_le hqlt)
  · next ht =>
    refine (Alike.next hp).bind fun _ q hq hlt => ?_
    have hqlt : q.left < p.left := hlt (by simp [ht])
    refine (h.atLater .expr hq trivial hqlt).bind fun i r hr _ => ?_
    refine (Alike.want hr.ends (by decide)).bind fun _ s hs _ => ?_
    have hqs := hr.trans hs
    exact hmore _ (hq.trans hqs) (Nat.lt_of_le_of_lt hqs.left_le hqlt)
  · next ht =>
    refine (Alike.next hp).bind fun _ q hq hlt => ?_
    have hqlt : q.left < p.left := hlt (by simp [ht])
    have hargs := Alike.traced .argList hq.ends fun r hr _ _ =>
      h.exprs .arguments (hq.trans hr) (Nat.lt_of_le_of_lt hr.left_le hqlt)
    refine hargs.bind fun args r hr _ => ?_
    exact hmore _ (hq.trans hr) (Nat.lt_of_le_of_lt hr.left_le hqlt)
  · exact .pure hp trivial

/-- An operand takes a lexeme, or the search for what follows it ends at once. -/
theorem alike_operand (hp : p.Ends) (h : AlikeBelow 2 p call (Call.runs budget')) :
    Alike (Call.body budget call .operand) (Call.body budget' (Call.runs budget') .operand) p
      (Call.operand.Takes p) := by
  refine .tracedCall _ hp fun q hq _ => .onToken ?_
  split
  · next ht =>
    refine (Alike.ident hq.ends).bind fun name r hr hlt => ?_
    refine (Alike.remark hr.ends _).bind fun _ s hs _ => .pure hs.ends fun _ => ?_
    exact Nat.lt_of_le_of_lt hs.left_le (hlt (by simp [ht]))
  · next ht =>
    refine (Alike.literal hq.ends).bind fun literal r hr hlt => ?_
    refine (Alike.remark hr.ends _).bind fun _ s hs _ => .pure hs.ends fun _ => ?_
    exact Nat.lt_of_le_of_lt hs.left_le (hlt (by simp [ht]))
  · next ht =>
    -- An element type stands at the same token as its operand, so it has to come first in rank.
    have hrank : Call.sliceElem.rank q.token < 2 := by
      rw [ht]
      decide
    refine .onHere ((h.atFrom .sliceElem hq trivial hrank).bind fun elem r hr hlt => .onToken ?_)
    have hrlt : r.left < q.left := hlt (by simp [ht])
    split
    · refine (Alike.next hr.ends).bind fun _ s hs _ => ?_
      have hslt : s.left < q.left := Nat.lt_of_le_of_lt hs.left_le hrlt
      have helems := h.exprs .elements (hq.trans (hr.trans hs))
        (Nat.lt_of_lt_of_le hslt hq.left_le)
      exact helems.bind fun elems u hu _ => .pure hu.ends fun _ => Nat.lt_of_le_of_lt hu.left_le hslt
    · exact .pure hr.ends fun _ => hrlt
  · next ht =>
    refine .onHere ((Alike.next hq.ends).bind fun _ r hr hlt => ?_)
    have hrlt : r.left < q.left := hlt (by simp [ht])
    have hx := h.atLater .expr (hq.trans hr) trivial (Nat.lt_of_lt_of_le hrlt hq.left_le)
    refine hx.bind fun x s hs _ => ?_
    refine (Alike.want hs.ends (by decide)).bind fun _ u hu _ => .pure hu.ends fun _ => ?_
    exact Nat.lt_of_le_of_lt (hs.trans hu).left_le hrlt
  · refine .onHole ((Alike.complain hq.ends _).bind fun _ r hr _ => ?_)
    refine (Alike.recover hr.ends (by decide)).bind fun _ s hs hlt => .pure hs.ends fun hstop => ?_
    -- A complaint may have ended the run, which leaves less as well.
    rcases hr.onFrom with hrlt | ⟨hrleft, hrtoken⟩
    · exact Nat.lt_of_le_of_lt hs.left_le hrlt
    · rw [← hrleft]
      exact hlt ((Parser.isStop_congr hrtoken hr.functions).trans hstop)

end ParseM

end FrontEnd
