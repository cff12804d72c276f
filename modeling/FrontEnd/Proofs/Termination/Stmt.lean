import FrontEnd.Proofs.Termination.Expr

/-!
# How statements call each other

The rules for specifications, clauses and statements. Those that cannot lead back to themselves are
given two budgets with which the rules for expressions do the same.
-/

namespace FrontEnd

namespace ParseM

variable {budget budget' r : Nat} {p : Parser} {call : Calls}

/-! ## Declarations that may be grouped -/

/-- The rule for what is imported calls no rule that could lead back to it. -/
theorem alike_importSpec (hp : p.Ends) : Alike importSpec importSpec p fun _ _ _ => True := by
  refine .traced _ hp fun q hq _ _ => .onToken ?_
  split
  · refine (Alike.literal hq.ends).bind fun path r hr _ => ?_
    split
    · exact .pure hr.ends trivial
    · exact (Alike.complainAt hr.ends _ _).bind fun _ s hs _ => .pure hs.ends trivial
  · refine (Alike.complain hq.ends _).bind fun _ r hr _ => ?_
    exact (Alike.recover hr.ends (by decide)).bind fun _ s hs _ => .pure hs.ends trivial

/-- The rule for a declared type does the same if the rules for types do. -/
theorem alike_typeSpec (hp : p.Ends) (hr : 7 ≤ r)
    (h : AlikeBelow r p (Call.runs budget) (Call.runs budget')) :
    Alike (typeSpec budget) (typeSpec budget') p fun _ _ _ => True := by
  refine .traced _ hp fun q hq _ _ => (Alike.ident hq.ends).bind fun name s hs _ => ?_
  refine (Alike.gotAssign hs.ends).bind fun isAlias t ht _ => ?_
  have hpt := hq.trans (hs.trans ht)
  have htype : Alike (type? budget) (type? budget') t _ :=
    h.atFrom .type? hpt trivial (Nat.lt_of_lt_of_le (by decide : 2 < 7) hr)
  have hend (type : Expr) {v : Parser} (hv : v.Ends) :
      Alike (do remark ("id: " ++ name.text); return some (Spec.typeSpec name isAlias type))
        (do remark ("id: " ++ name.text); return some (Spec.typeSpec name isAlias type)) v
        fun _ _ _ => True :=
    (Alike.remark hv _).bind fun _ w hw _ => .pure hw.ends trivial
  refine htype.bind fun type? u hu _ => ?_
  split
  · exact (hend _ hu.ends).ofRun rfl rfl
  · refine .onHole ((Alike.complain hu.ends _).bind fun _ v hv _ => ?_)
    exact (Alike.recover hv.ends (by decide)).bind fun _ w hw _ => (hend _ hw.ends).ofRun rfl rfl

/-- The rule for declared variables does the same if the rules for expressions do. -/
theorem alike_varSpec (hp : p.Ends) (hr : 7 ≤ r)
    (h : AlikeBelow r p (Call.runs budget) (Call.runs budget')) :
    Alike (varSpec budget) (varSpec budget') p fun _ _ _ => True := by
  -- Expressions and types rank below seven, so they may be called before anything is taken.
  have hexpr {q : Parser} (hq : p.Reaches q) : Alike (expr budget) (expr budget') q _ :=
    h.atFrom .expr hq trivial (Nat.lt_of_lt_of_le (by decide : 6 < 7) hr)
  refine .traced _ hp fun q hq _ _ => (Alike.ident hq.ends).bind fun name s hs _ => ?_
  refine (Alike.remark hs.ends _).bind fun _ t ht _ => ?_
  refine (Alike.gotAssign ht.ends).bind fun isAssign u hu _ => ?_
  have hpu := hq.trans (hs.trans (ht.trans hu))
  split
  · exact (hexpr hpu).bind fun value v hv _ => .pure hv.ends trivial
  · have htype : Alike (type? budget) (type? budget') u _ :=
      h.atFrom .type? hpu trivial (Nat.lt_of_lt_of_le (by decide : 2 < 7) hr)
    refine htype.bind fun type? v hv _ => ?_
    split
    · refine (Alike.gotAssign hv.ends).bind fun isAssign w hw _ => ?_
      split
      · exact (hexpr (hpu.trans (hv.trans hw))).bind fun value w' hw' _ => .pure hw'.ends trivial
      · exact .pure hw.ends trivial
    · refine (Alike.complain hv.ends _).bind fun _ w hw _ => ?_
      exact (Alike.recover hw.ends (by decide)).bind fun _ w' hw' _ => .pure hw'.ends trivial

/-- A group does the same if its members do, each of which takes a lexeme. -/
theorem alike_grouped (keyword : Keyword) (pos : Pos) {spec spec' : ParseM (Option Spec)}
    (hp : p.Ends) (h : AlikeBelow r p (Call.runs budget) (Call.runs budget'))
    (hspec : ∀ q : Parser, q.Ends → p.OnFrom q → Alike spec spec' q fun _ _ _ => True) :
    Alike (grouped keyword pos spec budget) (grouped keyword pos spec' budget') p
      fun _ _ _ => True := by
  refine .onToken ?_
  split
  · next ht =>
    refine (Alike.newGroup hp).bind fun id q hq hsame => .onHere ?_
    refine (Alike.next hq.ends).bind fun _ s hs hlt => ?_
    have hps := hq.trans hs
    -- The opening parenthesis is taken before the list is called.
    have hslt : s.left < p.left := by
      rw [← hsame.2]
      exact hlt (by simp [hsame.1, ht])
    have hmember (u : Parser) (hu : u.Ends) (hsu : s.OnFrom u) :
        Alike (do let pos ← here; return (← spec).map (Decl.mk pos (some ⟨id, q.here, keyword⟩)))
          (do let pos ← here; return (← spec').map (Decl.mk pos (some ⟨id, q.here, keyword⟩))) u
          fun _ _ _ => True :=
      .onHere ((hspec u hu (hps.onFrom.trans hsu)).bind fun spec? v hv _ => .pure hv.ends trivial)
    exact (h.lists .declarations hps hslt hmember).bind fun members u hu _ => .pure hu.ends trivial
  · exact (hspec p hp (.refl p)).bind fun spec? q hq _ => .pure hq.ends trivial

/-! ## Statements that are not made of statements -/

/-- A statement that starts with an expression takes a lexeme where the expression does. -/
theorem alike_simpleStmt (hp : p.Ends) (hr : 7 ≤ r)
    (h : AlikeBelow r p (Call.runs budget) (Call.runs budget')) :
    Alike (simpleStmt budget) (simpleStmt budget') p fun _ _ n =>
      p.isStop operandFollow = false → n < p.left := by
  have hexpr {q : Parser} (hq : p.Reaches q) : Alike (expr budget) (expr budget') q (Call.expr.Takes q) :=
    h.atFrom .expr hq trivial (Nat.lt_of_lt_of_le (by decide : 6 < 7) hr)
  refine .traced _ hp fun q hq htoken hleft => (hexpr hq).bind fun lhs s hs hlt => ?_
  have hslt (hstop : p.isStop operandFollow = false) : s.left < p.left := by
    rw [← hleft]
    exact hlt ((Parser.isStop_congr htoken hq.functions).trans hstop)
  -- Three of the five branches read a second expression behind one token.
  have hrest (f : Expr → Stmt) : Alike (do next; return f (← expr budget))
      (do next; return f (← expr budget')) s fun _ _ n =>
        p.isStop operandFollow = false → n < p.left := by
    refine (Alike.next hs.ends).bind fun _ t ht _ => ?_
    refine (hexpr (hq.trans (hs.trans ht))).bind fun rhs u hu _ => .pure hu.ends fun hstop => ?_
    exact Nat.lt_of_le_of_lt (ht.trans hu).left_le (hslt hstop)
  refine .onHere (.onCurrent (.onToken ?_))
  split
  · exact hrest _
  · exact hrest _
  · refine (Alike.next hs.ends).bind fun _ t ht _ => .pure ht.ends fun hstop => ?_
    exact Nat.lt_of_le_of_lt ht.left_le (hslt hstop)
  · exact hrest _
  · exact .pure hs.ends hslt

/-- What a statement serves as does not depend on a budget. -/
theorem alike_condition (hp : p.Ends) (c : Construct) (stmt? : Option Stmt)
    (separator? : Option (Pos × String)) :
    Alike (condition c stmt? separator?) (condition c stmt? separator?) p fun _ _ _ => True := by
  unfold condition
  split
  · exact .pure hp trivial
  · exact (Alike.complainAt hp _ _).bind fun _ q hq _ => .pure hq.ends trivial
  · split
    · split
      · split
        · exact (Alike.complainAt hp _ _).bind fun _ q hq _ => .pure hq.ends trivial
        · exact (Alike.complainAt hp _ _).bind fun _ q hq _ => .pure hq.ends trivial
      · exact .pure hp trivial
    · exact .pure hp trivial

/-- The separator in a clause does not depend on a budget. -/
theorem alike_clauseSeparator (hp : p.Ends) :
    Alike clauseSeparator clauseSeparator p fun _ _ _ => True := by
  refine .onToken ?_
  split
  · exact .onHere (.onCurrent ((Alike.next hp).bind fun _ q hq _ => .pure hq.ends trivial))
  · refine (Alike.want hp (by decide)).bind fun _ q hq _ => .onToken ?_
    split
    · exact .pure hq.ends trivial
    · exact (Alike.recover hq.ends (by decide)).bind fun _ s hs _ => .pure hs.ends trivial

/-- The statement behind each round does the same if the rules for expressions do. -/
theorem alike_postStmt (hp : p.Ends) (hr : 7 ≤ r)
    (h : AlikeBelow r p (Call.runs budget) (Call.runs budget')) :
    Alike (postStmt budget) (postStmt budget') p fun _ _ _ => True := by
  refine (Alike.want hp (by decide)).bind fun _ q hq _ => .onToken ?_
  split
  · exact .pure hq.ends trivial
  · refine (alike_simpleStmt hq.ends hr (h.mono hq.onFrom (Nat.le_refl r))).bind fun s t ht _ => ?_
    split
    · exact (Alike.complainAt ht.ends _ _).bind fun _ u hu _ => .pure hu.ends trivial
    · exact .pure ht.ends trivial

/-- What follows the first separator of a `for` does the same if the rules for expressions do. -/
theorem alike_forTail (hp : p.Ends) (hr : 7 ≤ r)
    (h : AlikeBelow r p (Call.runs budget) (Call.runs budget')) :
    Alike (forTail budget) (forTail budget') p fun _ _ _ => True := by
  refine .onToken ?_
  split
  · exact (alike_postStmt hp hr h).bind fun post? q hq _ => .pure hq.ends trivial
  · exact (Alike.complain hp _).bind fun _ q hq _ => .pure hq.ends trivial
  · refine (alike_simpleStmt hp hr h).bind fun cond q hq _ => ?_
    have hpost := alike_postStmt hq.ends hr (h.mono hq.onFrom (Nat.le_refl r))
    exact hpost.bind fun post? s hs _ => .pure hs.ends trivial

/-- What comes first in a clause does the same if the rules for expressions do. -/
theorem alike_clauseInit (hp : p.Ends) (hr : 7 ≤ r) (c : Construct)
    (h : AlikeBelow r p (Call.runs budget) (Call.runs budget')) :
    Alike (clauseInit c budget) (clauseInit c budget') p fun _ _ _ => True := by
  have hinit {q : Parser} (hq : p.Reaches q) : Alike (do return some (← simpleStmt budget))
      (do return some (← simpleStmt budget')) q fun _ _ _ => True :=
    (alike_simpleStmt hq.ends hr (h.mono hq.onFrom (Nat.le_refl r))).bind fun s t ht _ =>
      .pure ht.ends trivial
  refine .onToken ?_
  split
  · exact .pure hp trivial
  · refine .gotThen hp (by decide) (fun q _ hq _ => ?_) fun _ => hinit (.refl hp)
    exact (Alike.complain hq.ends _).bind fun _ s hs _ => hinit (hq.trans hs)

/-- A clause takes its keyword. -/
theorem alike_clause (hp : p.Ends) (hr : 7 ≤ r) (c : Construct)
    (h : AlikeBelow r p (Call.runs budget) (Call.runs budget')) :
    Alike (clause c budget) (clause c budget') p fun _ _ n =>
      p.token = .keyword c.keyword → n < p.left := by
  refine (Alike.want hp (by simp)).bind fun _ q hq hlt => .weaken (Q := fun _ _ _ => True) ?_
    fun _ _ n hle _ ht => Nat.lt_of_le_of_lt hle (hlt ht)
  -- The keyword is taken at the start; nothing behind it has to take anything.
  have hb {s : Parser} (hs : q.Reaches s) : AlikeBelow r s (Call.runs budget) (Call.runs budget') :=
    h.mono (hq.trans hs).onFrom (Nat.le_refl r)
  refine .onToken ?_
  split
  · split
    · exact (Alike.complain hq.ends _).bind fun _ s hs _ => .onHole (.pure hs.ends trivial)
    · exact .pure hq.ends trivial
  · refine (alike_clauseInit hq.ends hr c (hb (.refl hq.ends))).bind fun init? s hs _ => .onToken ?_
    split
    · exact (alike_condition hs.ends _ _ _).bind fun cond? t ht _ => .pure ht.ends trivial
    · refine (alike_clauseSeparator hs.ends).bind fun separator? t ht _ => ?_
      have hqt := hs.trans ht
      split
      · refine (alike_forTail ht.ends hr (hb hqt)).bind fun tail u hu _ => ?_
        exact (alike_condition hu.ends _ _ _).bind fun cond? v hv _ => .pure hv.ends trivial
      · refine .onToken ?_
        split
        · exact (alike_condition ht.ends _ _ _).bind fun cond? u hu _ => .pure hu.ends trivial
        · refine (alike_simpleStmt ht.ends hr (hb hqt)).bind fun cond u hu _ => ?_
          exact (alike_condition hu.ends _ _ _).bind fun cond? v hv _ => .pure hv.ends trivial

/-- A declaration takes its keyword. -/
theorem alike_declStmt (hp : p.Ends) (hr : 7 ≤ r) (keyword : Keyword)
    (h : AlikeBelow r p (Call.runs budget) (Call.runs budget')) :
    Alike (declStmt keyword budget) (declStmt keyword budget') p fun _ _ n =>
      p.token ≠ .eof → n < p.left := by
  refine .traced _ hp fun q hq htoken hleft => .onHere ((Alike.next hq.ends).bind fun _ s hs hlt => ?_)
  have hps := hq.trans hs
  have hb {t : Parser} (ht : s.OnFrom t) : AlikeBelow r t (Call.runs budget) (Call.runs budget') :=
    h.mono (hps.onFrom.trans ht) (Nat.le_refl r)
  have hlast {n : Nat} (hle : n ≤ s.left) (hne : p.token ≠ .eof) : n < p.left := by
    rw [← hleft]
    exact Nat.lt_of_le_of_lt hle (hlt (by rwa [htoken]))
  split
  · have hgroup := alike_grouped keyword q.here hs.ends (hb (.refl s))
      fun t ht hst => alike_typeSpec ht hr (hb hst)
    exact hgroup.bind fun decls t ht _ => .pure ht.ends (hlast ht.left_le)
  · have hgroup := alike_grouped keyword q.here hs.ends (hb (.refl s))
      fun t ht hst => alike_varSpec ht hr (hb hst)
    exact hgroup.bind fun decls t ht _ => .pure ht.ends (hlast ht.left_le)

/-! ## Statements -/

/-- The statements up to the closing brace do the same if the call for them does. -/
theorem alike_stmtsTo {pos : Pos} {q : Parser}
    (h : AlikeBelow r p call (Call.runs budget')) (hq : p.Reaches q)
    (hbelow : Call.stmtList.Below q r p) :
    Alike
      (do
        let stmts ← call _ .stmtList
        let rbrace ← here
        want .rbrace
        return Block.mk pos stmts rbrace)
      (do
        let stmts ← stmtList budget'
        let rbrace ← here
        want .rbrace
        return Block.mk pos stmts rbrace) q fun _ _ _ => True := by
  refine (h .stmtList hq.ends trivial hbelow).bind fun stmts s hs _ => .onHere ?_
  exact (Alike.want hs.ends (by decide)).bind fun _ t ht _ => .pure ht.ends trivial

/-- The rule for blocks does the same if what it calls does. -/
theorem alike_block {after? : Option Construct} (hp : p.Ends)
    (h : AlikeBelow ((Call.block after?).rank p.token) p call (Call.runs budget')) :
    Alike (Call.body budget call (.block after?)) (Call.body budget' (Call.runs budget') (.block after?))
      p ((Call.block after?).Takes p) := by
  refine .tracedCall _ hp fun q hq htoken => .onHere ?_
  refine .gotThen hq.ends (by decide) (fun s hqt hs hlt => ?_) fun hne => ?_
  · have hslt : s.left < p.left := Nat.lt_of_lt_of_le hlt hq.left_le
    exact (alike_stmtsTo h (hq.trans hs) (.inl hslt)).weaken fun _ _ _ hle _ _ =>
      Nat.lt_of_le_of_lt hle hlt
  · -- Without the brace nothing is taken yet, and the list is called from the rank above its own.
    have hrank : (Call.block after?).rank p.token = 11 := if_neg (htoken ▸ hne)
    rw [hrank] at h
    refine .weaken (Q := fun _ _ _ => True) ?_ fun _ _ _ _ _ heq => absurd heq hne
    refine (Alike.complain hq.ends _).bind fun _ s hs _ => ?_
    refine (Alike.recover hs.ends (by decide)).bind fun _ t ht _ => .onHere ?_
    have hpt := hq.trans (hs.trans ht)
    refine .gotThen ht.ends (by decide) (fun u _ hu _ => .pure hu.ends trivial) fun _ => ?_
    refine alike_stmtsTo h hpt ?_
    rcases hpt.onFrom with hlt | ⟨hleft, heq⟩
    · exact .inl hlt
    · exact .inr ⟨hleft, heq, (by decide : 10 < 11)⟩

/-- The rule for several statements does the same if what it calls does. -/
theorem alike_stmtList (hp : p.Ends) (h : AlikeBelow 10 p call (Call.runs budget')) :
    Alike (Call.body budget call .stmtList) (Call.body budget' (Call.runs budget') .stmtList) p
      (Call.stmtList.Takes p) :=
  .tracedCall _ hp fun _ hq _ => h.atFrom .stmts hq trivial (by decide : 9 < 10)

/-- Statements go on only after a lexeme has been taken: a statement takes one, or it is empty and the
separator after it is taken. -/
theorem alike_stmts (hp : p.Ends) (h : AlikeBelow 9 p call (Call.runs budget')) :
    Alike (Call.body budget call .stmts) (Call.body budget' (Call.runs budget') .stmts) p
      (Call.stmts.Takes p) := by
  -- The list goes on only after a statement or a semicolon has been taken.
  have hmore (s : Stmt) {q : Parser} (hq : p.Reaches q) (hlt : q.left < p.left) :
      Alike (do return s :: (← call _ .stmts)) (do return s :: (← stmts budget')) q
        fun _ _ _ => True :=
    (h.atLater .stmts hq trivial hlt).bind fun _ t ht _ => .pure ht.ends trivial
  refine .onToken ?_
  split
  · exact .pure hp trivial
  · next ht =>
    obtain ⟨-, hne⟩ := not_or.mp ht
    refine (h.atFrom .stmt? (.refl hp) trivial (by decide : 8 < 9)).bind fun s? q hq htakes => ?_
    split
    · exact .pure hq.ends trivial
    · next s =>
      refine .gotThen hq.ends (by decide) (fun t _ ht hlt => ?_) fun hsemi => .onToken ?_
      · exact hmore s (hq.trans ht) (Nat.lt_of_lt_of_le hlt hq.left_le)
      · split
        · next hqt => exact hmore s hq (hq.onFrom.left_lt fun heq => hne (heq.symm.trans hqt))
        · have hqlt : q.left < p.left := (htakes rfl).resolve_right hsemi
          refine (Alike.complain hq.ends _).bind fun _ t ht _ => ?_
          refine (Alike.recover ht.ends (by decide)).bind fun _ u hu _ => ?_
          refine .bind (Q := fun _ _ _ => True) ?_ fun _ v hv _ => ?_
          · exact (Alike.got hu.ends .semi).bind fun _ v hv _ => .pure hv.ends trivial
          · have hqv := ht.trans (hu.trans hv)
            exact hmore s (hq.trans hqv) (Nat.lt_of_le_of_lt hqv.left_le hqlt)

/-- A statement takes a lexeme, or it is empty. -/
theorem alike_stmt? (hp : p.Ends) (h : AlikeBelow 8 p call (Call.runs budget'))
    (hb : AlikeBelow 8 p (Call.runs budget) (Call.runs budget')) :
    Alike (Call.body budget call .stmt?) (Call.body budget' (Call.runs budget') .stmt?) p
      (Call.stmt?.Takes p) := by
  refine .tracedCall _ hp fun q hq htoken => .onHere (.onToken ?_)
  have hbq : AlikeBelow 7 q (Call.runs budget) (Call.runs budget') := hb.mono hq.onFrom (by decide)
  -- A simple statement takes a token unless recovery stops at the one it stands at.
  have hsimple (hstop : q.isStop operandFollow = false) :
      Alike (do return some (← simpleStmt budget)) (do return some (← simpleStmt budget')) q
        (Call.stmt?.Takes q) :=
    (alike_simpleStmt hq.ends (Nat.le_refl 7) hbq).bind fun s t ht hlt =>
      .pure ht.ends fun _ => .inl (hlt hstop)
  have hdecl (keyword : Keyword) (hne : q.token ≠ .eof) :
      Alike (do return some (← declStmt keyword budget)) (do return some (← declStmt keyword budget')) q
        (Call.stmt?.Takes q) :=
    (alike_declStmt hq.ends (Nat.le_refl 7) keyword hbq).bind fun s t ht hlt =>
      .pure ht.ends fun _ => .inl (hlt hne)
  split
  · next ht => exact hsimple (by simp [Parser.isStop, ht, operandFollow, Parser.stopWords])
  · next ht => exact hsimple (by simp [Parser.isStop, ht, operandFollow, Parser.stopWords])
  · next ht => exact hsimple (by simp [Parser.isStop, ht, operandFollow, Parser.stopWords])
  · next ht => exact hsimple (by simp [Parser.isStop, ht, operandFollow, Parser.stopWords])
  · next ht => exact hsimple (by simp [Parser.isStop, ht, operandFollow, Parser.stopWords])
  · next ht => exact hsimple (by simp [Parser.isStop, ht, operandFollow, Parser.stopWords])
  · next ht => exact hdecl .varWord (by simp [ht])
  · next ht => exact hdecl .typeWord (by simp [ht])
  · next ht =>
    -- A construct with its own rule stands at its own keyword, where its rank is lower.
    have hrank : (Call.block none).rank q.token < 8 := by
      rw [ht]
      decide
    exact (h.atFrom (.block none) hq trivial hrank).bind fun body s hs hlt =>
      .pure hs.ends fun _ => .inl (hlt ht)
  · next ht =>
    have hrank : Call.forStmt.rank q.token < 8 := by
      rw [ht]
      decide
    exact (h.atFrom .forStmt hq trivial hrank).bind fun s t ht' hlt =>
      .pure ht'.ends fun _ => .inl (hlt ht)
  · next ht =>
    have hrank : Call.whileStmt.rank q.token < 8 := by
      rw [ht]
      decide
    exact (h.atFrom .whileStmt hq trivial hrank).bind fun s t ht' hlt =>
      .pure ht'.ends fun _ => .inl (hlt (by simp [ht]))
  · next ht =>
    have hrank : Call.ifStmt.rank q.token < 8 := by
      rw [ht]
      decide
    exact (h.atFrom .ifStmt hq trivial hrank).bind fun s t ht' hlt =>
      .pure ht'.ends fun _ => .inl (hlt ht)
  · next ht =>
    refine (Alike.next hq.ends).bind fun _ s hs hlt => .onToken ?_
    have hslt : s.left < q.left := hlt (by simp [ht])
    split
    · exact .pure hs.ends fun _ => .inl hslt
    · have hresult : Alike (expr budget) (expr budget') s _ :=
        hbq.atLater .expr hs trivial hslt
      exact hresult.bind fun x t ht' _ =>
        .pure ht'.ends fun _ => .inl (Nat.lt_of_le_of_lt ht'.left_le hslt)
  · next ht =>
    exact (Alike.next hq.ends).bind fun _ s hs hlt =>
      .pure hs.ends fun _ => .inl (hlt (by simp [ht]))
  · next ht => exact .pure hq.ends fun _ => .inr ht
  · exact .pure hq.ends fun h => absurd h (by simp)

/-- The rule for `else` does the same if what it calls does. -/
theorem alike_elseBranch (hp : p.Ends) (h : AlikeBelow 1 p call (Call.runs budget')) :
    Alike (Call.body budget call .elseBranch) (Call.body budget' (Call.runs budget') .elseBranch) p
      (Call.elseBranch.Takes p) := by
  refine .gotThen hp (by decide) (fun q _ hq hlt => .onToken ?_) fun _ => .pure hp trivial
  split
  · exact (h.atLater .ifStmt hq trivial hlt).bind fun s t ht _ => .pure ht.ends trivial
  · exact (h.atLater (.block none) hq trivial hlt).bind fun s t ht _ => .pure ht.ends trivial
  · refine (Alike.complain hq.ends _).bind fun _ s hs _ => ?_
    exact (Alike.recover hs.ends (by decide)).bind fun _ t ht _ => .pure ht.ends trivial

/-- The block of a statement comes after its keyword, or the keyword is missing and the statement is
of a higher rank than the block. -/
theorem alike_blockAfter {q : Parser} (after? : Option Construct)
    (h : AlikeBelow r p call (Call.runs budget')) (hq : p.Reaches q)
    (hr : q.left < p.left ∨ r = 12) :
    Alike (call _ (.block after?)) (block after? budget') q fun _ _ _ => True := by
  have hblock : Alike (call _ (.block after?)) (block after? budget') q
      ((Call.block after?).Takes q) := by
    rcases hr with hlt | rfl
    · exact h.atLater (.block after?) hq trivial hlt
    · have hrank : (Call.block after?).rank q.token < 12 := by
        unfold Call.rank
        dsimp only
        split <;> decide
      exact h.atFrom (.block after?) hq trivial hrank
  exact hblock.weaken fun _ _ _ _ _ => trivial

/-- The rule for `if` does the same if what it calls does, the rules for its clause included. -/
theorem alike_ifStmt (hp : p.Ends)
    (h : AlikeBelow (Call.ifStmt.rank p.token) p call (Call.runs budget'))
    (hb : AlikeBelow (Call.ifStmt.rank p.token) p (Call.runs budget) (Call.runs budget')) :
    Alike (Call.body budget call .ifStmt) (Call.body budget' (Call.runs budget') .ifStmt) p
      (Call.ifStmt.Takes p) := by
  have hrank : 7 ≤ Call.ifStmt.rank p.token := Call.le_rank_ifStmt p.token
  refine .tracedCall _ hp fun q hq htoken => .onHere ?_
  have hbq := hb.mono hq.onFrom (Nat.le_refl _)
  refine (alike_clause hq.ends hrank .ifClause hbq).bind fun clause s hs hlt => ?_
  -- The block is called behind the keyword, or from a higher rank where the keyword was not there.
  have hblock : Alike (call _ (.block (some .ifClause))) (block (some .ifClause) budget') s
      fun _ _ _ => True := by
    refine alike_blockAfter (some .ifClause) h (hq.trans hs) ?_
    by_cases ht : p.token = .keyword .ifWord
    · exact .inl (Nat.lt_of_lt_of_le (hlt (htoken.trans ht)) hq.left_le)
    · exact .inr (if_neg ht)
  refine hblock.bind fun body t ht _ => ?_
  have helse := h.atFrom .elseBranch (hq.trans (hs.trans ht)) trivial
    (Nat.lt_of_lt_of_le (by decide : 1 < 7) hrank)
  exact helse.bind fun else? u hu _ => .pure hu.ends fun hif =>
    Nat.lt_of_le_of_lt (ht.trans hu).left_le (hlt hif)

/-- The rule for `while` does the same if what it calls does, the rules for its condition included. -/
theorem alike_whileStmt (hp : p.Ends)
    (h : AlikeBelow (Call.whileStmt.rank p.token) p call (Call.runs budget'))
    (hb : AlikeBelow (Call.whileStmt.rank p.token) p (Call.runs budget) (Call.runs budget')) :
    Alike (Call.body budget call .whileStmt) (Call.body budget' (Call.runs budget') .whileStmt) p
      (Call.whileStmt.Takes p) := by
  have hrank : 7 ≤ Call.whileStmt.rank p.token := Call.le_rank_whileStmt p.token
  refine .tracedCall _ hp fun q hq htoken => .onHere ((Alike.next hq.ends).bind fun _ s hs hlt => ?_)
  -- The block is called behind the token that was taken, or at the end of the input.
  have hblock {t : Parser} (ht : s.Reaches t) : Alike (call _ (.block (some .whileClause)))
      (block (some .whileClause) budget') t fun _ _ _ => True := by
    refine alike_blockAfter (some .whileClause) h (hq.trans (hs.trans ht)) ?_
    by_cases hne : p.token = .eof
    · exact .inr (if_pos hne)
    · have hslt : s.left < q.left := hlt (by rwa [htoken])
      exact .inl (Nat.lt_of_le_of_lt ht.left_le (Nat.lt_of_lt_of_le hslt hq.left_le))
  refine .onToken ?_
  split
  · refine (Alike.complain hs.ends _).bind fun _ t ht _ => .onHole ?_
    exact (hblock ht).bind fun body u hu _ => .pure hu.ends fun hne =>
      Nat.lt_of_le_of_lt (ht.trans hu).left_le (hlt hne)
  · have hcond : Alike (expr budget) (expr budget') s _ :=
      hb.atFrom .expr (hq.trans hs) trivial (Nat.lt_of_lt_of_le (by decide : 6 < 7) hrank)
    refine hcond.bind fun cond t ht _ => (hblock ht).bind fun body u hu _ => .pure hu.ends fun hne => ?_
    exact Nat.lt_of_le_of_lt (ht.trans hu).left_le (hlt hne)

/-- The rule for `for` does the same if what it calls does, the rules for its clause included. -/
theorem alike_forStmt (hp : p.Ends)
    (h : AlikeBelow (Call.forStmt.rank p.token) p call (Call.runs budget'))
    (hb : AlikeBelow (Call.forStmt.rank p.token) p (Call.runs budget) (Call.runs budget')) :
    Alike (Call.body budget call .forStmt) (Call.body budget' (Call.runs budget') .forStmt) p
      (Call.forStmt.Takes p) := by
  have hrank : 7 ≤ Call.forStmt.rank p.token := Call.le_rank_forStmt p.token
  refine .tracedCall _ hp fun q hq htoken => .onHere ?_
  have hbq := hb.mono hq.onFrom (Nat.le_refl _)
  refine (alike_clause hq.ends hrank .forClause hbq).bind fun clause s hs hlt => ?_
  have hblock : Alike (call _ (.block (some .forClause))) (block (some .forClause) budget') s
      fun _ _ _ => True := by
    refine alike_blockAfter (some .forClause) h (hq.trans hs) ?_
    by_cases ht : p.token = .keyword .forWord
    · exact .inl (Nat.lt_of_lt_of_le (hlt (htoken.trans ht)) hq.left_le)
    · exact .inr (if_neg ht)
  exact hblock.bind fun body t ht _ => .pure ht.ends fun hfor =>
    Nat.lt_of_le_of_lt ht.left_le (hlt hfor)

end ParseM

end FrontEnd
