import FrontEnd.Proofs.Trees.Built

/-!
# Types and expressions are sound

One theorem for each rule, in the order of the grammar. Rules that call each other are taken together,
by induction on their budget.
-/

namespace FrontEnd

namespace Parser

variable {p q : Parser}

/-- A node without parts. -/
theorem Yields.leaf {n : Node} (h : p.Leads q) (hparts : n.parts = [])
    (hn : n.Sound (q.starved = true) q.Excuses) : p.Yields [n] q :=
  .node (hparts ▸ .nil h) hn

/-- An identifier is sound. -/
theorem Yields.ident (name : Ident) (h : p.Leads q) : p.Yields [.ident name] q := .leaf h rfl trivial

/-- A hole in an expression is sound. -/
theorem Yields.bad (pos : Pos) (h : p.Leads q) : p.Yields [.expr (.bad pos)] q := .leaf h rfl trivial

/-- A hole in place of a type is sound. -/
theorem Yields.badType (pos : Pos) (h : p.Leads q) : p.Yields [.type (.bad pos)] q :=
  .leaf h rfl (.inr rfl)

/-- A node that is sound is yielded. -/
theorem Yields.ofSound {n : Node} (h : p.Leads q) (hn : q.Sound n) : p.Yields [n] q :=
  ⟨h, fun m hm => by
    rw [List.mem_singleton.mp hm]
    exact hn⟩

/-- The first of the nodes that are yielded is sound. -/
theorem Yields.head {n : Node} {ns : List Node} (h : p.Yields (n :: ns) q) : q.Sound n :=
  h.sound n List.mem_cons_self

/-- Parts of one kind. -/
theorem Yields.map {α : Type} {f : α → Node} {xs : List α} (h : p.Leads q)
    (hxs : ∀ x ∈ xs, q.Sound (f x)) : p.Yields (xs.map f) q :=
  ⟨h, fun m hm => by
    obtain ⟨x, hx, rfl⟩ := List.mem_map.mp hm
    exact hxs x hx⟩

end Parser

namespace ParseM

open Ensures

variable {α : Type} {budget : Nat} {p q : Parser}

/-- What each element of a list is, all of them are. -/
theorem ensures_list {kind : ListKind} {element : ParseM α} {E : α → Parser → Prop}
    (hE : ∀ x q r, q.Leads r → E x q → E x r)
    (helement : ∀ p, p.Fit → Ensures element p fun x q => p.Leads q ∧ E x q) (hp : p.Fit) :
    Ensures (list kind element budget) p fun xs q => p.Leads q ∧ ∀ x ∈ xs, E x q := by
  -- Element by element; `hE` carries what holds of the earlier elements to the end of the list.
  induction budget generalizing p with
  | zero =>
    refine (leads routine_starve hp).bind fun _ q hq => .pure ⟨hq, fun _ hx => by cases hx⟩
  | succ budget ih =>
    have rest {q : Parser} (x : α) (hpq : p.Leads q) (hx : E x q) :
        Ensures (do return x :: (← list kind element budget)) q fun xs r =>
          p.Leads r ∧ ∀ x ∈ xs, E x r := by
      refine (ih hpq.fit).bind fun xs r ⟨hr, hxs⟩ => .pure ⟨hpq.trans hr, fun y hy => ?_⟩
      rcases List.mem_cons.mp hy with rfl | hy
      · exact hE _ _ _ hr hx
      · exact hxs y hy
    refine .onToken ?_
    split
    · exact (leads (routine_want _) hp).bind fun _ q hq => .pure ⟨hq, fun _ hx => by cases hx⟩
    · refine (helement p hp).bind fun x q ⟨hq, hx⟩ => .gotThen hq.fit (fun r _ hr => ?_) fun _ => .onToken ?_
      · exact rest x (hq.trans hr) (hE _ _ _ hr hx)
      · split
        · exact rest x hq hx
        · refine (leads (routine_complain _) hq.fit).bind fun _ r hr =>
            (leads (routine_recover _) hr.fit).bind fun _ s hs => .onToken ?_
          have hqs := hr.trans hs
          have hx' := hE _ _ _ hqs hx
          split
          · exact rest x (hq.trans hqs) hx'
          · refine .pure ⟨hq.trans hqs, fun y hy => ?_⟩
            rw [List.mem_singleton.mp hy]
            exact hx'

/-! ## Types -/

/-- The rules for types yield sound ones, whatever their budget. -/
theorem ensures_types (budget : Nat) :
    (∀ p : Parser, p.Fit → Ensures (type? budget) p fun x? q => p.Yields (x?.toList.map .type) q) ∧
      ∀ p : Parser, p.Fit → Ensures (sliceElem budget) p fun x q => p.Yields [.type x] q := by
  -- A type and the element of a slice call one another; one induction on the budget serves both.
  induction budget with
  | zero =>
    refine ⟨fun p hp => ?_, fun p hp => ?_⟩
    · exact (leads routine_starve hp).bind fun _ q hq => .pure (.nil hq)
    · exact (leads routine_starve hp).bind fun _ q hq => .onHole (.badType _ hq)
  | succ budget ih =>
    obtain ⟨htype, helem⟩ := ih
    refine ⟨fun p hp => .onToken ?_, fun p hp => .traced hp (lasts_yields p _) fun q hq _ => ?_⟩
    · split
      · exact (leads routine_ident hp).bind fun name q hq => .pure (.node (.ident name hq) (.inl rfl))
      · exact .onHere ((helem p hp).bind fun x q hx => .pure (.node hx (.inl rfl)))
      · exact .pure (.nil (.refl hp))
    · refine (leads routine_next hq.fit).bind fun _ r hr =>
        (leads (routine_want _) hr.fit).bind fun _ s hs =>
          (htype s hs.fit).bind fun x? t hx => ?_
      have hps := hq.trans (hr.trans hs)
      split
      · exact .pure (.sooner hps hx)
      · refine .onHole ((leads (routine_complain _) hx.leads.fit).bind fun _ u hu => .pure ?_)
        exact .badType _ (hps.trans (hx.leads.trans hu))

/-- The rule for types yields a sound one, or none. -/
theorem ensures_type? (hp : p.Fit) :
    Ensures (type? budget) p fun x? q => p.Yields (x?.toList.map .type) q :=
  (ensures_types budget).1 p hp

/-- The type of the elements of a slice is sound. -/
theorem ensures_sliceElem (hp : p.Fit) : Ensures (sliceElem budget) p fun x q => p.Yields [.type x] q :=
  (ensures_types budget).2 p hp

/-! ## Expressions -/

/-- The action yields a sound expression, wherever it starts. -/
def GivesExpr (m : ParseM Expr) : Prop :=
  ∀ p : Parser, p.Fit → Ensures m p fun x q => p.Yields [.expr x] q

/-- The action makes a sound expression of one. -/
def ExtendsExpr (m : Expr → ParseM Expr) : Prop :=
  ∀ (p : Parser) x, p.Fit → p.Sound (.expr x) → Ensures (m x) p fun y q => p.Yields [.expr y] q

/-- A list of sound expressions is yielded. -/
theorem GivesExpr.list {kind : ListKind} {element : ParseM Expr} (h : GivesExpr element) (hp : p.Fit) :
    Ensures (list kind element budget) p fun xs q => p.Yields (xs.map .expr) q := by
  refine (ensures_list (E := fun x q => q.Sound (.expr x)) (fun x q r hr hx => hx.mono hr)
    (fun p hp => (h p hp).weaken fun x q hx => ⟨hx.leads, hx.head⟩) hp).weaken ?_
  exact fun xs q ⟨hq, hxs⟩ => .map hq hxs

/-- The rules for expressions yield sound ones with a given budget. -/
structure SoundExprs (budget : Nat) : Prop where
  expr : GivesExpr (ParseM.expr budget)
  binaryExpr : ∀ floor, GivesExpr (ParseM.binaryExpr floor budget)
  binaryRest : ∀ floor, ExtendsExpr fun x => ParseM.binaryRest floor x budget
  unaryExpr : GivesExpr (ParseM.unaryExpr budget)
  primaryExpr : GivesExpr (ParseM.primaryExpr budget)
  primaryRest : ExtendsExpr fun x => ParseM.primaryRest x budget
  operand : GivesExpr (ParseM.operand budget)

/-- Without any budget there are holes. -/
theorem soundExprs_zero : SoundExprs 0 := by
  have hhole : GivesExpr (do starve; hole) := fun p hp =>
    (leads routine_starve hp).bind fun _ q hq => .onHole (.bad _ hq)
  have hsame : ExtendsExpr fun x => do starve; return x := fun p x hp hx =>
    (leads routine_starve hp).bind fun _ q hq => .pure (.ofSound hq (hx.mono hq))
  exact ⟨hhole, fun _ => hhole, fun _ => hsame, hhole, hhole, hsame, hhole⟩

section

variable (h : SoundExprs budget)
include h

/-- Operations are made of sound operands: the operators bind as they should. -/
theorem extends_binaryRest (floor : Nat) : ExtendsExpr fun x => binaryRest floor x (budget + 1) := by
  intro p x hp hx
  refine .onGet ?_
  split
  · next op hop =>
    split
    · next hfloor =>
      refine .onHere ((leads (routine_remark _) hp).bind fun _ q hq =>
        (leads routine_next hq.fit).bind fun _ r hr =>
          (h.binaryExpr op.precedence r hr.fit).bind fun y s hy => ?_)
      have hpr := hq.trans hr
      have hps := hpr.trans hy.leads
      have hboth : p.Yields [.expr x, .expr y] s := .append (.ofSound hpr (hx.mono hpr)) hy
      -- The operator stands above the floor, while `!` has precedence zero.
      have hnot : op ≠ .not := by
        rintro rfl
        exact Nat.not_lt_zero _ hfloor
      split
      · -- A greater comparison is stored as the lesser one, with its operands swapped.
        have hswapped : p.Yields [.expr y, .expr x] s := hboth.of_subset (by simp [or_comm])
        have hbinary : p.Yields [.expr (.binary p.here .greater y x)] s :=
          .node hswapped ⟨Operator.noConfusion, Operator.noConfusion⟩
        exact (h.binaryRest floor s _ hps.fit hbinary.head).weaken fun _ _ => .sooner hps
      · next hless =>
        have hbinary : p.Yields [.expr (.binary p.here op x y)] s := .node hboth ⟨hnot, hless⟩
        exact (h.binaryRest floor s _ hps.fit hbinary.head).weaken fun _ _ => .sooner hps
    · exact .pure (.ofSound (.refl hp) hx)
  · exact .pure (.ofSound (.refl hp) hx)

/-- A unary operation is made of a sound operand. -/
theorem gives_unaryExpr : GivesExpr (unaryExpr (budget + 1)) := by
  refine fun p hp => .traced hp (lasts_yields p _) fun q hq _ => .onGet ?_
  split
  · next op hop =>
    have hunary : op.isUnary := (Option.filter_eq_some_iff.mp hop).2
    refine .onHere ((leads routine_next hq.fit).bind fun _ r hr =>
      (h.unaryExpr r hr.fit).bind fun x s hx => .pure ?_)
    exact .node (.sooner (hq.trans hr) hx) hunary
  · exact (h.primaryExpr q hq.fit).weaken fun _ _ => .sooner hq

/-- What follows an operand makes a sound one of it. -/
theorem extends_primaryRest : ExtendsExpr fun x => primaryRest x (budget + 1) := by
  intro p x hp hx
  -- What follows extends an expression that is sound by then.
  have rest {q : Parser} {y : Expr} (hy : p.Yields [.expr y] q) :
      Ensures (primaryRest y budget) q fun z r => p.Yields [.expr z] r :=
    (h.primaryRest q y hy.leads.fit hy.head).weaken fun _ _ => .sooner hy.leads
  have hself {q : Parser} (hq : p.Leads q) : p.Yields [.expr x] q := .ofSound hq (hx.mono hq)
  refine .onHere (.onToken ?_)
  split
  · refine (leads routine_next hp).bind fun _ q hq => .onToken ?_
    split
    · refine (leads routine_ident hq.fit).bind fun field r hr => rest ?_
      exact .node ((hself hq).append (.ident field hr)) trivial
    · exact (leads (routine_complain _) hq.fit).bind fun _ r hr =>
        (leads (routine_recover _) hr.fit).bind fun _ s hs => rest (hself (hq.trans (hr.trans hs)))
  · refine (leads routine_next hp).bind fun _ q hq => (h.expr q hq.fit).bind fun i r hi =>
      (leads (routine_want _) hi.leads.fit).bind fun _ s hs => rest ?_
    exact .node ((hself hq).append (hi.later hs)) trivial
  · refine (leads routine_next hp).bind fun _ q hq => ?_
    refine (Ensures.traced hq.fit (lasts_yields q fun xs : List Expr => xs.map .expr) fun r hr _ =>
      (h.expr.list hr.fit).weaken fun xs s hxs => .sooner hr hxs).bind fun args t hargs => rest ?_
    exact .node ((hself hq).append hargs) trivial
  · exact .pure (hself (.refl hp))

/-- An operand is sound. -/
theorem gives_operand : GivesExpr (operand (budget + 1)) := by
  -- By the first token; every branch yields one node, the last one a hole.
  refine fun p hp => .traced hp (lasts_yields p _) fun q hq _ => .onToken ?_
  split
  · refine (leads routine_ident hq.fit).bind fun name r hr =>
      (leads (routine_remark _) hr.fit).bind fun _ s hs => .pure ?_
    exact .node (.ident name (hq.trans (hr.trans hs))) trivial
  · refine (leads routine_literal hq.fit).bind fun l r hr =>
      (leads (routine_remark _) hr.fit).bind fun _ s hs => .pure ?_
    exact .node (.leaf (hq.trans (hr.trans hs)) rfl trivial) trivial
  · refine .onHere ((ensures_sliceElem hq.fit).bind fun elem r helem => .onToken ?_)
    have helem' := Parser.Yields.sooner hq helem
    split
    · refine (leads routine_next helem.leads.fit).bind fun _ s hs =>
        (h.expr.list hs.fit).bind fun xs t hxs => .pure ?_
      exact .node ((helem'.later hs).append hxs) trivial
    · exact .pure (.node helem' trivial)
  · refine .onHere ((leads routine_next hq.fit).bind fun _ r hr => (h.expr r hr.fit).bind fun x s hx =>
      (leads (routine_want _) hx.leads.fit).bind fun _ t ht => .pure ?_)
    exact .node (.sooner (hq.trans hr) (hx.later ht)) trivial
  · refine .onHole ((leads (routine_complain _) hq.fit).bind fun _ r hr =>
      (leads (routine_recover _) hr.fit).bind fun _ s hs => .pure ?_)
    exact .bad _ (hq.trans (hr.trans hs))

end

/-- The rules for expressions yield sound ones, whatever their budget. -/
theorem soundExprs (budget : Nat) : SoundExprs budget := by
  induction budget with
  | zero => exact soundExprs_zero
  | succ budget ih =>
    exact {
      expr := fun p hp => .traced hp (lasts_yields p _) fun q hq _ =>
        (ih.binaryExpr 0 q hq.fit).weaken fun _ _ => .sooner hq
      binaryExpr := fun floor p hp => (ih.unaryExpr p hp).bind fun x q hx =>
        (ih.binaryRest floor q x hx.leads.fit hx.head).weaken fun _ _ => .sooner hx.leads
      binaryRest := extends_binaryRest ih
      unaryExpr := gives_unaryExpr ih
      primaryExpr := fun p hp => .traced hp (lasts_yields p _) fun q hq _ =>
        (ih.operand q hq.fit).bind fun x r hx =>
          (ih.primaryRest r x hx.leads.fit hx.head).weaken fun _ _ => .sooner (hq.trans hx.leads)
      primaryRest := extends_primaryRest ih
      operand := gives_operand ih }

/-- An expression is sound. -/
theorem gives_expr (budget : Nat) : GivesExpr (expr budget) := (soundExprs budget).expr

end ParseM

end FrontEnd
