import FrontEnd.Proofs.Grammar.Reads

/-!
# What has been read without complaint

Whatever a rule reads without a complaint spells its result: one theorem for each rule of the grammar.
Rules that call each other are taken together, by induction on their budget. That a budget suffices
is shown on the way: a rule that has to do with at most `n` lexemes needs `16 * n` and a little more,
which depends on the rules inside it that start at the same lexeme.
-/

namespace FrontEnd

namespace ParseM

variable {n k : Int} {P : Outlook}

namespace Reads

/-- The rule for identifiers reads a name. -/
theorem ident : Reads n P ident (n - 1) fun name g us =>
    ∃ l pos, l.token = .name ∧ name = ⟨pos, l.literal⟩ ∧ P g (l :: us) := by
  refine .bind .here fun pos => .bind .token fun t => ?_
  split
  · next ht =>
    refine .bind .current fun lexeme => .bind (.next ?_) fun _ => .pure ?_ (Int.le_refl _)
    · rintro g ts ⟨⟨-, hpeek⟩, -⟩
      exact ne_nil_of_peek hpeek (by simp [ht])
    · rintro g us ⟨l, ⟨hP, hpeek⟩, hl⟩
      obtain ⟨rfl, -⟩ := hl l us rfl
      exact ⟨l, pos, hpeek.trans ht, rfl, hP⟩
  · exact .bind (k := 0) (.complain _) fun _ => .never ((routine_recover _).bind fun _ => .done _)

/-- The rule for literals reads one that is fine. -/
theorem literal (h : ∀ g ts, P g ts → peek ts = .literal) : Reads n P literal (n - 1) fun x g us =>
    ∃ l pos, l.token = .literal ∧ l.Fine ∧ x = ⟨pos, l.literal, l.kind, l.bad⟩ ∧
      P g (l :: us) := by
  refine .bind .here fun pos => .bind .current fun lexeme =>
    .bind (.next ?_) fun _ => .pure ?_ (Int.le_refl _)
  · rintro g ts ⟨hP, -⟩
    exact ne_nil_of_peek (h g ts hP) (by simp)
  · rintro g us ⟨l, hP, hl⟩
    obtain ⟨rfl, hfine⟩ := hl l us rfl
    exact ⟨l, pos, h g _ hP, hfine, rfl, hP⟩

/-- A list, through its closer. -/
theorem list {α : Type} {S : α → List Lexeme → List Lexeme → Prop} {kind : ListKind}
    {element : ParseM α} (hm : Routine element) {budget : Nat} (hn : 16 * n + 1 ≤ budget)
    (he : ∀ {m : Int} {P}, m ≤ n → Reads m P element (m - 1) fun x => Past (S x) P) :
    Reads n P (list kind element budget) (n - 1) fun xs =>
      After kind.closer (Past (Listed S kind.separator xs) P) := by
  have hcloser : kind.closer ≠ .eof := by cases kind <;> decide
  have hseparator : kind.separator ≠ .eof := by cases kind <;> decide
  -- If the closer comes at once, the list is empty: that is how a separator at its end is read.
  suffices h : Reads n P (ParseM.list kind element budget) (n - 1) fun xs =>
      After kind.closer (Past (fun ts us => Listed S kind.separator xs ts us ∧
        (peek ts = kind.closer → xs = [])) P) from
    h.weaken (fun _ _ h => h) (fun _ _ _ ⟨l, hl, ts, hP, hxs, _⟩ => ⟨l, hl, ts, hP, hxs⟩)
      (Int.le_refl _)
  induction budget generalizing n P with
  | zero => exact .overrun (routine_list _ hm _) (by omega)
  | succ budget ih =>
    have ih' {m : Int} {P : Outlook} (h : m ≤ n - 1) :=
      ih (n := m) (P := P) (by omega) fun hm => he (by omega)
    refine .bind .token fun t => ?_
    split
    · refine .bind (.want hcloser) fun _ => .pure ?_ (Int.le_refl _)
      rintro g us ⟨l, hl, hP, -⟩
      exact ⟨l, hl, _, hP, .nil, fun _ => rfl⟩
    · next ht =>
      have hne : t ≠ kind.closer := fun h => ht (.inr h)
      refine .bind (he (Int.le_refl _)) fun x => .gotThen hseparator ?_ (.bind .token fun t' => ?_)
      · refine .bind (ih' (by omega)) fun xs => .pure ?_ (by omega)
        rintro g us ⟨l, hl, vs, ⟨s, hs, ts, ⟨hP, hpeek⟩, hx⟩, hxs, -⟩
        exact ⟨l, hl, ts, hP, .cons hx hs hxs, fun h => absurd (hpeek.symm.trans h) hne⟩
      · split
        · next ht' =>
          refine .bind (ih' (by omega)) fun xs => .pure ?_ (by omega)
          rintro g us ⟨l, hl, vs, ⟨⟨⟨ts, ⟨hP, hpeek⟩, hx⟩, -⟩, hvs⟩, hxs, hnil⟩
          obtain rfl := hnil (hvs.trans ht')
          cases hxs
          exact ⟨l, hl, ts, hP, .last hx, fun h => absurd (hpeek.symm.trans h) hne⟩
        · refine .bind (k := 0) (.complain _) fun _ => .never ?_
          refine (routine_recover _).bind fun _ => routine_token.bind fun t => ?_
          split
          · exact (routine_list _ hm _).bind fun xs => .done _
          · exact .done _

end Reads

/-! ## Types and expressions -/

/-- No type starts here. -/
def NoType (ts : List Lexeme) : Prop := peek ts ≠ .name ∧ peek ts ≠ .lbrack

/-- The rules for types with a given budget. -/
structure TypeReads (budget : Nat) : Prop where
  type? : ∀ {n : Int} {P}, 16 * n + 2 ≤ budget → Reads n P (type? budget) n fun x? =>
    x?.elim (fun g ts => P g ts ∧ NoType ts) fun x => Past (SpellsType x) P
  sliceElem : ∀ {n : Int} {P}, 16 * n + 1 ≤ budget →
    Reads n (fun g ts => P g ts ∧ peek ts = .lbrack) (sliceElem budget) (n - 2) fun x =>
      Past (fun ts us => ∀ pos, SpellsType (.sliceType pos x) ts us) P

/-- The rules for types read what spells them, whatever their budget. -/
theorem typeReads (budget : Nat) : TypeReads budget := by
  -- A type and the element of a slice call one another; one induction on the budget serves both.
  induction budget with
  | zero =>
    exact ⟨fun _ => .overrun (routine_type? 0) (by omega),
      fun _ => .overrun (routine_sliceElem 0) (by omega)⟩
  | succ budget ih =>
    constructor
    · intro n P hn
      refine .bind .token fun t => ?_
      split
      · refine .bind .ident fun name => .pure ?_ (by omega)
        rintro g us ⟨l, pos, hl, rfl, hP, -⟩
        exact ⟨_, hP, .name pos hl⟩
      · refine .bind .here fun pos => .bind (ih.sliceElem (by omega)) fun x => .pure ?_ (by omega)
        rintro g us ⟨ts, hP, hx⟩
        exact ⟨ts, hP, hx pos⟩
      · next hname hlbrack =>
        refine .pure ?_ (Int.le_refl _)
        rintro g ts ⟨hP, rfl⟩
        exact ⟨hP, hname, hlbrack⟩
    · intro n P hn
      refine .traced _ (.bind (.nextAfter (by decide)) fun _ => .bind (.want (by decide)) fun _ =>
        .bind (ih.type? (by omega)) fun x? => ?_)
      split
      · refine .pure ?_ (by omega)
        rintro g us ⟨ts, ⟨r, hr, l, hl, hP⟩, hx⟩
        exact ⟨_, hP, fun pos => .slice pos hl hr hx⟩
      · exact .bind .hole fun bad => .bind (k := 0) (.complain _) fun _ => .never (.done _)

/-- The rule for types reads what spells one, or there is none. -/
theorem reads_type? (budget : Nat) (hn : 16 * n + 2 ≤ budget) :
    Reads n P (type? budget) n fun x? =>
      x?.elim (fun g ts => P g ts ∧ NoType ts) fun x => Past (SpellsType x) P :=
  (typeReads budget).type? hn

end ParseM

/-- An expression of operators that bind more strongly than `floor` binds more strongly than anything
weaker. -/
theorem SpellsExpr.lower {floor floor' : Nat} {x : Expr} {ts us : List Lexeme}
    (h : SpellsExpr (.binary floor x) ts us) (hle : floor' ≤ floor) :
    SpellsExpr (.binary floor' x) ts us := by
  cases h with
  | operation pos ho hp hx hy => exact .operation pos ho (Nat.lt_of_le_of_lt hle hp) hx hy
  | operand hx => exact .operand hx

/-- A list of expressions is a list like any other. -/
theorem spellsExpr_list {xs : List Expr} {ts us : List Lexeme}
    (h : Listed SpellsWhole .comma xs ts us) : SpellsExpr (.list xs) ts us := by
  induction h with
  | nil => exact .nil
  | last hx => exact .last hx
  | cons hx hl _ ih => exact .cons hx hl ih

/-- There are five levels of precedence. -/
theorem Operator.precedence_le (op : Operator) : op.precedence ≤ 5 := by cases op <;> decide

namespace ParseM

variable {n k : Int} {P : Outlook}

/-- An expression of operators that bind more strongly than `floor`, as far as it goes. -/
def Climbed (floor : Nat) (x : Expr) (ts us : List Lexeme) : Prop :=
  SpellsExpr (.binary floor x) ts us ∧ Weak floor us

/-- An expression that any operator that comes next may have as its left operand. -/
def Climbing (floor : Nat) (x : Expr) (ts us : List Lexeme) : Prop :=
  ∃ level, floor ≤ level ∧ SpellsExpr (.binary level x) ts us ∧ Weak (level + 1) us

/-- An operator that binds more strongly than `floor` extends what has been read. -/
theorem Climbing.operation {floor : Nat} {op : Operator} {l : Lexeme} {x y : Expr}
    {ts us vs : List Lexeme} (hx : Climbing floor x ts (l :: us)) (ho : l.operator? = some op)
    (hp : floor < op.precedence) (hy : Climbed op.precedence y us vs) (pos : Pos) :
    Climbing floor (.operation pos op x y) ts vs := by
  obtain ⟨level, hfloor, hx, hweak⟩ := hx
  have hlevel : op.precedence ≤ level + 1 := hweak op ho
  refine ⟨op.precedence - 1, by omega, .operation pos ho (by omega) (hx.lower (by omega)) hy.1, ?_⟩
  rw [Nat.sub_add_cancel (by omega)]
  exact hy.2

/-- What any operator may follow has been climbed if none that follows is strong enough. -/
theorem Climbing.climbed {floor : Nat} {x : Expr} {ts us : List Lexeme}
    (hx : Climbing floor x ts us) (hweak : Weak floor us) : Climbed floor x ts us := by
  obtain ⟨level, hfloor, hx, -⟩ := hx
  exact ⟨hx.lower hfloor, hweak⟩

/-- The rules for expressions with a given budget. -/
structure ExprReads (budget : Nat) : Prop where
  expr : ∀ {n : Int} {P}, 16 * n + 6 ≤ budget →
    Reads n P (expr budget) (n - 1) fun x => Past (SpellsWhole x) P
  binaryExpr : ∀ {n : Int} {P} floor, 16 * n + 5 ≤ budget →
    Reads n P (binaryExpr floor budget) (n - 1) fun x => Past (Climbed floor x) P
  binaryRest : ∀ {n : Int} {P} floor x, 16 * n + 1 ≤ budget →
    Reads n (Past (Climbing floor x) P) (binaryRest floor x budget) n fun y =>
      Past (Climbed floor y) P
  unaryExpr : ∀ {n : Int} {P}, 16 * n + 4 ≤ budget →
    Reads n P (unaryExpr budget) (n - 1) fun x => Past (SpellsExpr (.unary x)) P
  primaryExpr : ∀ {n : Int} {P}, 16 * n + 3 ≤ budget →
    Reads n P (primaryExpr budget) (n - 1) fun x => Past (SpellsExpr (.primary x)) P
  primaryRest : ∀ {n : Int} {P} x, 16 * n + 1 ≤ budget →
    Reads n (Past (SpellsExpr (.primary x)) P) (primaryRest x budget) n fun y =>
      Past (SpellsExpr (.primary y)) P
  operand : ∀ {n : Int} {P}, 16 * n + 2 ≤ budget →
    Reads n P (operand budget) (n - 1) fun x => Past (SpellsExpr (.primary x)) P

section

variable {budget : Nat} (h : ExprReads budget)
include h

/-- The loop over operators reads what spells an operation, as far as it goes. -/
theorem reads_binaryRest_succ (floor : Nat) (x : Expr) (hn : 16 * n + 1 ≤ ↑(budget + 1)) :
    Reads n (Past (Climbing floor x) P) (binaryRest floor x (budget + 1)) n fun y =>
      Past (Climbed floor y) P := by
  refine .bind .get fun q => ?_
  split
  · next op ho =>
    split
    · next hp =>
      refine .bind .here fun pos => .bind (.remark _) fun _ => .bind (.next ?_) fun _ =>
        .bind (h.binaryExpr _ (by omega)) fun y => ?_
      · rintro g ts ⟨-, hat⟩ rfl
        rw [hat.operator?] at ho
        cases ho
      -- The rest is read with the larger operand, whichever way round the two sides are stored.
      have hrest (z : Expr) (hz : z = .operation pos op x y) : Reads (n - 1 - 1)
          (Past (Climbed op.precedence y) fun g us => ∃ l, Past (Climbing floor x) P g (l :: us) ∧
            q.At g (l :: us)) (ParseM.binaryRest floor z budget) n fun y => Past (Climbed floor y) P := by
        refine (h.binaryRest floor z (by omega)).weaken ?_ (fun _ _ _ h => h) (by omega)
        rintro g vs ⟨us, ⟨l, ⟨ts, hP, hx⟩, hat⟩, hy⟩
        rw [hat.operator?] at ho
        exact ⟨ts, hP, hz ▸ hx.operation ho hp hy pos⟩
      split
      · next hless => exact hrest _ (by rw [Expr.operation, if_pos hless])
      · next hless => exact hrest _ (by rw [Expr.operation, if_neg hless])
    · next hp =>
      refine .pure ?_ (Int.le_refl _)
      -- The loop stops at an operator that binds no tighter than the floor, or at none at all.
      rintro g us ⟨⟨ts, hP, hx⟩, hat⟩
      rw [hat.operator?] at ho
      refine ⟨ts, hP, hx.climbed fun op' ho' => ?_⟩
      obtain rfl := Option.some.inj (ho.symm.trans ho')
      exact Nat.le_of_not_lt hp
  · next ho =>
    refine .pure ?_ (Int.le_refl _)
    rintro g us ⟨⟨ts, hP, hx⟩, hat⟩
    rw [hat.operator?] at ho
    refine ⟨ts, hP, hx.climbed fun op' ho' => ?_⟩
    rw [ho] at ho'
    cases ho'

/-- The rule for unary operations reads what spells one. -/
theorem reads_unaryExpr_succ (hn : 16 * n + 4 ≤ ↑(budget + 1)) :
    Reads n P (unaryExpr (budget + 1)) (n - 1) fun x => Past (SpellsExpr (.unary x)) P := by
  refine .traced _ (.bind .get fun q => ?_)
  split
  · next op ho =>
    refine .bind .here fun pos => .bind (.next ?_) fun _ => .bind (h.unaryExpr (by omega)) fun x =>
      .pure ?_ (by omega)
    · rintro g ts ⟨-, hat⟩ rfl
      rw [hat.operator?] at ho
      cases ho
    · rintro g us ⟨ts, ⟨l, hP, hat⟩, hx⟩
      rw [hat.operator?] at ho
      obtain ⟨ho, hop⟩ := Option.filter_eq_some_iff.mp ho
      exact ⟨_, hP, .unary pos ho hop hx⟩
  · refine (h.primaryExpr (by omega)).weaken (fun _ _ h => h.1) ?_ (Int.le_refl _)
    rintro x g us ⟨ts, hP, hx⟩
    exact ⟨ts, hP, .primary hx⟩

/-- The rule for arguments reads expressions with commas between them. -/
theorem reads_args (hn : 16 * n + 6 ≤ budget) (kind : ListKind)
    (hkind : kind.separator = .comma) :
    Reads n P (ParseM.list kind (ParseM.expr budget) budget) (n - 1) fun xs =>
      After kind.closer (Past (SpellsExpr (.list xs)) P) := by
  have hlist : Reads n P (ParseM.list kind (ParseM.expr budget) budget) (n - 1) fun xs =>
      After kind.closer (Past (Listed SpellsWhole kind.separator xs) P) :=
    .list (routine_expr budget) (by omega) fun hm => h.expr (by omega)
  refine hlist.weaken (fun _ _ h => h) ?_ (Int.le_refl _)
  rintro xs g us ⟨l, hl, ts, hP, hxs⟩
  exact ⟨l, hl, ts, hP, spellsExpr_list (hkind ▸ hxs)⟩

/-- The rule for what follows an operand reads what spells it. -/
theorem reads_primaryRest_succ (x : Expr) (hn : 16 * n + 1 ≤ ↑(budget + 1)) :
    Reads n (Past (SpellsExpr (.primary x)) P) (primaryRest x (budget + 1)) n fun y =>
      Past (SpellsExpr (.primary y)) P := by
  -- One branch a suffix: selector, index, call, and nothing more.
  refine .bind .here fun pos => .bind .token fun t => ?_
  split
  · refine .bind (.nextAfter (by decide)) fun _ => .bind .token fun t => ?_
    split
    · next ht =>
      refine .bind .ident fun field => (h.primaryRest _ (by omega)).weaken ?_ (fun _ _ _ h => h)
        (by omega)
      rintro g us ⟨f, pos', hf, rfl, ⟨d, hd, ts, hP, hx⟩, -⟩
      exact ⟨ts, hP, .selector pos pos' hx hd hf⟩
    · exact .bind (k := 0) (.complain _) fun _ => .never
        ((routine_recover _).bind fun _ => (exprRoutines budget).primaryRest _)
  · refine .bind (.nextAfter (by decide)) fun _ => .bind (h.expr (by omega)) fun i =>
      .bind (.want (by decide)) fun _ => (h.primaryRest _ (by omega)).weaken ?_ (fun _ _ _ h => h)
        (by omega)
    rintro g vs ⟨r, hr, us, ⟨l, hl, ts, hP, hx⟩, hi⟩
    exact ⟨ts, hP, .index pos hx hl hi hr⟩
  · refine .bind (.nextAfter (by decide)) fun _ =>
      .bind (.traced _ (reads_args h (by omega) .arguments rfl)) fun args =>
        (h.primaryRest _ (by omega)).weaken ?_ (fun _ _ _ h => h) (by omega)
    rintro g vs ⟨r, hr, us, ⟨l, hl, ts, hP, hx⟩, hargs⟩
    exact ⟨ts, hP, .call pos hx hl hargs hr⟩
  · exact .pure (fun _ _ h => h.1) (Int.le_refl _)

/-- The rule for operands reads what spells one. -/
theorem reads_operand_succ (hn : 16 * n + 2 ≤ ↑(budget + 1)) :
    Reads n P (operand (budget + 1)) (n - 1) fun x => Past (SpellsExpr (.primary x)) P := by
  -- By the first token: name, literal, slice, parenthesis, and nothing that starts an operand.
  refine .traced _ (.bind .token fun t => ?_)
  split
  · refine .bind .ident fun name => .bind (.remark _) fun _ => .pure ?_ (Int.le_refl _)
    rintro g us ⟨l, pos, hl, rfl, hP, -⟩
    exact ⟨_, hP, .name pos hl⟩
  · refine .bind (.literal fun _ _ h => h.2) fun x => .bind (.remark _) fun _ =>
      .pure ?_ (Int.le_refl _)
    rintro g us ⟨l, pos, hl, -, rfl, hP, -⟩
    exact ⟨_, hP, .literal pos hl⟩
  · refine .bind .here fun pos => .bind ((typeReads budget).sliceElem (by omega)) fun elem =>
      .bind .token fun t => ?_
    split
    · next ht =>
      refine .bind (.nextAfter (by simp [ht])) fun _ =>
        .bind (reads_args h (by omega) .elements rfl) fun elems => .pure ?_ (by omega)
      rintro g vs ⟨r, hr, us, ⟨l, hl, ts, hP, hx⟩, hxs⟩
      exact ⟨ts, hP, .sliceLit (hx pos) (hl.trans ht) hxs hr⟩
    · next ht =>
      refine .pure ?_ (by omega)
      -- Without elements behind it the slice type stands for itself.
      rintro g us ⟨⟨ts, hP, hx⟩, hpeek⟩
      exact ⟨ts, hP, .sliceType (hx pos) fun h => ht (hpeek.symm.trans h)⟩
  · refine .bind .here fun pos => .bind (.nextAfter (by decide)) fun _ =>
      .bind (h.expr (by omega)) fun x => .bind (.want (by decide)) fun _ => .pure ?_ (by omega)
    rintro g us ⟨r, hr, ts, ⟨l, hl, hP⟩, hx⟩
    exact ⟨_, hP, .paren pos hl hx hr⟩
  · exact .bind .hole fun bad => .bind (k := 0) (.complain _) fun _ => .never
      ((routine_recover _).bind fun _ => .done bad)

end

/-- The rules for expressions read what spells them, whatever their budget. -/
theorem exprReads (budget : Nat) : ExprReads budget := by
  induction budget with
  | zero =>
    have hr := exprRoutines 0
    exact {
      expr := fun _ => .overrun hr.expr (by omega)
      binaryExpr := fun floor _ => .overrun (hr.binaryExpr floor) (by omega)
      binaryRest := fun floor x _ => .overrun (hr.binaryRest floor x) (by omega)
      unaryExpr := fun _ => .overrun hr.unaryExpr (by omega)
      primaryExpr := fun _ => .overrun hr.primaryExpr (by omega)
      primaryRest := fun x _ => .overrun (hr.primaryRest x) (by omega)
      operand := fun _ => .overrun hr.operand (by omega) }
  | succ budget ih =>
    exact {
      expr := fun hn => by
        refine .traced _ ((ih.binaryExpr 0 (by omega)).weaken (fun _ _ h => h) ?_ (Int.le_refl _))
        rintro x g us ⟨ts, hP, hx, -⟩
        exact ⟨ts, hP, hx⟩
      binaryExpr := fun floor hn => by
        refine .bind (ih.unaryExpr (by omega)) fun x =>
          (ih.binaryRest floor x (by omega)).weaken ?_ (fun _ _ _ h => h) (Int.le_refl _)
        rintro g us ⟨ts, hP, hx⟩
        -- Whatever comes next, it may take an operand on its left.
        exact ⟨ts, hP, floor + 5, Nat.le_add_right _ _, .operand hx, fun op _ =>
          Nat.le_trans op.precedence_le (by omega)⟩
      binaryRest := fun floor x hn => reads_binaryRest_succ ih floor x hn
      unaryExpr := fun hn => reads_unaryExpr_succ ih hn
      primaryExpr := fun hn => .traced _ (.bind (ih.operand (by omega)) fun x =>
        ih.primaryRest x (by omega))
      primaryRest := fun x hn => reads_primaryRest_succ ih x hn
      operand := fun hn => reads_operand_succ ih hn }

/-- The rule for expressions reads what spells a whole one. -/
theorem reads_expr (budget : Nat) (hn : 16 * n + 6 ≤ budget) :
    Reads n P (expr budget) (n - 1) fun x => Past (SpellsWhole x) P :=
  (exprReads budget).expr hn

end ParseM

end FrontEnd
