import FrontEnd.Proofs.Grammar.Productions

/-!
# Whatever is derived has a tree

`HasTree` says of each nonterminal that there is a tree with the lexemes that it derives. The relation
fits the productions, one by one, and therefore contains all that is derived. The one production that
takes an argument of its own is that for binary operations: of two trees with an operator between them
it makes one in which every operator binds as strongly as it should (`SpellsExpr.join`).
-/

namespace FrontEnd

/-! ## Induction over derivations -/

/-- Any number of steps from some lexemes to others. -/
inductive Repeated (R : List Lexeme → List Lexeme → Prop) : List Lexeme → List Lexeme → Prop
  | nil {ts} : Repeated R ts ts
  | cons {ts us vs} : R ts us → Repeated R us vs → Repeated R ts vs

/-- What a right side means if nonterminals mean `M`. -/
def Rhs.Means (M : Nonterminal → List Lexeme → List Lexeme → Prop) :
    Rhs → List Lexeme → List Lexeme → Prop
  | .lexeme accept, ts, us => ∃ l, accept l ∧ ts = l :: us
  | .ref n, ts, us => M n ts us
  | .seq a b, ts, us => ∃ vs, a.Means M ts vs ∧ b.Means M vs us
  | .alt a b, ts, us => a.Means M ts us ∨ b.Means M ts us
  | .opt a, ts, us => ts = us ∨ a.Means M ts us
  | .many a, ts, us => Repeated (a.Means M) ts us

/-- What is derived is meant, by whatever fits the productions. -/
theorem Derives.means {head : Ending} {M : Nonterminal → List Lexeme → List Lexeme → Prop}
    (hM : ∀ n ts us, (production head n).Means M ts us → M n ts us) {a : Rhs} {ts us : List Lexeme}
    (h : Derives head a ts us) : a.Means M ts us := by
  induction h with
  | lexeme hl => exact ⟨_, hl, rfl⟩
  | ref _ ih => exact hM _ _ _ ih
  | seq _ _ iha ihb => exact ⟨_, iha, ihb⟩
  | left _ ih => exact .inl ih
  | right _ ih => exact .inr ih
  | skip => exact .inl rfl
  | take _ ih => exact .inr ih
  | nil => exact .nil
  | cons _ _ iha ih => exact .cons iha ih

/-! ## Binary operations -/

/-- An operation that goes on with another operand. -/
theorem SpellsExpr.extend {floor : Nat} {x y : Expr} {op : Operator} {l : Lexeme}
    {ts us vs : List Lexeme} (hx : SpellsExpr (.binary floor x) ts (l :: us))
    (hl : l.operator? = some op) (hfloor : floor < op.precedence) (hy : SpellsExpr (.unary y) us vs) :
    ∃ z, SpellsExpr (.binary floor z) ts vs := by
  generalize he : ExprPhrase.binary floor x = e at hx
  generalize hws : l :: us = ws at hx
  induction hx generalizing floor x with
  | @operation pos floor m op' a b ts us' ws hm hfloor' ha hb _ ihb =>
    cases he
    subst hws
    by_cases hop : op.precedence ≤ op'.precedence
    · -- the operation becomes the left operand
      have hleft : SpellsExpr (.binary (op.precedence - 1) (.operation pos op' a b)) ts (l :: us) :=
        .operation pos hm (by omega) ha hb
      exact ⟨_, .operation default hl hfloor hleft (.operand hy)⟩
    · -- the right operand takes the new one
      obtain ⟨z, hz⟩ := ihb (by omega) rfl rfl
      exact ⟨_, .operation pos hm hfloor' ha hz⟩
  | operand ha =>
    cases he
    subst hws
    exact ⟨_, .operation default hl hfloor (.operand ha) (.operand hy)⟩
  | _ => cases he

/-- Of two expressions with an operator between them there is a tree. -/
theorem SpellsExpr.join {floor : Nat} {x y : Expr} {op : Operator} {l : Lexeme}
    {ts us vs : List Lexeme} (hx : SpellsWhole x ts (l :: us)) (hl : l.operator? = some op)
    (hop : 0 < op.precedence) (hy : SpellsExpr (.binary floor y) us vs) :
    ∃ z, SpellsWhole z ts vs := by
  generalize he : ExprPhrase.binary floor y = e at hy
  induction hy generalizing floor x y op l ts with
  | operation pos hm hfloor _ _ iha ihb =>
    obtain ⟨z, hz⟩ := iha hx hl hop rfl
    exact ihb hz hm (by omega) rfl
  | operand hb => exact hx.extend hl hop hb
  | _ => cases he

/-! ## Trees for the nonterminals -/

/-- Whether an expression with the ending may stand before the lexemes. -/
def Ending.Fits (e : Ending) (us : List Lexeme) : Prop := e = .free → peek us ≠ .lbrace

/-- What does not end in a slice type without elements may stand before anything. -/
theorem Ending.fits_closed (us : List Lexeme) : Ending.closed.Fits us := fun h => nomatch h

/-- There is a tree for the nonterminal that is spelled by the lexemes from `ts` to `us`. What may end
in a slice type is not followed by a brace. -/
def HasTree : Nonterminal → List Lexeme → List Lexeme → Prop
  | .file, ts, us => us = [] → ∃ f, SpellsFile f ts
  | .importDecl, ts, us => peek us ≠ .lbrace → ∀ g, ∃ ds g', SpellsTop .importWord ds g ts g' us
  | .decl, ts, us => peek us ≠ .lbrace →
      ∀ g, ∃ k ds g', k ≠ .importWord ∧ SpellsTop k ds g ts g' us
  | .param, ts, us => ∃ p, SpellsParam p ts us
  | .params, ts, us => ∃ ps l r vs, ts = l :: vs ∧ l.token = .lparen ∧
      Listed SpellsParam .comma ps vs (r :: us) ∧ r.token = .rparen
  | .type, ts, us => ∃ x, SpellsType x ts us
  | .importSpec, ts, us => ∃ s, SpellsSpec s ts us ∧ s.keyword = .importWord
  | .typeSpec, ts, us => ∃ s, SpellsSpec s ts us ∧ s.keyword = .typeWord
  | .varSpec, ts, us => peek us ≠ .lbrace → ∃ s, SpellsSpec s ts us ∧ s.keyword = .varWord
  | .block, ts, us => ∀ g, ∃ b g', SpellsStmt (.block b) g ts g' us
  | .stmt, ts, us => peek us ≠ .lbrace → ∀ g, ∃ s g', SpellsStmt (.stmt s) g ts g' us
  | .ifStmt, ts, us => ∀ g, ∃ s g', SpellsStmt (.ifStmt s) g ts g' us
  | .simple, ts, us => peek us ≠ .lbrace → ∃ s, SpellsSimple s ts us
  | .post e, ts, us => e.Fits us → ∃ s, SpellsPost s ts us
  | .expr e, ts, us => e.Fits us → ∃ x, SpellsWhole x ts us
  | .unary e, ts, us => e.Fits us → ∃ x, SpellsExpr (.unary x) ts us
  | .primary e, ts, us => e.Fits us → ∃ x, SpellsExpr (.primary x) ts us
  | .operand e, ts, us => e.Fits us → ∃ x, SpellsExpr (.primary x) ts us

open Rhs

variable {head e : Ending} {ts us : List Lexeme} {a : Rhs}

/-- A lexeme is of one class only. -/
theorem peek_cons_ne {l : Lexeme} {t u : Token} (hl : l.token = t) (h : t ≠ u) :
    peek (l :: us) ≠ u := fun hu => h (hl.symm.trans hu)

/-! ### Lists -/

section

variable {M : Nonterminal → List Lexeme → List Lexeme → Prop} {α : Type}
  {S : α → List Lexeme → List Lexeme → Prop} {separator : Token}

/-- A list whose elements have trees. -/
theorem Rhs.Means.listed (h : (list a separator).Means M ts us) (hsep : separator ≠ .lbrace)
    (hus : peek us ≠ .lbrace)
    (ha : ∀ {ts us}, peek us ≠ .lbrace → a.Means M ts us → ∃ x, S x ts us) :
    ∃ xs, Listed S separator xs ts us := by
  rcases h with rfl | ⟨ws, ⟨vs, hx, hmany⟩, hlast⟩
  · exact ⟨[], .nil⟩
  · -- by induction on the elements after the first, whose tree waits for what comes next
    induction hmany generalizing ts with
    | nil =>
      rcases hlast with rfl | ⟨l, hl, rfl⟩
      · obtain ⟨x, hx⟩ := ha hus hx
        exact ⟨[x], .last hx⟩
      · obtain ⟨x, hx⟩ := ha (peek_cons_ne hl hsep) hx
        exact ⟨[x], .cons hx hl .nil⟩
    | cons hstep _ ih =>
      obtain ⟨vs', ⟨l, hl, rfl⟩, hy⟩ := hstep
      obtain ⟨x, hx⟩ := ha (peek_cons_ne hl hsep) hx
      obtain ⟨xs, hxs⟩ := ih hlast hy
      exact ⟨x :: xs, .cons hx hl hxs⟩

/-- A specification or a group of them. -/
theorem Rhs.Means.group {keyword : Keyword} (h : (Rhs.group a).Means M ts us)
    (hus : peek us ≠ .lbrace)
    (ha : ∀ {ts us}, peek us ≠ .lbrace → a.Means M ts us →
      ∃ s, SpellsSpec s ts us ∧ s.keyword = keyword) (g : Nat) :
    ∃ ds g', SpellsGroup keyword ds g ts g' us := by
  rcases h with h | ⟨ws, ⟨vs, ⟨l, hl, rfl⟩, hlist⟩, ⟨r, hr, rfl⟩⟩
  · obtain ⟨s, hs, hk⟩ := ha hus h
    exact ⟨_, _, .single (.mk default hs hk)⟩
  · have hmember {ts us : List Lexeme} (hus : peek us ≠ .lbrace) (h : a.Means M ts us) :
        ∃ d, SpellsMember keyword (some ⟨g, default, keyword⟩) d ts us := by
      obtain ⟨s, hs, hk⟩ := ha hus h
      exact ⟨_, .mk default hs hk⟩
    obtain ⟨ds, hds⟩ := hlist.listed (by decide) (peek_cons_ne hr (by decide)) hmember
    exact ⟨ds, _, .group default hl hds hr⟩

end

/-! ### Types and expressions -/

/-- What is derived as a type has one. -/
theorem hasTree_type (h : (production head .type).Means HasTree ts us) : HasTree .type ts us := by
  rcases h with ⟨l, hl, rfl⟩ | ⟨ws, ⟨vs, ⟨l, hl, rfl⟩, ⟨r, hr, rfl⟩⟩, ⟨x, hx⟩⟩
  · exact ⟨_, .name default hl⟩
  · exact ⟨_, .slice default hl hr hx⟩

/-- What is derived as an expression has one. -/
theorem hasTree_expr (h : (production head (.expr e)).Means HasTree ts us) :
    HasTree (.expr e) ts us := by
  intro hus
  rcases h with hx | ⟨ws, ⟨vs, hx, ⟨l, ⟨op, hl, hop⟩, rfl⟩⟩, hy⟩
  · obtain ⟨x, hx⟩ := hx hus
    exact ⟨x, .operand hx⟩
  · have hne : peek (l :: ws) ≠ .lbrace := by
      rcases Lexeme.token_of_operator? hl with h | h <;> exact peek_cons_ne h (by decide)
    obtain ⟨x, hx⟩ := hx fun _ => hne
    obtain ⟨y, hy⟩ := hy hus
    exact hx.join hl hop hy

/-- What is derived as an operand of operators has one. -/
theorem hasTree_unary (h : (production head (.unary e)).Means HasTree ts us) :
    HasTree (.unary e) ts us := by
  intro hus
  rcases h with hx | ⟨vs, ⟨l, ⟨op, hl, hop⟩, rfl⟩, hx⟩
  · obtain ⟨x, hx⟩ := hx hus
    exact ⟨x, .primary hx⟩
  · obtain ⟨x, hx⟩ := hx hus
    exact ⟨_, .unary default hl hop hx⟩

/-- The expressions of a list. -/
theorem Rhs.Means.exprs (h : (list (ref (.expr .free)) .comma).Means HasTree ts us)
    (hus : peek us ≠ .lbrace) : ∃ xs, SpellsExpr (.list xs) ts us := by
  have hexpr {ts us : List Lexeme} (hus : peek us ≠ .lbrace) (hx : HasTree (.expr .free) ts us) :
      ∃ x, SpellsWhole x ts us := hx fun _ => hus
  obtain ⟨xs, hxs⟩ := h.listed (by decide) hus hexpr
  clear h hus
  refine ⟨xs, ?_⟩
  induction hxs with
  | nil => exact .nil
  | last hx => exact .last hx
  | cons hx hl _ ih => exact .cons hx hl ih

/-- What is derived as an operand with what follows it has one. -/
theorem hasTree_primary (h : (production head (.primary e)).Means HasTree ts us) :
    HasTree (.primary e) ts us := by
  intro hus
  rcases h with hx | ⟨vs, hx, hsuffix⟩
  · exact hx hus
  · rcases hsuffix with ⟨ws, ⟨d, hd, rfl⟩, ⟨f, hf, rfl⟩⟩ |
      ⟨xs, ⟨ws, ⟨l, hl, rfl⟩, hi⟩, ⟨r, hr, rfl⟩⟩ | ⟨xs, ⟨ws, ⟨l, hl, rfl⟩, hargs⟩, ⟨r, hr, rfl⟩⟩
    · obtain ⟨x, hx⟩ := hx fun _ => peek_cons_ne hd (by decide)
      exact ⟨_, .selector default default hx hd hf⟩
    · obtain ⟨x, hx⟩ := hx fun _ => peek_cons_ne hl (by decide)
      obtain ⟨i, hi⟩ := hi fun _ => peek_cons_ne hr (by decide)
      exact ⟨_, .index default hx hl hi hr⟩
    · obtain ⟨x, hx⟩ := hx fun _ => peek_cons_ne hl (by decide)
      obtain ⟨args, hargs⟩ := hargs.exprs (peek_cons_ne hr (by decide))
      exact ⟨_, .call default hx hl hargs hr⟩

/-- What is derived as an operand has one. -/
theorem hasTree_operand (h : (production head (.operand e)).Means HasTree ts us) :
    HasTree (.operand e) ts us := by
  intro hus
  -- A slice type with elements behind it is an operand wherever it stands.
  have helems {vs : List Lexeme} {elem : Expr} (hx : SpellsType (.sliceType default elem) ts vs)
      (h : (tok .lbrace ++ list (ref (.expr .free)) .comma ++ tok .rbrace).Means HasTree vs us) :
      ∃ x, SpellsExpr (.primary x) ts us := by
    obtain ⟨ws, ⟨_, ⟨l, hl, rfl⟩, hxs⟩, ⟨r, hr, rfl⟩⟩ := h
    obtain ⟨xs, hxs⟩ := hxs.exprs (peek_cons_ne hr (by decide))
    exact ⟨_, .sliceLit hx hl hxs hr⟩
  rcases h with ⟨l, hl, rfl⟩ | ⟨l, hl, rfl⟩ |
    ⟨vs, ⟨_, ⟨_, ⟨l, hl, rfl⟩, ⟨r, hr, rfl⟩⟩, ⟨elem, helem⟩⟩, hrest⟩ |
    ⟨vs, ⟨_, ⟨l, hl, rfl⟩, hx⟩, ⟨r, hr, rfl⟩⟩
  · exact ⟨_, .name default hl⟩
  · exact ⟨_, .literal default hl⟩
  · have hslice := SpellsType.slice default hl hr helem
    -- Where the ending is free the elements may be missing.
    cases e with
    | free =>
      rcases hrest with rfl | hrest
      · exact ⟨_, .sliceType hslice (hus rfl)⟩
      · exact helems hslice hrest
    | closed => exact helems hslice hrest
  · obtain ⟨x, hx⟩ := hx fun _ => peek_cons_ne hr (by decide)
    exact ⟨_, .paren default hl hx hr⟩

/-! ### Declarations that may be grouped -/

/-- What is derived as an import has one. -/
theorem hasTree_importSpec (h : (production head .importSpec).Means HasTree ts us) :
    HasTree .importSpec ts us := by
  obtain ⟨l, ⟨hl, hkind⟩, rfl⟩ := h
  exact ⟨_, .path default hl hkind, rfl⟩

/-- What is derived as a declared type has one. -/
theorem hasTree_typeSpec (h : (production head .typeSpec).Means HasTree ts us) :
    HasTree .typeSpec ts us := by
  obtain ⟨vs, ⟨_, ⟨l, hl, rfl⟩, hassign⟩, ⟨x, hx⟩⟩ := h
  rcases hassign with rfl | ⟨m, hm, rfl⟩
  · exact ⟨_, .type default hl hx, rfl⟩
  · exact ⟨_, .synonym default hl hm hx, rfl⟩

/-- What is derived as declared variables has one. -/
theorem hasTree_varSpec (h : (production head .varSpec).Means HasTree ts us) :
    HasTree .varSpec ts us := by
  intro hus
  obtain ⟨_, ⟨l, hl, rfl⟩, ⟨_, ⟨m, hm, rfl⟩, hx⟩ | ⟨vs, ⟨t, ht⟩, hvalue⟩⟩ := h
  · obtain ⟨x, hx⟩ := hx fun _ => hus
    exact ⟨_, .value default hl hm hx, rfl⟩
  · rcases hvalue with rfl | ⟨_, ⟨m, hm, rfl⟩, hx⟩
    · exact ⟨_, .typed default hl ht, rfl⟩
    · obtain ⟨x, hx⟩ := hx fun _ => hus
      exact ⟨_, .typedValue default hl ht hm hx, rfl⟩

/-! ### Statements -/

/-- What is derived as a statement behind each round has one. -/
theorem hasTree_post (h : (production head (.post e)).Means HasTree ts us) :
    HasTree (.post e) ts us := by
  intro hus
  rcases h with hx | ⟨_, hx, ⟨l, hl, rfl⟩⟩ | ⟨_, ⟨_, hx, ⟨l, hl, rfl⟩ | ⟨l, hl, rfl⟩⟩, hy⟩
  · obtain ⟨x, hx⟩ := hx hus
    exact ⟨_, .expr hx, rfl⟩
  · obtain ⟨x, hx⟩ := hx fun _ => peek_cons_ne hl (by decide)
    exact ⟨_, .incDec default hx hl, rfl⟩
  · obtain ⟨x, hx⟩ := hx fun _ => peek_cons_ne hl (by decide)
    obtain ⟨y, hy⟩ := hy hus
    exact ⟨_, .assign default hx hl hy, rfl⟩
  · obtain ⟨x, hx⟩ := hx fun _ => peek_cons_ne hl (by decide)
    obtain ⟨y, hy⟩ := hy hus
    exact ⟨_, .assignOp default hx hl hy, rfl⟩

/-- What is derived as a simple statement has one. -/
theorem hasTree_simple (h : (production head .simple).Means HasTree ts us) :
    HasTree .simple ts us := by
  intro hus
  rcases h with hs | ⟨_, ⟨_, hx, ⟨l, hl, rfl⟩⟩, hy⟩
  · obtain ⟨s, hs, -⟩ := hs fun _ => hus
    exact ⟨s, hs⟩
  · obtain ⟨x, hx⟩ := hx fun _ => peek_cons_ne hl (by decide)
    obtain ⟨y, hy⟩ := hy fun _ => hus
    exact ⟨_, .define default hx hl hy⟩

/-- What may be absent means something that may be absent. -/
theorem Rhs.Means.optionally {α : Type} {S : α → List Lexeme → List Lexeme → Prop}
    {M : Nonterminal → List Lexeme → List Lexeme → Prop} (h : (opt a).Means M ts us)
    (ha : a.Means M ts us → ∃ x, S x ts us) : ∃ x?, Optionally S x? ts us := by
  rcases h with rfl | h
  · exact ⟨none, .none⟩
  · obtain ⟨x, hx⟩ := ha h
    exact ⟨some x, .some hx⟩

/-- The statements of a block. -/
theorem Rhs.Means.stmts (h : (terminated (ref .stmt)).Means HasTree ts us) (hus : peek us ≠ .lbrace)
    (g : Nat) : ∃ ss g', SpellsStmt (.stmts ss) g ts g' us := by
  obtain ⟨vs, hmany, hlast⟩ := h
  induction hmany generalizing g with
  | nil =>
    rcases hlast with rfl | hs
    · exact ⟨[], g, .nil⟩
    · obtain ⟨s, g', hs⟩ := hs hus g
      exact ⟨[s], g', .last hs⟩
  | cons hstep _ ih =>
    obtain ⟨_, hs?, ⟨l, hl, rfl⟩⟩ := hstep
    rcases hs? with rfl | hs
    · obtain ⟨ss, g', hss⟩ := ih g hlast
      exact ⟨.empty default :: ss, g', .empty default hl hss⟩
    · obtain ⟨s, g', hs⟩ := hs (peek_cons_ne hl (by decide)) g
      obtain ⟨ss, g'', hss⟩ := ih g' hlast
      exact ⟨s :: ss, g'', .cons hs hl hss⟩

/-- What is derived as a block has one. -/
theorem hasTree_block (h : (production head .block).Means HasTree ts us) : HasTree .block ts us := by
  intro g
  obtain ⟨_, ⟨_, ⟨l, hl, rfl⟩, hss⟩, ⟨r, hr, rfl⟩⟩ := h
  obtain ⟨ss, g', hss⟩ := hss.stmts (peek_cons_ne hr (by decide)) g
  exact ⟨_, g', .block default default hl hss hr⟩

/-- What is derived as an `if` has one. -/
theorem hasTree_ifStmt (h : (production .closed .ifStmt).Means HasTree ts us) :
    HasTree .ifStmt ts us := by
  intro g
  obtain ⟨xs, ⟨ws, ⟨vs, ⟨l, hl, rfl⟩, hclause⟩, hb⟩, helse⟩ := h
  -- The two forms in which an `if` may have its condition.
  have hclause : ∃ init? x, SpellsClause .ifClause ⟨init?, some x, none⟩ vs ws := by
    rcases hclause with hx | ⟨_, ⟨_, hinit, ⟨m, hm, rfl⟩⟩, hx⟩
    · obtain ⟨x, hx⟩ := hx (Ending.fits_closed _)
      exact ⟨none, x, .cond hx⟩
    · obtain ⟨init?, hinit⟩ := hinit.optionally fun h => h (peek_cons_ne hm (by decide))
      obtain ⟨x, hx⟩ := hx (Ending.fits_closed _)
      exact ⟨init?, x, .ifParts hinit hm hx⟩
  obtain ⟨init?, x, hclause⟩ := hclause
  obtain ⟨b, g', hb⟩ := hb g
  have helse : ∃ s? g'', SpellsStmt (.elseBranch s?) g' xs g'' us := by
    rcases helse with rfl | ⟨_, ⟨m, hm, rfl⟩, hs | hs⟩
    · exact ⟨none, g', .noElse⟩
    · obtain ⟨s, g'', hs⟩ := hs g'
      exact ⟨some s, g'', .elseIf hm hs⟩
    · obtain ⟨b, g'', hs⟩ := hs g'
      exact ⟨some (.block b), g'', .elseBlock hm hs⟩
  obtain ⟨else?, g'', helse⟩ := helse
  exact ⟨_, g'', .ifStmt default hl hclause hb helse⟩

/-- The clause of a `for`. -/
theorem Rhs.Means.forClause (h : (opt (ref (.expr .closed)) <|>
      opt (ref .simple) ++ tok .semi ++ opt (ref (.expr .free)) ++ tok .semi ++
        opt (ref (.post .closed)) : Rhs).Means HasTree ts us) :
    ∃ clause, SpellsClause .forClause clause ts us := by
  rcases h with h | ⟨_, ⟨_, ⟨_, ⟨_, hinit, ⟨l, hl, rfl⟩⟩, hcond⟩, ⟨m, hm, rfl⟩⟩, hpost⟩
  · rcases h with rfl | hx
    · exact ⟨_, .always⟩
    · obtain ⟨x, hx⟩ := hx (Ending.fits_closed _)
      exact ⟨_, .cond hx⟩
  · obtain ⟨init?, hinit⟩ := hinit.optionally fun h => h (peek_cons_ne hl (by decide))
    obtain ⟨cond?, hcond⟩ := hcond.optionally fun h => h fun _ => peek_cons_ne hm (by decide)
    obtain ⟨post?, hpost⟩ := hpost.optionally fun h => h (Ending.fits_closed _)
    exact ⟨_, .forParts hinit hl hcond hm hpost⟩

/-- What is derived as a statement has one. -/
theorem hasTree_stmt (h : (production .closed .stmt).Means HasTree ts us) : HasTree .stmt ts us := by
  intro hus g
  -- One alternative of the production for each statement, in its order.
  rcases h with h | ⟨_, ⟨l, hl, rfl⟩, hds⟩ | ⟨_, ⟨l, hl, rfl⟩, hds⟩ | h | h |
    ⟨_, ⟨_, ⟨l, hl, rfl⟩, hx⟩, hb⟩ | ⟨_, ⟨_, ⟨l, hl, rfl⟩, hclause⟩, hb⟩ | ⟨_, ⟨l, hl, rfl⟩, hx⟩ |
    ⟨l, hl, rfl⟩
  · obtain ⟨s, hs⟩ := h hus
    exact ⟨s, g, .simple hs⟩
  · obtain ⟨ds, g', hds⟩ := hds.group hus (fun hus h => h hus) g
    exact ⟨_, g', .decls default hl (.inl rfl) hds⟩
  · obtain ⟨ds, g', hds⟩ := hds.group hus (fun _ h => h) g
    exact ⟨_, g', .decls default hl (.inr rfl) hds⟩
  · obtain ⟨b, g', hb⟩ := h g
    exact ⟨.block b, g', .nested hb⟩
  · obtain ⟨s, g', hs⟩ := h g
    exact ⟨s, g', .branch hs⟩
  · obtain ⟨x, hx⟩ := hx (Ending.fits_closed _)
    obtain ⟨b, g', hb⟩ := hb g
    exact ⟨_, g', .whileStmt default hl hx hb⟩
  · obtain ⟨clause, hclause⟩ := hclause.forClause
    obtain ⟨b, g', hb⟩ := hb g
    exact ⟨_, g', .forStmt default hl hclause hb⟩
  · obtain ⟨x?, hx⟩ := hx.optionally fun h => h fun _ => hus
    exact ⟨_, g, .returnStmt default hl hx⟩
  · exact ⟨_, g, .breakStmt default hl⟩

/-! ### Files -/

/-- What is derived as a parameter has one. -/
theorem hasTree_param (h : (production head .param).Means HasTree ts us) : HasTree .param ts us := by
  obtain ⟨_, ⟨l, hl, rfl⟩, ⟨t, ht⟩⟩ := h
  exact ⟨_, .mk default default hl ht⟩

/-- What is derived as parameters has some. -/
theorem hasTree_params (h : (production head .params).Means HasTree ts us) :
    HasTree .params ts us := by
  obtain ⟨_, ⟨_, ⟨l, hl, rfl⟩, hps⟩, ⟨r, hr, rfl⟩⟩ := h
  obtain ⟨ps, hps⟩ := hps.listed (by decide) (peek_cons_ne hr (by decide)) fun _ h => h
  exact ⟨ps, l, r, _, rfl, hl, hps, hr⟩

/-- What is derived as a declaration of imports has some. -/
theorem hasTree_importDecl (h : (production head .importDecl).Means HasTree ts us) :
    HasTree .importDecl ts us := by
  intro hus g
  obtain ⟨_, ⟨l, hl, rfl⟩, hds⟩ := h
  obtain ⟨ds, g', hds⟩ := hds.group hus (fun _ h => h) g
  exact ⟨ds, g', .group hl (.inl rfl) hds⟩

/-- What is derived as a declaration has some. -/
theorem hasTree_decl (h : (production head .decl).Means HasTree ts us) : HasTree .decl ts us := by
  intro hus g
  -- Types, variables, functions and operators, in the order of the production.
  rcases h with ⟨_, ⟨l, hl, rfl⟩, hds⟩ | ⟨_, ⟨l, hl, rfl⟩, hds⟩ |
    ⟨ws, ⟨_, ⟨_, ⟨_, ⟨k, hk, rfl⟩, ⟨n, hn, rfl⟩⟩, hps⟩, hresult⟩, hbody⟩ |
    ⟨_, ⟨_, ⟨_, ⟨_, ⟨_, ⟨_, ⟨_, ⟨_, ⟨_, ⟨k, hk, rfl⟩, ⟨l, hl, rfl⟩⟩, ⟨lhs, hlhs⟩⟩, ⟨r, hr, rfl⟩⟩,
      ⟨n, ⟨hn, overload, ho⟩, rfl⟩⟩, ⟨l', hl', rfl⟩⟩, ⟨rhs, hrhs⟩⟩, ⟨r', hr', rfl⟩⟩, ⟨x, hx⟩⟩, hb⟩
  · obtain ⟨ds, g', hds⟩ := hds.group hus (fun _ h => h) g
    exact ⟨.typeWord, ds, g', by decide, .group hl (.inr (.inl rfl)) hds⟩
  · obtain ⟨ds, g', hds⟩ := hds.group hus (fun hus h => h hus) g
    exact ⟨.varWord, ds, g', by decide, .group hl (.inr (.inr rfl)) hds⟩
  · obtain ⟨ps, l, r, _, rfl, hl, hps, hr⟩ := hps
    obtain ⟨result?, hresult⟩ := hresult.optionally fun h => h
    have hbody : ∃ body? g', SpellsBody body? g ws g' us := by
      rcases hbody with rfl | hb
      · exact ⟨none, g, .none⟩
      · obtain ⟨b, g', hb⟩ := hb g
        exact ⟨some b, g', .some hb⟩
    obtain ⟨body?, g', hbody⟩ := hbody
    exact ⟨.funcWord, _, g', by decide, .func default default hk hn hl hps hr hresult hbody⟩
  · obtain ⟨b, g', hb⟩ := hb g
    exact ⟨.operWord, _, g', by decide,
      .oper default hk hl hlhs hr hn ho hl' hrhs hr' hx hb⟩

/-- Declarations that are no imports. -/
theorem Rhs.Means.decls (h : (terminated (ref .decl)).Means HasTree ts []) (afterImport : Bool)
    (g : Nat) : ∃ ds g', SpellsDecls afterImport ds g ts g' := by
  obtain ⟨vs, hmany, hlast⟩ := h
  induction hmany generalizing afterImport g with
  | nil =>
    rcases hlast with rfl | hds
    · exact ⟨[], g, .nil⟩
    · obtain ⟨k, ds, g', hk, hds⟩ := hds (by simp) g
      exact ⟨ds, g', .last hds fun h => absurd h hk⟩
  | cons hstep _ ih =>
    obtain ⟨_, hds?, ⟨l, hl, rfl⟩⟩ := hstep
    rcases hds? with rfl | hds
    · obtain ⟨rest, g', hrest⟩ := ih afterImport g hlast
      exact ⟨rest, g', .empty hl hrest⟩
    · obtain ⟨k, ds, g', hk, hds⟩ := hds (peek_cons_ne hl (by decide)) g
      obtain ⟨rest, g'', hrest⟩ := ih _ g' hlast
      exact ⟨ds ++ rest, g'', .cons hds hl (fun h => absurd h hk) hrest⟩

/-- What is derived as a file has one. -/
theorem hasTree_file (h : (production head .file).Means HasTree ts us) : HasTree .file ts us := by
  rintro rfl
  obtain ⟨vs, ⟨ts, ⟨_, ⟨_, ⟨k, hk, rfl⟩, ⟨n, hn, rfl⟩⟩, ⟨l, hl, rfl⟩⟩, himports⟩, hrest⟩ := h
  have hdecls (g : Nat) : ∃ ds g', SpellsDecls true ds g ts g' := by
    -- The imports one by one; the last item may be an import without a semicolon behind it.
    induction himports generalizing g with
    | nil =>
      rcases hrest with hds | hrest
      · obtain ⟨ds, g', hds⟩ := hds (by simp) g
        exact ⟨ds, g', .last hds fun _ => rfl⟩
      · exact hrest.decls true g
    | cons hstep _ ih =>
      obtain ⟨_, hds?, ⟨m, hm, rfl⟩⟩ := hstep
      rcases hds? with rfl | hds
      · obtain ⟨rest, g', hrest⟩ := ih hrest g
        exact ⟨rest, g', .empty hm hrest⟩
      · obtain ⟨ds, g', hds⟩ := hds (peek_cons_ne hm (by decide)) g
        obtain ⟨rest, g'', hrest⟩ := ih hrest g'
        exact ⟨ds ++ rest, g'', .cons hds hm (fun _ => rfl) hrest⟩
  obtain ⟨ds, g, hds⟩ := hdecls 0
  exact ⟨_, .mk default default hk hn hl hds⟩

/-! ### Every nonterminal -/

/-- Whatever a right side derives has a tree, if all that it consists of has. -/
theorem hasTree : ∀ n ts us, (production .closed n).Means HasTree ts us → HasTree n ts us
  | .file, _, _, h => hasTree_file h
  | .importDecl, _, _, h => hasTree_importDecl h
  | .decl, _, _, h => hasTree_decl h
  | .param, _, _, h => hasTree_param h
  | .params, _, _, h => hasTree_params h
  | .type, _, _, h => hasTree_type h
  | .importSpec, _, _, h => hasTree_importSpec h
  | .typeSpec, _, _, h => hasTree_typeSpec h
  | .varSpec, _, _, h => hasTree_varSpec h
  | .block, _, _, h => hasTree_block h
  | .stmt, _, _, h => hasTree_stmt h
  | .ifStmt, _, _, h => hasTree_ifStmt h
  | .simple, _, _, h => hasTree_simple h
  | .post _, _, _, h => hasTree_post h
  | .expr _, _, _, h => hasTree_expr h
  | .unary _, _, _, h => hasTree_unary h
  | .primary _, _, _, h => hasTree_primary h
  | .operand _, _, _, h => hasTree_operand h

/-- What is derived as a file is spelled by some tree. -/
theorem exists_spellsFile_of_derives (h : Derives .closed (ref .file) ts []) :
    ∃ f, SpellsFile f ts := h.means hasTree rfl

end FrontEnd
