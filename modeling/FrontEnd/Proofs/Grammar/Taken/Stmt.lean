import FrontEnd.Proofs.Grammar.Taken.Expr

/-!
# What is spelled is taken: statements

Lexemes that spell declarations or a statement are taken by the rule for them.
-/

namespace FrontEnd

/-! ## What comes next -/

/-- Whether a declaration may end before the token. -/
def Token.endsSpec : Token → Bool
  | .semi | .rparen | .rbrace | .eof => true
  | _ => false

/-- Whether a simple statement may end before the token. -/
def Token.endsSimple : Token → Bool
  | .semi | .rbrace | .lbrace => true
  | _ => false

/-- Where a declaration may end, expressions do. -/
theorem stops_of_endsSpec {ts : List Lexeme} (h : (peek ts).endsSpec = true) : Stops ts := by
  apply stops_of_token
  cases ht : peek ts <;> first | rfl | (rw [ht] at h; cases h)

/-- Where a simple statement may end, expressions do. -/
theorem stops_of_endsSimple {ts : List Lexeme} (h : (peek ts).endsSimple = true) : Stops ts := by
  apply stops_of_token
  cases ht : peek ts <;> first | rfl | (rw [ht] at h; cases h)

namespace ParseM

variable {g g' : Nat} {ts us vs : List Lexeme} {l : Lexeme} {budget : Nat}

/-! ## Declarations that may be grouped -/

section

variable {β γ : Type} {Q : γ → Prop} {k : γ → ParseM β} {f : Bool → ParseM β}

/-- An assignment is taken. -/
theorem on_gotAssign (hl : l.token = .assign) (h : Reaches g ts (f true) Q k g' us) :
    Reaches g (l :: ts) (gotAssign >>= f) Q k g' us := by
  have ha : Takes g (l :: ts) gotAssign (fun b => b = true) g ts := by
    refine .onToken ?_
    rw [peek_cons, hl]
    exact .onNext (.pure rfl)
  refine .bind ha ?_
  rintro b rfl
  exact h

/-- What is no assignment is left. -/
theorem on_missedAssign (hassign : peek ts ≠ .assign) (hdefine : peek ts ≠ .define)
    (h : Reaches g ts (f false) Q k g' us) : Reaches g ts (gotAssign >>= f) Q k g' us := by
  have ha : Takes g ts gotAssign (fun b => b = false) g ts := by
    refine .onToken ?_
    split
    · next hd => exact absurd hd hdefine
    · next ha => exact absurd ha hassign
    · exact .pure rfl
  refine .bind ha ?_
  rintro b rfl
  exact h

end

/-- The specification is there, and it is the given one up to positions. -/
def SameSpec (spec : Spec) (spec? : Option Spec) : Prop := spec?.map Spec.unplaced = some spec.unplaced

/-- A type starts with a name or a bracket and with nothing else. -/
theorem peek_ne_of_spellsType {x : Expr} {t : Token} (h : SpellsType x ts us) (hname : t ≠ .name)
    (hlbrack : t ≠ .lbrack) : peek ts ≠ t := by
  rintro rfl
  rcases h.first with h | h
  · exact hname h
  · exact hlbrack h

/-- What is imported is taken. -/
theorem takes_importSpec {spec : Spec} (h : SpellsSpec spec ts us) (hk : spec.keyword = .importWord) :
    Takes g ts importSpec (SameSpec spec) g us := by
  cases h with
  | path pos hl hkind =>
    refine .traced _ (.onToken ?_)
    rw [peek_cons, hl, if_pos rfl]
    refine on_literal fun pos' => ?_
    rw [if_pos (by simp [hkind])]
    exact .pure rfl
  | _ => cases hk

/-- A declared type is taken. -/
theorem takes_typeSpec {spec : Spec} (h : SpellsSpec spec ts us) (hk : spec.keyword = .typeWord)
    (hb : 16 * ts.length + 2 ≤ budget) : Takes g ts (typeSpec budget) (SameSpec spec) g us := by
  -- What remains once the type is read; the remark for the trace plays no part.
  have hrest (name : Ident) (isAlias : Bool) (x : Expr) {Q : Option Spec → Prop}
      (hQ : Q (some (.typeSpec name isAlias x))) : Takes g us (do
        remark ("id: " ++ name.text)
        return some (Spec.typeSpec name isAlias x)) Q g us := .onRemark (.pure hQ)
  cases h with
  | type pos hl ht =>
    rw [List.length_cons] at hb
    refine .traced _ (on_ident hl fun pos' => on_missedAssign
      (peek_ne_of_spellsType ht (by simp) (by simp)) (peek_ne_of_spellsType ht (by simp) (by simp))
      (.bind (takes_type? ht (by omega)) ?_))
    rintro y? ⟨y, rfl, hy⟩
    exact hrest _ _ _ (by simp only [SameSpec, Option.map_some, Spec.unplaced, Ident.unplaced, hy])
  | synonym pos hl he ht =>
    simp only [List.length_cons] at hb
    refine .traced _ (on_ident hl fun pos' => on_gotAssign he (.bind (takes_type? ht (by omega)) ?_))
    rintro y? ⟨y, rfl, hy⟩
    exact hrest _ _ _ (by simp only [SameSpec, Option.map_some, Spec.unplaced, Ident.unplaced, hy])
  | _ => cases hk

/-- Declared variables are taken, whether they have a type, a value or both. -/
theorem takes_varSpec {spec : Spec} (h : SpellsSpec spec ts us) (hk : spec.keyword = .varWord)
    (hend : (peek us).endsSpec = true) (hb : 16 * ts.length + 2 ≤ budget) :
    Takes g ts (varSpec budget) (SameSpec spec) g us := by
  -- A value, a type, or both; the parser asks for `=` first and, with no luck, for a type and then for `=`
  -- again.
  cases h with
  | value pos hl he hx =>
    simp only [List.length_cons] at hb
    refine .traced _ (on_ident hl fun pos' => .onRemark (on_gotAssign he
      (.bind (takes_expr hx (stops_of_endsSpec hend) (by omega)) fun y hy => .pure ?_)))
    simp only [SameSpec, Option.map_some, Option.map_none, Spec.unplaced, Ident.unplaced, hy]
  | typed pos hl ht =>
    rw [List.length_cons] at hb
    refine .traced _ (on_ident hl fun pos' => .onRemark (on_missedAssign
      (peek_ne_of_spellsType ht (by simp) (by simp)) (peek_ne_of_spellsType ht (by simp) (by simp))
      (.bind (takes_type? ht (by omega)) ?_)))
    rintro y? ⟨y, rfl, hy⟩
    refine on_missedAssign ?_ ?_ (.pure ?_)
    · exact fun h => by rw [h] at hend; cases hend
    · exact fun h => by rw [h] at hend; cases hend
    · simp only [SameSpec, Option.map_some, Option.map_none, Spec.unplaced, Ident.unplaced, hy]
  | typedValue pos hl ht he hx =>
    have hlen := ht.length_lt
    simp only [List.length_cons] at hb hlen
    refine .traced _ (on_ident hl fun pos' => .onRemark (on_missedAssign
      (peek_ne_of_spellsType ht (by simp) (by simp)) (peek_ne_of_spellsType ht (by simp) (by simp))
      (.bind (takes_type? ht (by omega)) ?_)))
    rintro y? ⟨y, rfl, hy⟩
    refine on_gotAssign he (.bind (takes_expr hx (stops_of_endsSpec hend) (by omega)) fun z hz => .pure ?_)
    simp only [SameSpec, Option.map_some, Spec.unplaced, Ident.unplaced, hy, hz]
  | _ => cases hk

/-- A list is taken element by element. -/
theorem takes_listed (kind : ListKind) {α β γ : Type} {S : α → List Lexeme → List Lexeme → Prop}
    {element : ParseM β} {r : β → γ} {s : α → γ} {xs : List α} {n : Nat}
    (h : Listed S kind.separator xs ts (l :: us)) (hl : l.token = kind.closer)
    (hS : ∀ {x ts us}, S x ts us → us.length < ts.length ∧ peek ts ≠ .eof ∧ peek ts ≠ kind.closer)
    (he : ∀ {x ts us}, S x ts us → ts.length ≤ n →
      peek us = kind.separator ∨ peek us = kind.closer → Takes g ts element (fun y => r y = s x) g us)
    (hn : ts.length ≤ n) (hb : 16 * ts.length + 1 ≤ budget) :
    Takes g ts (list kind element budget) (fun ys => ys.map r = xs.map s) g us := by
  generalize hvs : l :: us = vs at h
  -- Element by element; each takes at least one lexeme, which pays for the next round.
  induction h generalizing budget with
  | nil =>
    subst hvs
    obtain ⟨budget, rfl⟩ := Nat.exists_eq_add_of_le' (show 1 ≤ budget by omega)
    exact (takes_list_nil hl).weaken fun ys hys => by rw [hys]; rfl
  | last hx =>
    subst hvs
    obtain ⟨hlen, heof, hcloser⟩ := hS hx
    obtain ⟨budget, rfl⟩ := Nat.exists_eq_add_of_le' (show 2 ≤ budget by omega)
    refine (takes_list_last heof hcloser (he hx hn (.inr hl)) hl).weaken ?_
    rintro ys ⟨y, rfl, hy⟩
    rw [List.map_singleton, List.map_singleton, hy]
  | cons hx hm hxs ih =>
    obtain ⟨hlen, heof, hcloser⟩ := hS hx
    rw [List.length_cons] at hlen
    obtain ⟨budget, rfl⟩ := Nat.exists_eq_add_of_le' (show 1 ≤ budget by omega)
    refine (takes_list_cons heof hcloser (he hx hn (.inl hm)) hm
      (ih (by omega) (by omega) hvs)).weaken ?_
    rintro ys ⟨y, zs, rfl, hy, hzs⟩
    rw [List.map_cons, List.map_cons, hy, hzs]

end ParseM

/-- What is left of a list of things that are all there. -/
theorem map_filterMap_id {α β : Type} {f : α → β} {xs : List (Option α)} {ys : List α}
    (h : xs.map (Option.map f) = ys.map fun y => some (f y)) : (xs.filterMap id).map f = ys.map f := by
  have hl : (xs.filterMap id).map f = (xs.map (Option.map f)).filterMap id := by
    rw [List.map_filterMap, List.filterMap_map]
    rfl
  rw [hl, h, List.filterMap_map]
  exact congrFun List.filterMap_eq_map ys

namespace ParseM

variable {g g' : Nat} {ts us vs : List Lexeme} {l : Lexeme} {budget : Nat}

/-- A declaration or a group of them is taken, if every single one is. -/
theorem takes_grouped {keyword : Keyword} {ds : List Decl} {spec : ParseM (Option Spec)} {n : Nat}
    (h : SpellsGroup keyword ds g ts g' us) (hend : (peek us).endsSpec = true) (pos : Pos)
    (hspec : ∀ {g s ts us}, SpellsSpec s ts us → s.keyword = keyword → (peek us).endsSpec = true →
      ts.length ≤ n → Takes g ts spec (SameSpec s) g us)
    (hn : ts.length ≤ n) (hb : 16 * ts.length + 1 ≤ budget) :
    Takes g ts (grouped keyword pos spec budget)
      (fun ds' => Decl.unplacedEach ds' = Decl.unplacedEach ds) g' us := by
  cases h with
  | single hd =>
    cases hd with
    | mk pos' hs hk =>
      have hne : peek ts ≠ .lparen := by rcases hs.first with h | h <;> simp [h]
      refine .onToken ?_
      rw [if_neg hne]
      refine .bind (hspec hs hk hend hn) fun s? hs? => .pure ?_
      obtain ⟨s, rfl, hs⟩ := Option.map_eq_some_iff.mp hs?
      simp only [Option.map_some, Option.toList, Decl.unplacedEach, Decl.unplaced, hs]
  | group pos' hl hds hr =>
    rw [List.length_cons] at hn hb
    refine .onToken ?_
    rw [peek_cons, hl, if_pos rfl]
    -- Read as a list of declarations, some of which could be missing; none is.
    refine .onNewGroup (.onHere fun pos'' => .onNext (.bind (R := fun ds? =>
      ds?.map (Option.map Decl.unplaced) = ds.map fun d => some d.unplaced) ?_ fun ds? hds? => .pure ?_))
    · refine takes_listed .declarations hds hr ?_ ?_ (n := n) (by omega) (by omega)
      · rintro d ts us hd
        refine ⟨hd.length_lt, ?_⟩
        obtain ⟨-, hs, -⟩ := hd
        rcases hs.first with h | h <;> simp [h, ListKind.closer]
      · rintro d ts us (⟨pos₁, hs, hk⟩) hlen hpeek
        refine .onHere fun pos₂ => .bind (hspec hs hk ?_ hlen) fun s? hs? => .pure ?_
        · rcases hpeek with h | h <;> rw [h] <;> rfl
        · obtain ⟨s, rfl, hs⟩ := Option.map_eq_some_iff.mp hs?
          simp only [Option.map_some, Decl.unplaced, hs, Group.unplaced]
    · rw [Decl.unplacedEach_eq_map, Decl.unplacedEach_eq_map]
      exact map_filterMap_id hds?

/-! ## Simple statements and clauses -/

/-- A simple statement ends where no assignment follows. -/
theorem takes_simpleStmt {s : Stmt} (h : SpellsSimple s ts us) (hend : (peek us).endsSimple = true)
    (hb : 16 * ts.length + 6 ≤ budget) :
    Takes g ts (simpleStmt budget) (fun s' => s'.unplaced = s.unplaced) g us := by
  have hstop := stops_of_endsSimple hend
  have hlen := h.length_lt
  cases h with
  | expr hx =>
    refine .traced _ (.bind (takes_expr hx hstop hb) fun y hy => ?_)
    cases us with
    | nil => cases hend
    | cons l us =>
      refine .onHere fun pos => .onCurrent (.onToken ?_)
      split
      -- The four tokens that make a statement of it do not end one.
      iterate 4
        rename_i h
        rw [h] at hend
        cases hend
      exact .pure (by simp only [Stmt.unplaced, hy])
  -- What stands behind the operator of an assignment is taken like what stands before it.
  | @assign pos l _ _ _ us _ hx hl hy
  | @assignOp pos l _ _ _ us _ hx hl hy
  | @define pos l _ _ _ us _ hx hl hy =>
    have hstop' : Stops (l :: us) := stops_of_token (by rw [peek_cons, hl]; rfl)
    have hlen' := hx.length_lt
    rw [List.length_cons] at hlen'
    refine .traced _ (.bind (takes_expr hx hstop' hb) fun x' hx' => .onHere fun pos' =>
      .onCurrent (.onToken ?_))
    rw [peek_cons, hl]
    refine .onNext (.bind (takes_expr hy hstop (by omega)) fun y' hy' => .pure ?_)
    simp only [Stmt.unplaced, hx', hy']
  | @incDec pos l _ _ us hx hl =>
    have hstop' : Stops (l :: us) := stops_of_token (by rw [peek_cons, hl]; rfl)
    refine .traced _ (.bind (takes_expr hx hstop' hb) fun x' hx' => .onHere fun pos' =>
      .onCurrent (.onToken ?_))
    rw [peek_cons, hl]
    refine .onNext (.pure ?_)
    simp only [Stmt.unplaced, hx']

/-- What is the same as an expression up to positions is an expression. -/
theorem eq_expr_of_unplaced {s : Stmt} {x : Expr} (h : s.unplaced = (Stmt.expr x).unplaced) :
    ∃ y, s = .expr y ∧ y.unplaced = x.unplaced := by
  cases s with
  | expr y =>
    simp only [Stmt.unplaced, Stmt.expr.injEq] at h
    exact ⟨y, rfl, h⟩
  | _ => simp only [Stmt.unplaced] at h; cases h

/-- Where the one statement is there up to positions, so is the other. -/
theorem eq_some_of_unplaced? {s? : Option Stmt} {s : Stmt}
    (h : Stmt.unplaced? s? = Stmt.unplaced? (some s)) : ∃ t, s? = some t ∧ t.unplaced = s.unplaced := by
  cases s? with
  | none => cases h
  | some t => exact ⟨t, rfl, Option.some.inj h⟩

/-- Whether a statement is a definition does not depend on positions. -/
theorem isDefine_of_unplaced {s s' : Stmt} (h : s'.unplaced = s.unplaced) :
    s'.isDefine = s.isDefine := by
  have hd (s : Stmt) : s.unplaced.isDefine = s.isDefine := by
    cases s <;> simp only [Stmt.unplaced, Stmt.isDefine]
  rw [← hd s', h, hd s]

/-- The clauses are the same up to positions. -/
structure SameClause (a b : Clause) : Prop where
  init? : Stmt.unplaced? a.init? = Stmt.unplaced? b.init?
  cond? : a.cond?.map Expr.unplaced = b.cond?.map Expr.unplaced
  post? : Stmt.unplaced? a.post? = Stmt.unplaced? b.post?

/-- Before a semicolon there is what starts an expression, or the semicolon. -/
theorem peek_ne_of_optionally {α : Type} {S : α → List Lexeme → List Lexeme → Prop} {x? : Option α}
    {t : Token} (h : Optionally S x? ts (l :: us)) (hl : l.token = .semi)
    (hS : ∀ {x ts us}, S x ts us → (peek ts).startsExpr = true) (ht : t.startsExpr = false)
    (hsemi : t ≠ .semi) : peek ts ≠ t := by
  cases h with
  | none => exact fun h => hsemi (h.symm.trans hl)
  | some hx => exact peek_ne_of_startsExpr (hS hx) ht

/-- What comes first in a clause is taken. -/
theorem takes_clauseInit (c : Construct) {init? : Option Stmt}
    (h : Optionally SpellsSimple init? ts us) (hend : (peek us).endsSimple = true)
    (hnone : init? = none → peek us = .semi) (hb : 16 * ts.length + 6 ≤ budget) :
    Takes g ts (clauseInit c budget) (fun s? => Stmt.unplaced? s? = Stmt.unplaced? init?) g us := by
  cases h with
  | none =>
    refine .onToken ?_
    rw [if_pos (hnone rfl)]
    exact .pure rfl
  | some hs =>
    refine .onToken ?_
    rw [if_neg (peek_ne_of_startsExpr hs.first rfl)]
    refine .onMissed (peek_ne_of_startsExpr hs.first rfl) (.bind (takes_simpleStmt hs hend hb) fun s' hs' => .pure ?_)
    simp only [Stmt.unplaced?, hs']

/-- A separator in a clause is taken. -/
theorem takes_clauseSeparator (hl : l.token = .semi) :
    Takes g (l :: ts) clauseSeparator (fun _ => True) g ts := by
  refine .onToken ?_
  rw [peek_cons, hl, if_pos rfl]
  exact .onHere fun pos => .onCurrent (.onNext (.pure trivial))

/-- The statement behind each round is taken. -/
theorem takes_postStmt {post? : Option Stmt} (hl : l.token = .semi)
    (h : Optionally SpellsPost post? ts us) (hend : peek us = .lbrace)
    (hb : 16 * ts.length + 6 ≤ budget) : Takes g (l :: ts) (postStmt budget)
      (fun s? => Stmt.unplaced? s? = Stmt.unplaced? post?) g us := by
  refine .onWant hl (.onToken ?_)
  cases h with
  | none =>
    rw [if_pos hend]
    exact .pure rfl
  | some hs =>
    obtain ⟨hs, hdefine⟩ := hs
    rw [if_neg (peek_ne_of_startsExpr hs.first rfl)]
    refine .bind (takes_simpleStmt hs (by rw [hend]; rfl) hb) fun s' hs' => ?_
    have hdefine' := (isDefine_of_unplaced hs').trans hdefine
    split
    · cases hdefine'
    · exact .pure (by simp only [Stmt.unplaced?, hs'])

/-- The condition and the post statement of a `for` are taken with the semicolon between them. -/
theorem takes_forTail {cond? : Option Expr} {post? : Option Stmt}
    (hcond : Optionally SpellsWhole cond? ts (l :: vs))
    (hl : l.token = .semi) (hpost : Optionally SpellsPost post? vs us) (hend : peek us = .lbrace)
    (hb : 16 * ts.length + 6 ≤ budget) : Takes g ts (forTail budget) (fun tail => ∃ s? t?, tail = (s?, t?) ∧
      Stmt.unplaced? s? = Stmt.unplaced? (cond?.map .expr) ∧
        Stmt.unplaced? t? = Stmt.unplaced? post?) g us := by
  have hlen := hcond.length_le SpellsExpr.length_lt
  rw [List.length_cons] at hlen
  have htake : Takes g (l :: vs) (postStmt budget) (fun t? => Stmt.unplaced? t? = Stmt.unplaced? post?) g us :=
    takes_postStmt hl hpost hend (by omega)
  refine .onToken ?_
  cases hcond with
  | none =>
    rw [peek_cons, hl]
    exact .bind htake fun t? ht? => .pure ⟨_, t?, rfl, rfl, ht?⟩
  | some hx =>
    -- A condition starts with neither of the two tokens that would leave it out.
    have hne := peek_ne_of_startsExpr hx.first (t := .semi) rfl
    have hne' := peek_ne_of_startsExpr hx.first (t := .lbrace) rfl
    have hsemi : (peek (l :: vs)).endsSimple = true := by rw [peek_cons, hl]; rfl
    split
    · next h => exact absurd h hne
    · next h => exact absurd h hne'
    · refine .bind (takes_simpleStmt (.expr hx) hsemi hb) fun s hs => .bind htake fun t? ht? =>
        .pure ⟨some s, t?, rfl, ?_, ht?⟩
      simp only [Stmt.unplaced?, Option.map_some, hs]

/-- What has been taken as the condition of a `for` is one, if it is there. -/
theorem takes_condition {cond? : Option Expr} {s? : Option Stmt} (separator? : Option (Pos × String))
    (hs? : Stmt.unplaced? s? = Stmt.unplaced? (cond?.map .expr)) :
    Takes g ts (condition .forClause s? separator?)
      (fun y? => y?.map Expr.unplaced = cond?.map Expr.unplaced) g ts := by
  cases cond? with
  | none =>
    cases s? with
    | some s => simp [Stmt.unplaced?] at hs?
    | none =>
      unfold condition
      cases separator? with
      | none => exact .pure rfl
      | some separator => exact .pure rfl
  | some x =>
    obtain ⟨s, rfl, hs⟩ := eq_some_of_unplaced? hs?
    obtain ⟨y, rfl, hy⟩ := eq_expr_of_unplaced hs
    exact .pure (by simp only [Option.map_some, hy])

/-- The clause of an `if` or `for` is taken with its keyword. -/
theorem takes_clause {c : Construct} {clause : Clause} (h : SpellsClause c clause ts us)
    (hl : l.token = .keyword c.keyword) (hend : peek us = .lbrace)
    (hb : 16 * ts.length + 6 ≤ budget) :
    Takes g (l :: ts) (ParseM.clause c budget) (fun clause' => SameClause clause' clause) g us := by
  have hbrace : (peek us).endsSimple = true := by rw [hend]; rfl
  refine .onWant hl (.onToken ?_)
  -- No header, a condition alone, and the headers of `if` and `for` with their semicolons.
  cases h with
  | always =>
    rw [if_pos hend, if_neg (by simp)]
    exact .pure ⟨rfl, rfl, rfl⟩
  | cond hx =>
    rw [if_neg (peek_ne_of_startsExpr hx.first rfl)]
    have hinit : Optionally SpellsSimple (some (.expr _)) ts us := .some (.expr hx)
    refine .bind (takes_clauseInit c hinit hbrace (fun h => nomatch h) hb) fun s? hs? => .onToken ?_
    rw [if_pos hend]
    obtain ⟨s, rfl, hs⟩ := eq_some_of_unplaced? hs?
    obtain ⟨y, rfl, hy⟩ := eq_expr_of_unplaced hs
    exact .pure ⟨rfl, by simp only [Option.map_some, hy], rfl⟩
  | @ifParts _ _ m _ us' _ hinit hm hx =>
    have hlen := hinit.length_le SpellsSimple.length_lt
    have hsemi : (peek (m :: us')).endsSimple = true := by rw [peek_cons, hm]; rfl
    rw [List.length_cons] at hlen
    -- Whatever the header starts with, it is not the block.
    rw [if_neg (peek_ne_of_optionally hinit hm SpellsSimple.first rfl (by simp))]
    refine .bind (takes_clauseInit _ hinit hsemi (fun _ => hm) hb) fun s? hs? => .onToken ?_
    rw [if_neg (by simp [hm])]
    refine .bind (takes_clauseSeparator hm) fun separator? _ => ?_
    rw [if_neg (by simp)]
    refine .onToken ?_
    rw [if_neg (peek_ne_of_startsExpr hx.first rfl)]
    refine .bind (takes_simpleStmt (.expr hx) hbrace (by omega)) fun s hs => ?_
    obtain ⟨y, rfl, hy⟩ := eq_expr_of_unplaced hs
    exact .pure ⟨hs?, by simp only [Option.map_some, hy], rfl⟩
  | @forParts _ cond? post? m m' _ us' vs' _ hinit hm hcond hm' hpost =>
    have hlen := hinit.length_le SpellsSimple.length_lt
    have hsemi : (peek (m :: us')).endsSimple = true := by rw [peek_cons, hm]; rfl
    rw [List.length_cons] at hlen
    rw [if_neg (peek_ne_of_optionally hinit hm SpellsSimple.first rfl (by simp))]
    refine .bind (takes_clauseInit _ hinit hsemi (fun _ => hm) hb) fun s? hs? => .onToken ?_
    rw [if_neg (by simp [hm])]
    refine .bind (takes_clauseSeparator hm) fun separator? _ => ?_
    rw [if_pos rfl]
    refine .bind (takes_forTail hcond hm' hpost hend (by omega)) ?_
    rintro tail ⟨s₁?, t?, rfl, hs₁?, ht?⟩
    exact .bind (takes_condition separator? hs₁?) fun y? hy? => .pure ⟨hs?, hy?, ht?⟩

/-! ## Statements -/

/-- The lexemes from `ts` to `us` are taken as the phrase. -/
def StmtTaken (g : Nat) (ts : List Lexeme) (g' : Nat) (us : List Lexeme) : StmtPhrase → Prop
  | .block b => ∀ {budget} after?, 16 * ts.length + 1 ≤ budget →
      Takes g ts (block after? budget) (fun b' => b'.unplaced = b.unplaced) g' us
  | .stmts ss => ∀ {budget}, peek us = .rbrace → 16 * ts.length + 9 ≤ budget →
      Takes g ts (stmts budget) (fun ss' => Stmt.unplacedEach ss' = Stmt.unplacedEach ss) g' us
  | .stmt s => ∀ {budget}, peek us = .semi ∨ peek us = .rbrace → 16 * ts.length + 8 ≤ budget →
      Takes g ts (stmt? budget) (fun s? => Stmt.unplaced? s? = some s.unplaced) g' us
  | .ifStmt s => ∀ {budget}, peek us = .semi ∨ peek us = .rbrace → 16 * ts.length + 7 ≤ budget →
      Takes g ts (ifStmt budget) (fun s' => s'.unplaced = s.unplaced) g' us
  | .elseBranch else? => ∀ {budget}, peek us = .semi ∨ peek us = .rbrace →
      16 * ts.length + 1 ≤ budget →
      Takes g ts (elseBranch budget) (fun s? => Stmt.unplaced? s? = Stmt.unplaced? else?) g' us

/-- A block is taken with its braces. -/
theorem stmtTaken_block (pos rbrace : Pos) {ss : List Stmt} {r : Lexeme} (hl : l.token = .lbrace)
    (hss : StmtTaken g ts g' (r :: us) (.stmts ss)) (hr : r.token = .rbrace) :
    StmtTaken g (l :: ts) g' us (.block (.mk pos ss rbrace)) := by
  intro budget after? hb
  rw [List.length_cons] at hb
  obtain ⟨budget, rfl⟩ := Nat.exists_eq_add_of_le' (show 2 ≤ budget by omega)
  refine .traced _ (.onHere fun pos' => .onGot hl (.bind (.traced _ (hss hr (by omega))) fun ss' hss' =>
    .onHere fun rbrace' => .onWant hr (.pure ?_)))
  simp only [Block.unplaced, hss']

/-- Before a closing brace there is no statement. -/
theorem takes_stmts_nil (hts : peek ts = .rbrace) (hb : 1 ≤ budget) :
    Takes g ts (stmts budget) (fun ss => ss = []) g ts := by
  obtain ⟨budget, rfl⟩ := Nat.exists_eq_add_of_le' hb
  refine .onToken ?_
  rw [if_pos (.inr hts)]
  exact .pure rfl

/-- A statement and the statements after its separator. -/
theorem takes_stmts_cons {g'' : Nat} {s : Stmt} {ss : List Stmt} (hts : (peek ts).startsStmt = true ∨
      peek ts = .semi) (hl : l.token = .semi)
    (hs : Takes g ts (stmt? budget) (fun s? => Stmt.unplaced? s? = some s.unplaced) g' (l :: us))
    (hss : Takes g' us (stmts budget) (fun ss' => Stmt.unplacedEach ss' = Stmt.unplacedEach ss) g'' vs) :
    Takes g ts (stmts (budget + 1))
      (fun ss' => Stmt.unplacedEach ss' = Stmt.unplacedEach (s :: ss)) g'' vs := by
  have hne : ¬(peek ts = .eof ∨ peek ts = .rbrace) := by
    rintro (h | h) <;> rw [h] at hts <;> simp [Token.startsStmt, Token.startsExpr] at hts
  refine .onToken ?_
  rw [if_neg hne]
  refine .bind hs fun s? hs? => ?_
  obtain ⟨s', rfl, hs'⟩ := eq_some_of_unplaced? (s := s) hs?
  refine .onGot hl (.bind hss fun ss' hss' => .pure ?_)
  simp only [Stmt.unplacedEach, hs', hss']

/-- The last statement needs no separator behind it. -/
theorem stmtTaken_last {s : Stmt} (hs : StmtTaken g ts g' us (.stmt s))
    (hfirst : (peek ts).startsStmt = true) : StmtTaken g ts g' us (.stmts [s]) := by
  intro budget hend hb
  obtain ⟨budget, rfl⟩ := Nat.exists_eq_add_of_le' (show 1 ≤ budget by omega)
  have hne : ¬(peek ts = .eof ∨ peek ts = .rbrace) := by
    rintro (h | h) <;> rw [h] at hfirst <;> cases hfirst
  refine .onToken ?_
  rw [if_neg hne]
  refine .bind (hs (.inr hend) (by omega)) fun s? hs? => ?_
  obtain ⟨s', rfl, hs'⟩ := eq_some_of_unplaced? (s := s) hs?
  refine .onMissed (by simp [hend]) (.onToken ?_)
  rw [if_pos hend]
  refine .bind (takes_stmts_nil hend (by omega)) fun ss' hss' => .pure ?_
  simp only [Stmt.unplacedEach, hs', hss']

/-- Before a separator there may be an empty statement. -/
theorem stmtTaken_empty (pos : Pos) {ss : List Stmt} (hl : l.token = .semi)
    (hss : StmtTaken g ts g' us (.stmts ss)) : StmtTaken g (l :: ts) g' us (.stmts (.empty pos :: ss)) := by
  intro budget hend hb
  rw [List.length_cons] at hb
  obtain ⟨budget, rfl⟩ := Nat.exists_eq_add_of_le' (show 2 ≤ budget by omega)
  refine takes_stmts_cons (.inr hl) hl ?_ (hss hend (by omega))
  refine .traced _ (.onHere fun pos' => .onToken ?_)
  rw [peek_cons, hl]
  exact .pure rfl

/-- What an expression may start with. -/
theorem startsExpr_cases {t : Token} (h : t.startsExpr = true) :
    t = .name ∨ t = .literal ∨ t = .lparen ∨ t = .lbrack ∨ t = .op ∨ t = .star := by
  cases t <;> simp_all [Token.startsExpr]

/-- A simple statement is taken as a statement. -/
theorem stmtTaken_simple {s : Stmt} (h : SpellsSimple s ts us) : StmtTaken g ts g us (.stmt s) := by
  intro budget hend hb
  obtain ⟨budget, rfl⟩ := Nat.exists_eq_add_of_le' (show 1 ≤ budget by omega)
  have hbrace : (peek us).endsSimple = true := by rcases hend with h | h <;> rw [h] <;> rfl
  have hsimple : Takes g ts (do return some (← simpleStmt budget))
      (fun s? => Stmt.unplaced? s? = some s.unplaced) g us := by
    refine .bind (takes_simpleStmt h hbrace (by omega)) fun s' hs' => .pure ?_
    simp only [Stmt.unplaced?, hs']
  refine .traced _ (.onHere fun pos => .onToken ?_)
  rcases startsExpr_cases h.first with h | h | h | h | h | h <;> (rw [h]; exact hsimple)

/-- Declarations are taken as a statement. -/
theorem stmtTaken_decls (pos : Pos) {keyword : Keyword} {ds : List Decl}
    (hl : l.token = .keyword keyword) (hk : keyword = .varWord ∨ keyword = .typeWord)
    (hds : SpellsGroup keyword ds g ts g' us) : StmtTaken g (l :: ts) g' us (.stmt (.decls pos ds)) := by
  intro budget hend hb
  rw [List.length_cons] at hb
  obtain ⟨budget, rfl⟩ := Nat.exists_eq_add_of_le' (show 1 ≤ budget by omega)
  have hspec : (peek us).endsSpec = true := by rcases hend with h | h <;> rw [h] <;> rfl
  -- A declaration in a body is the group of the file level, read by the rule of the keyword.
  have hdecl : Takes g (l :: ts) (declStmt keyword budget)
      (fun s => s.unplaced = (Stmt.decls pos ds).unplaced) g' us := by
    refine .traced _ (.onHere fun pos' => .onNext ?_)
    rcases hk with rfl | rfl
    · rw [if_neg (by simp)]
      refine .bind (takes_grouped hds hspec _ (n := ts.length)
        (fun h hk hend hlen => takes_varSpec h hk hend (by omega)) (by omega) (by omega))
        fun ds' hds' => .pure ?_
      simp only [Stmt.unplaced, hds']
    · rw [if_pos rfl]
      refine .bind (takes_grouped hds hspec _ (n := ts.length)
        (fun h hk hend hlen => takes_typeSpec h hk (by omega)) (by omega) (by omega))
        fun ds' hds' => .pure ?_
      simp only [Stmt.unplaced, hds']
  refine .traced _ (.onHere fun pos' => .onToken ?_)
  rw [peek_cons, hl]
  rcases hk with rfl | rfl
  · exact .bind hdecl fun s hs => .pure (by simp only [Stmt.unplaced?, hs])
  · exact .bind hdecl fun s hs => .pure (by simp only [Stmt.unplaced?, hs])

/-- A block is taken as a statement. -/
theorem stmtTaken_nested {b : Block} (hb : StmtTaken g ts g' us (.block b))
    (hfirst : peek ts = .lbrace) : StmtTaken g ts g' us (.stmt (.block b)) := by
  intro budget _ hbudget
  obtain ⟨budget, rfl⟩ := Nat.exists_eq_add_of_le' (show 1 ≤ budget by omega)
  refine .traced _ (.onHere fun pos => .onToken ?_)
  rw [hfirst]
  refine .bind (hb none (by omega)) fun b' hb' => .pure ?_
  simp only [Stmt.unplaced?, Stmt.unplaced, hb']

/-- An `if` is taken as a statement. -/
theorem stmtTaken_branch {s : Stmt} (hs : StmtTaken g ts g' us (.ifStmt s))
    (hfirst : peek ts = .keyword .ifWord) : StmtTaken g ts g' us (.stmt s) := by
  intro budget hend hb
  obtain ⟨budget, rfl⟩ := Nat.exists_eq_add_of_le' (show 1 ≤ budget by omega)
  refine .traced _ (.onHere fun pos => .onToken ?_)
  rw [hfirst]
  refine .bind (hs hend (by omega)) fun s' hs' => .pure ?_
  simp only [Stmt.unplaced?, hs']

/-- A `while` is taken. -/
theorem stmtTaken_while (pos : Pos) {cond : Expr} {b : Block} (hl : l.token = .keyword .whileWord)
    (hx : SpellsWhole cond ts us) (hb : StmtTaken g us g' vs (.block b)) (hfirst : peek us = .lbrace) :
    StmtTaken g (l :: ts) g' vs (.stmt (.whileStmt pos cond b)) := by
  intro budget hend hbudget
  have hlen := hx.length_lt
  rw [List.length_cons] at hbudget
  obtain ⟨budget, rfl⟩ := Nat.exists_eq_add_of_le' (show 2 ≤ budget by omega)
  have hstop : Stops us := stops_of_endsSimple (by rw [hfirst]; rfl)
  have hwhile : Takes g (l :: ts) (whileStmt (budget + 1))
      (fun s => s.unplaced = (Stmt.whileStmt pos cond b).unplaced) g' vs := by
    refine .traced _ (.onHere fun pos' => .onNext (.onToken ?_))
    rw [if_neg (peek_ne_of_startsExpr hx.first rfl)]
    refine .bind (takes_expr hx hstop (by omega)) fun y hy => .bind (hb _ (by omega)) fun b' hb' =>
      .pure ?_
    simp only [Stmt.unplaced, hy, hb']
  refine .traced _ (.onHere fun pos' => .onToken ?_)
  rw [peek_cons, hl]
  exact .bind hwhile fun s hs => .pure (by simp only [Stmt.unplaced?, hs])

/-- A `for` is taken. -/
theorem stmtTaken_for (pos : Pos) {clause : Clause} {b : Block} (hl : l.token = .keyword .forWord)
    (hc : SpellsClause .forClause clause ts us) (hb : StmtTaken g us g' vs (.block b))
    (hfirst : peek us = .lbrace) :
    StmtTaken g (l :: ts) g' vs
      (.stmt (.forStmt pos clause.init? clause.cond? clause.post? b)) := by
  intro budget hend hbudget
  have hlen := hc.length_le
  rw [List.length_cons] at hbudget
  obtain ⟨budget, rfl⟩ := Nat.exists_eq_add_of_le' (show 2 ≤ budget by omega)
  have hfor : Takes g (l :: ts) (forStmt (budget + 1)) (fun s => s.unplaced =
      (Stmt.forStmt pos clause.init? clause.cond? clause.post? b).unplaced) g' vs := by
    refine .traced _ (.onHere fun pos' => .bind (takes_clause hc hl hfirst (by omega))
      fun clause' hclause => .bind (hb _ (by omega)) fun b' hb' => .pure ?_)
    simp only [Stmt.unplaced, hclause.init?, hclause.cond?, hclause.post?, hb']
  refine .traced _ (.onHere fun pos' => .onToken ?_)
  rw [peek_cons, hl]
  exact .bind hfor fun s hs => .pure (by simp only [Stmt.unplaced?, hs])

/-- A `return` is taken, with a result or none. -/
theorem stmtTaken_return (pos : Pos) {result? : Option Expr} (hl : l.token = .keyword .returnWord)
    (hx : Optionally SpellsWhole result? ts us) :
    StmtTaken g (l :: ts) g us (.stmt (.returnStmt pos result?)) := by
  intro budget hend hb
  rw [List.length_cons] at hb
  obtain ⟨budget, rfl⟩ := Nat.exists_eq_add_of_le' (show 1 ≤ budget by omega)
  have hbrace : (peek us).endsSimple = true := by rcases hend with h | h <;> rw [h] <;> rfl
  refine .traced _ (.onHere fun pos' => .onToken ?_)
  rw [peek_cons, hl]
  refine .onNext (.onToken ?_)
  cases hx with
  | none =>
    rw [if_pos hend]
    exact .pure rfl
  | some hx =>
    -- A result starts an expression, which neither of the two tokens does that end the statement.
    have hne : ¬(peek ts = .semi ∨ peek ts = .rbrace) := by
      rintro (h | h)
      · exact peek_ne_of_startsExpr hx.first rfl h
      · exact peek_ne_of_startsExpr hx.first rfl h
    rw [if_neg hne]
    refine .bind (takes_expr hx (stops_of_endsSimple hbrace) (by omega)) fun y hy => .pure ?_
    simp only [Stmt.unplaced?, Stmt.unplaced, Option.map_some, hy]

/-- A `break` is taken. -/
theorem stmtTaken_break (pos : Pos) (hl : l.token = .keyword .breakWord) :
    StmtTaken g (l :: ts) g ts (.stmt (.breakStmt pos)) := by
  intro budget hend hb
  obtain ⟨budget, rfl⟩ := Nat.exists_eq_add_of_le' (show 1 ≤ budget by omega)
  refine .traced _ (.onHere fun pos' => .onToken ?_)
  rw [peek_cons, hl]
  exact .onNext (.pure rfl)

/-- An `if` is taken. -/
theorem stmtTaken_if (pos : Pos) {g'' : Nat} {ws : List Lexeme} {init? else? : Option Stmt} {cond : Expr}
    {b : Block} (hl : l.token = .keyword .ifWord)
    (hc : SpellsClause .ifClause ⟨init?, some cond, none⟩ ts us)
    (hb : StmtTaken g us g' vs (.block b)) (hfirst : peek us = .lbrace)
    (he : StmtTaken g' vs g'' ws (.elseBranch else?)) (hlen : vs.length ≤ us.length) :
    StmtTaken g (l :: ts) g'' ws (.ifStmt (.ifStmt pos init? cond b else?)) := by
  intro budget hend hbudget
  have hlen' := hc.length_le
  rw [List.length_cons] at hbudget
  obtain ⟨budget, rfl⟩ := Nat.exists_eq_add_of_le' (show 1 ≤ budget by omega)
  refine .traced _ (.onHere fun pos' => .bind (takes_clause hc hl hfirst (by omega))
    fun clause' hclause => .bind (hb _ (by omega)) fun b' hb' =>
      .bind (he hend (by omega)) fun e? he? => .pure ?_)
  obtain ⟨hinit, hcond, -⟩ := hclause
  obtain ⟨y, hy, hcond⟩ := Option.map_eq_some_iff.mp hcond
  simp only [Stmt.unplaced, hy, Option.getD_some, hinit, hcond, hb', he?]

/-- An `else` before another `if` is taken. -/
theorem stmtTaken_elseIf {s : Stmt} (hl : l.token = .keyword .elseWord)
    (hs : StmtTaken g ts g' us (.ifStmt s)) (hfirst : peek ts = .keyword .ifWord) :
    StmtTaken g (l :: ts) g' us (.elseBranch (some s)) := by
  intro budget hend hb
  rw [List.length_cons] at hb
  obtain ⟨budget, rfl⟩ := Nat.exists_eq_add_of_le' (show 1 ≤ budget by omega)
  refine .onGot hl (.onToken ?_)
  rw [hfirst]
  refine .bind (hs hend (by omega)) fun s' hs' => .pure ?_
  simp only [Stmt.unplaced?, hs']

/-- An `else` before a block is taken. -/
theorem stmtTaken_elseBlock {b : Block} (hl : l.token = .keyword .elseWord)
    (hb : StmtTaken g ts g' us (.block b)) (hfirst : peek ts = .lbrace) :
    StmtTaken g (l :: ts) g' us (.elseBranch (some (.block b))) := by
  intro budget hend hbudget
  rw [List.length_cons] at hbudget
  obtain ⟨budget, rfl⟩ := Nat.exists_eq_add_of_le' (show 1 ≤ budget by omega)
  refine .onGot hl (.onToken ?_)
  rw [hfirst]
  refine .bind (hb none (by omega)) fun b' hb' => .pure ?_
  simp only [Stmt.unplaced?, Stmt.unplaced, hb']

/-- Whatever spells a phrase is taken as that phrase. -/
theorem stmtTaken {s : StmtPhrase} (h : SpellsStmt s g ts g' us) : StmtTaken g ts g' us s := by
  -- One lemma a statement; what follows is known to end a statement, which is what every rule asks of it.
  induction h with
  | block pos rbrace hl _ hr ih => exact stmtTaken_block pos rbrace hl ih hr
  | nil =>
    intro budget hend hb
    exact (takes_stmts_nil hend (by omega)).weaken fun ss hss => by rw [hss]
  | empty pos hl _ ih => exact stmtTaken_empty pos hl ih
  | last hs ih => exact stmtTaken_last ih hs.first
  | cons hs hl hss ih ih' =>
    intro budget hend hb
    have hlen := hs.length_le
    simp only [StmtPhrase.least, List.length_cons] at hlen
    obtain ⟨budget, rfl⟩ := Nat.exists_eq_add_of_le' (show 1 ≤ budget by omega)
    exact takes_stmts_cons (.inl hs.first) hl (ih (.inl hl) (by omega)) (ih' hend (by omega))
  | simple hs => exact stmtTaken_simple hs
  | decls pos hl hk hds => exact stmtTaken_decls pos hl hk hds
  | nested hb ih => exact stmtTaken_nested ih hb.block_first
  | branch hs ih => exact stmtTaken_branch ih hs.if_first
  | whileStmt pos hl hx hb ih => exact stmtTaken_while pos hl hx ih hb.block_first
  | forStmt pos hl hc hb ih => exact stmtTaken_for pos hl hc ih hb.block_first
  | returnStmt pos hl hx => exact stmtTaken_return pos hl hx
  | breakStmt pos hl => exact stmtTaken_break pos hl
  | ifStmt pos hl hc hb _ ihb ihe =>
    exact stmtTaken_if pos hl hc ihb hb.block_first ihe (Nat.le_of_lt hb.length_lt)
  | noElse =>
    intro budget hend hb
    obtain ⟨budget, rfl⟩ := Nat.exists_eq_add_of_le' (show 1 ≤ budget by omega)
    exact .onMissed (by rcases hend with h | h <;> simp [h]) (.pure rfl)
  | elseIf hl hs ih => exact stmtTaken_elseIf hl ih hs.if_first
  | elseBlock hl hb ih => exact stmtTaken_elseBlock hl ih hb.block_first

/-- A block is taken, wherever it stands. -/
theorem takes_block {b : Block} (h : SpellsStmt (.block b) g ts g' us) (after? : Option Construct)
    (hb : 16 * ts.length + 1 ≤ budget) :
    Takes g ts (block after? budget) (fun b' => b'.unplaced = b.unplaced) g' us :=
  stmtTaken h after? hb

end ParseM

end FrontEnd
