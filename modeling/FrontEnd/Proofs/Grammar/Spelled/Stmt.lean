import FrontEnd.Proofs.Grammar.Spelled.Expr

/-!
# What has been read without complaint: statements

The rules for declarations that may be grouped, and for statements.
-/

namespace FrontEnd

namespace ParseM

variable {n k : Int} {P : Outlook} {budget : Nat}

/-! ## Declarations that may be grouped -/

/-- An equals sign is passed, or there is none. -/
theorem Reads.gotAssign : Reads n P gotAssign n fun b g ts =>
    (b = true → After .assign P g ts) ∧ (b = false → P g ts ∧ peek ts ≠ .assign) := by
  refine .bind .token fun t => ?_
  split
  · exact .bind (k := 0) (.complain _) fun _ => .never (routine_next.bind fun _ => .done true)
  · refine .bind (.nextAfter (by decide)) fun _ => .pure ?_ (by omega)
    exact fun g us h => ⟨fun _ => h, fun h => (nomatch h)⟩
  · next hassign =>
    refine .pure ?_ (Int.le_refl _)
    rintro g ts ⟨hP, rfl⟩
    exact ⟨fun h => (nomatch h), fun _ => ⟨hP, hassign⟩⟩

/-- A specification for the given keyword has been read. -/
def Specifies (keyword : Keyword) (spec? : Option Spec) (ts us : List Lexeme) : Prop :=
  ∃ spec, spec? = some spec ∧ spec.keyword = keyword ∧ SpellsSpec spec ts us

/-- The rule for what is imported reads what spells it. -/
theorem reads_importSpec : Reads n P importSpec (n - 1) fun spec? =>
    Past (Specifies .importWord spec?) P := by
  refine .traced _ (.bind .token fun t => ?_)
  split
  · next ht =>
    refine .bind (.literal fun _ _ h => h.2.trans ht) fun path => ?_
    split
    · next hpath =>
      refine .pure ?_ (Int.le_refl _)
      rintro g us ⟨l, pos, hl, hfine, rfl, hP, -⟩
      have hkind : l.kind = .string := by simpa [hfine.bad] using hpath
      exact ⟨_, hP, _, rfl, rfl, .path pos hl hkind⟩
    · exact .bind (k := 0) (.complainAt _ _) fun _ => .never (.done _)
  · exact .bind (k := 0) (.complain _) fun _ => .never ((routine_recover _).bind fun _ => .done _)

/-- The rule for a declared type reads what spells it. -/
theorem reads_typeSpec (hn : 16 * n + 2 ≤ budget) :
    Reads n P (typeSpec budget) (n - 1) fun spec? => Past (Specifies .typeWord spec?) P := by
  refine .traced _ (.bind .ident fun name => .bind .gotAssign fun isAlias =>
    .bind (reads_type? budget (by omega)) fun type? => ?_)
  split
  · next type =>
    change Reads _ _ (do
      remark ("id: " ++ name.text)
      return some (Spec.typeSpec name isAlias type)) _ _
    refine .bind (.remark _) fun _ => .pure ?_ (Int.le_refl _)
    rintro g us ⟨ts, ⟨halias, hplain⟩, htype⟩
    -- The equals sign tells a synonym from a new type.
    cases isAlias with
    | true =>
      obtain ⟨e, he, l, pos, hl, rfl, hP⟩ := halias rfl
      exact ⟨_, hP, _, rfl, rfl, .synonym pos hl he htype⟩
    | false =>
      obtain ⟨⟨l, pos, hl, rfl, hP⟩, -⟩ := hplain rfl
      exact ⟨_, hP, _, rfl, rfl, .type pos hl htype⟩
  · exact .bind .hole fun bad => .bind (k := 0) (.complain _) fun _ =>
      .never ((routine_recover _).bind fun _ => (routine_remark _).bind fun _ => .done _)

/-- The rule for declared variables reads what spells them. -/
theorem reads_varSpec (hn : 16 * n + 2 ≤ budget) :
    Reads n P (varSpec budget) (n - 1) fun spec? => Past (Specifies .varWord spec?) P := by
  -- A name with a value, with a type, or with both, in the order in which the parser looks for them.
  refine .traced _ (.bind .ident fun name => .bind (.remark _) fun _ => .bind .gotAssign fun b => ?_)
  split
  · next hb =>
    refine .bind (reads_expr budget (by omega)) fun x => .pure ?_ (by omega)
    rintro g us ⟨ts, ⟨hassign, -⟩, hx⟩
    obtain ⟨e, he, l, pos, hl, rfl, hP⟩ := hassign hb
    exact ⟨_, hP, _, rfl, rfl, .value pos hl he hx⟩
  · next hb =>
    have hb : b = false := by simpa using hb
    refine .bind (reads_type? budget (by omega)) fun type? => ?_
    split
    · next type =>
      refine .bind .gotAssign fun b' => ?_
      split
      · next hb' =>
        refine .bind (reads_expr budget (by omega)) fun x => .pure ?_ (by omega)
        rintro g vs ⟨us, ⟨hassign, -⟩, hx⟩
        obtain ⟨e, he, ts, ⟨-, hplain⟩, htype⟩ := hassign hb'
        obtain ⟨⟨l, pos, hl, rfl, hP⟩, -⟩ := hplain hb
        exact ⟨_, hP, _, rfl, rfl, .typedValue pos hl htype he hx⟩
      · next hb' =>
        have hb' : b' = false := by simpa using hb'
        refine .pure ?_ (Int.le_refl _)
        rintro g us ⟨-, hplain'⟩
        obtain ⟨⟨ts, ⟨-, hplain⟩, htype⟩, -⟩ := hplain' hb'
        obtain ⟨⟨l, pos, hl, rfl, hP⟩, -⟩ := hplain hb
        exact ⟨_, hP, _, rfl, rfl, .typed pos hl htype⟩
    · exact .bind (k := 0) (.complain _) fun _ =>
        .never ((routine_recover _).bind fun _ => .done none)

/-- A new group has the number of groups so far. -/
theorem Reads.newGroup : Reads n P newGroup n fun i g ts => P i ts ∧ g = i + 1 := by
  rintro p (hs | ⟨g, ts, hP, hn, hat⟩)
  · exact .inl hs
  · obtain rfl := hat.groups
    exact .inr ⟨p.groups + 1, ts, ⟨hP, rfl⟩, hn, hat.said, hat.aborted, rfl, hat.lexemes, hat.fine,
      hat.calm⟩

end ParseM

/-- A list of things that may be absent, but are not, is a list of the things. -/
theorem Listed.filterMap {α : Type} {S : α → List Lexeme → List Lexeme → Prop} {separator : Token}
    {xs : List (Option α)} {ts us : List Lexeme}
    (h : Listed (fun x? ts us => ∃ x, x? = some x ∧ S x ts us) separator xs ts us) :
    Listed S separator (xs.filterMap id) ts us := by
  induction h with
  | nil => exact .nil
  | last hx =>
    obtain ⟨x, rfl, hx⟩ := hx
    exact .last hx
  | cons hx hl _ ih =>
    obtain ⟨x, rfl, hx⟩ := hx
    exact .cons hx hl ih

namespace ParseM

variable {n k : Int} {P : Outlook} {budget : Nat}

/-- The rule for declarations that may be grouped reads what spells them. -/
theorem reads_grouped {keyword : Keyword} {spec : ParseM (Option Spec)} (hspec : Routine spec)
    (hr : ∀ {m : Int} {P}, m ≤ n → Reads m P spec (m - 1) fun spec? => Past (Specifies keyword spec?) P)
    (pos : Pos) (hn : 16 * n + 1 ≤ budget) :
    Reads n P (grouped keyword pos spec budget) (n - 1) fun ds =>
      PastGroups (SpellsGroup keyword ds) P := by
  refine .bind .token fun t => ?_
  split
  · next ht =>
    refine .bind .newGroup fun i => .bind .here fun pos => .bind (.next ?_) fun _ => ?_
    · rintro g ts ⟨⟨-, hpeek⟩, -⟩
      exact Reads.ne_nil_of_peek hpeek (by simp [ht])
    · -- One specification of the group, with the position and the number that all of its members share.
      have hmember {m : Int} {P : Outlook} (hm : m ≤ n) : Reads m P (do
            let pos' ← here
            return (← spec).map (Decl.mk pos' (some ⟨i, pos, keyword⟩))) (m - 1) fun d? =>
          Past (fun ts us => ∃ d, d? = some d ∧
            SpellsMember keyword (some ⟨i, pos, keyword⟩) d ts us) P := by
        refine .bind .here fun pos' => .bind (hr hm) fun spec? => .pure ?_ (Int.le_refl _)
        rintro g us ⟨ts, hP, s, rfl, hk, hs⟩
        exact ⟨ts, hP, _, rfl, .mk _ hs hk⟩
      have hroutine : Routine (do
            let pos' ← here
            return (← spec).map (Decl.mk pos' (some ⟨i, pos, keyword⟩))) :=
        routine_here.bind fun pos => hspec.bind fun spec? => .done _
      refine .bind (.list hroutine (by omega) fun hm => hmember (by omega)) fun ds? =>
        .pure ?_ (by omega)
      rintro g us ⟨r, hr, ts, ⟨l, ⟨hP, hpeek⟩, rfl⟩, hds⟩
      exact ⟨i, _, hP, .group pos (hpeek.trans ht) hds.filterMap hr⟩
  · refine .bind (hr (Int.le_refl _)) fun spec? => .pure ?_ (Int.le_refl _)
    rintro g us ⟨ts, ⟨hP, -⟩, s, rfl, hk, hs⟩
    exact ⟨g, ts, hP, .single (.mk pos hs hk)⟩

/-! ## Simple statements and clauses -/

/-- The rule for simple statements reads what spells one. -/
theorem reads_simpleStmt (hn : 16 * n + 6 ≤ budget) :
    Reads n P (simpleStmt budget) (n - 1) fun s => Past (SpellsSimple s) P := by
  -- The token behind the expression decides which statement it is.
  refine .traced _ (.bind (reads_expr budget hn) fun lhs => .bind .here fun pos =>
    .bind .current fun lexeme => .bind .token fun t => ?_)
  split
  · refine .bind (.nextAfter (by decide)) fun _ => .bind (reads_expr budget (by omega)) fun rhs =>
      .pure ?_ (by omega)
    rintro g vs ⟨us, ⟨l, hl, ⟨ts, hP, hx⟩, -⟩, hy⟩
    exact ⟨ts, hP, .assign pos hx hl hy⟩
  · refine .bind (.nextAfter (by decide)) fun _ => .bind (reads_expr budget (by omega)) fun rhs =>
      .pure ?_ (by omega)
    rintro g vs ⟨us, ⟨l, hl, ⟨ts, hP, hx⟩, hcurrent⟩, hy⟩
    obtain ⟨rfl, -⟩ := hcurrent l us rfl
    exact ⟨ts, hP, .assignOp pos hx hl hy⟩
  · refine .bind (.nextAfter (by decide)) fun _ => .pure ?_ (by omega)
    rintro g us ⟨l, hl, ⟨ts, hP, hx⟩, hcurrent⟩
    obtain ⟨rfl, -⟩ := hcurrent l us rfl
    exact ⟨ts, hP, .incDec pos hx hl⟩
  · refine .bind (.nextAfter (by decide)) fun _ => .bind (reads_expr budget (by omega)) fun rhs =>
      .pure ?_ (by omega)
    rintro g vs ⟨us, ⟨l, hl, ⟨ts, hP, hx⟩, -⟩, hy⟩
    exact ⟨ts, hP, .define pos hx hl hy⟩
  · refine .pure ?_ (Int.le_refl _)
    rintro g us ⟨⟨⟨ts, hP, hx⟩, -⟩, -⟩
    exact ⟨ts, hP, .expr hx⟩

/-- A condition that is not complained about is an expression, or it may be absent. -/
theorem reads_condition (c : Construct) (stmt? : Option Stmt) (separator? : Option (Pos × String)) :
    Reads n P (condition c stmt? separator?) n fun cond? g ts => P g ts ∧
      ((∃ x, stmt? = some (.expr x) ∧ cond? = some x) ∨
        stmt? = none ∧ cond? = none ∧ (c = .ifClause → separator? = none)) := by
  unfold condition
  split
  · next x => exact .pure (fun _ _ h => ⟨h, .inl ⟨x, rfl, rfl⟩⟩) (Int.le_refl _)
  · exact .bind (k := 0) (.complainAt _ _) fun _ => .never (.done none)
  · split
    · next pos reason =>
      split
      · split
        · exact .bind (k := 0) (.complainAt _ _) fun _ => .never (.done _)
        · exact .bind (k := 0) (.complainAt _ _) fun _ => .never (.done _)
      · next hc =>
        exact .pure (fun _ _ h => ⟨h, .inr ⟨rfl, rfl, fun h => (hc h).elim⟩⟩) (Int.le_refl _)
    · exact .pure (fun _ _ h => ⟨h, .inr ⟨rfl, rfl, fun _ => rfl⟩⟩) (Int.le_refl _)

/-- The rule for the separator in a clause reads one, unless a brace comes next. -/
theorem reads_clauseSeparator (h : ∀ g ts, P g ts → peek ts ≠ .lbrace) :
    Reads n P clauseSeparator (n - 1) fun separator? g us =>
      After .semi P g us ∧ separator? ≠ none := by
  refine .bind .token fun t => ?_
  split
  · next ht =>
    refine .bind .here fun pos => .bind .current fun lexeme => .bind (.next ?_) fun _ =>
      .pure ?_ (Int.le_refl _)
    · rintro g ts ⟨⟨-, hpeek⟩, -⟩
      exact Reads.ne_nil_of_peek hpeek (by simp [ht])
    · rintro g us ⟨l, ⟨hP, hpeek⟩, -⟩
      exact ⟨⟨l, hpeek.trans ht, hP⟩, fun h => (nomatch h)⟩
  · -- The block has been looked for before, so it is missed here.
    refine .bind (.want (by decide)) fun _ => .impossible ?_ ?_
    · refine routine_token.bind fun t => ?_
      split
      · exact .done none
      · exact (routine_recover _).bind fun _ => .done none
    · rintro g us ⟨l, hl, hP, -⟩
      exact h g _ hP hl

/-- The last part of a clause with the separator before it. -/
def Ends (post? : Option Stmt) (ts us : List Lexeme) : Prop :=
  ∃ m vs, ts = m :: vs ∧ m.token = .semi ∧ Optionally SpellsPost post? vs us

/-- The rule for the statement behind each round reads what spells one that is no definition. -/
theorem reads_postStmt (hn : 16 * n + 6 ≤ budget) :
    Reads n P (postStmt budget) (n - 1) fun post? => Past (Ends post?) P := by
  refine .bind (.want (by decide)) fun _ => .bind .token fun t => ?_
  split
  · refine .pure ?_ (Int.le_refl _)
    rintro g us ⟨⟨m, hm, hP⟩, -⟩
    exact ⟨_, hP, m, us, rfl, hm, .none⟩
  · refine .bind (reads_simpleStmt (by omega)) fun s => ?_
    split
    · exact .bind (k := 0) (.complainAt _ _) fun _ => .never (.done _)
    · next hs =>
      refine .pure ?_ (by omega)
      rintro g us ⟨vs, ⟨⟨m, hm, hP⟩, -⟩, hx⟩
      have hdefine : s.isDefine = false := by
        cases s with
        | define pos x y => exact (hs pos x y rfl).elim
        | _ => rfl
      exact ⟨_, hP, m, vs, rfl, hm, .some ⟨hx, hdefine⟩⟩

/-- The rule for what follows the first separator of a `for` reads what spells it. -/
theorem reads_forTail (hn : 16 * n + 6 ≤ budget) :
    Reads n P (forTail budget) (n - 1) fun tail => Past (fun ts us =>
      ∃ vs, Optionally SpellsSimple tail.1 ts vs ∧ Ends tail.2 vs us) P := by
  refine .bind .token fun t => ?_
  split
  · refine .bind (reads_postStmt (by omega)) fun post? => .pure ?_ (Int.le_refl _)
    rintro g us ⟨ts, ⟨hP, -⟩, hpost⟩
    exact ⟨ts, hP, ts, .none, hpost⟩
  · exact .bind (k := 0) (.complain _) fun _ => .never (.done _)
  · refine .bind (reads_simpleStmt (by omega)) fun cond => .bind (reads_postStmt (by omega))
      fun post? => .pure ?_ (by omega)
    rintro g us ⟨vs, ⟨ts, ⟨hP, -⟩, hcond⟩, hpost⟩
    exact ⟨ts, hP, vs, .some hcond, hpost⟩

/-- The rule for what comes first in a clause reads what spells it. There is nothing only before a separator. -/
theorem reads_clauseInit (c : Construct) (hn : 16 * n + 6 ≤ budget) :
    Reads n P (clauseInit c budget) n fun init? => Past (fun ts us =>
      Optionally SpellsSimple init? ts us ∧ (init? = none → peek us = .semi)) P := by
  refine .bind .token fun t => ?_
  split
  · next ht =>
    refine .pure ?_ (Int.le_refl _)
    rintro g ts ⟨hP, hpeek⟩
    exact ⟨ts, hP, .none, fun _ => hpeek.trans ht⟩
  · have hroutine : Routine (do return some (← simpleStmt budget)) :=
      (routine_simpleStmt budget).bind fun s => .done (some s)
    refine .gotThen (by decide) ?_ ?_
    · exact .bind (k := 0) (.complain _) fun _ => .never hroutine
    · refine .bind (reads_simpleStmt hn) fun s => .pure ?_ (by omega)
      rintro g us ⟨ts, ⟨⟨hP, -⟩, -⟩, hs⟩
      exact ⟨ts, hP, .some hs, fun h => (nomatch h)⟩

/-- A statement that serves as a condition is an expression. -/
theorem optionally_whole {stmt? : Option Stmt} {cond? : Option Expr} {ts us : List Lexeme}
    (h : Optionally SpellsSimple stmt? ts us) (hc : (∃ x, stmt? = some (.expr x) ∧ cond? = some x) ∨
      stmt? = none ∧ cond? = none) : Optionally SpellsWhole cond? ts us := by
  rcases hc with ⟨x, rfl, rfl⟩ | ⟨rfl, rfl⟩
  · cases h with
    | some hs =>
      cases hs with
      | expr hx => exact .some hx
  · cases h
    exact .none

/-- The clause of an `if` or `for` with its keyword. -/
theorem reads_clause (c : Construct) (hc : c ≠ .whileClause) (hn : 16 * n + 6 ≤ budget) :
    Reads n P (clause c budget) (n - 1) fun clause =>
      Past (SpellsClause c clause) (After (.keyword c.keyword) P) := by
  refine .bind (.want (by simp)) fun _ => .bind .token fun t => ?_
  split
  · split
    · exact .bind (k := 0) (.complain _) fun _ => .never (routine_hole.bind fun bad => .done _)
    · next hif =>
      refine .pure ?_ (Int.le_refl _)
      rintro g ts ⟨hP, -⟩
      -- A block right behind the keyword is a clause of a `for` only; of a `while` none is asked here.
      have hfor : c = .forClause := by cases c <;> simp_all
      exact ⟨ts, hP, hfor ▸ .always⟩
  · refine .bind (reads_clauseInit c (by omega)) fun init? => .bind .token fun t => ?_
    split
    · next ht =>
      refine .bind (reads_condition c _ _) fun cond? => .pure ?_ (Int.le_refl _)
      rintro g us ⟨⟨⟨ts, ⟨hP, -⟩, hinit, hnone⟩, hpeek⟩, ⟨x, rfl, rfl⟩ | ⟨rfl, -⟩⟩
      · cases hinit with
        | some hs =>
          cases hs with
          | expr hx => exact ⟨ts, hP, .cond hx⟩
      · -- Without a statement before it the clause would have had to go on with a semicolon.
        have hsemi : peek us = .semi := hnone rfl
        rw [hpeek, ht] at hsemi
        cases hsemi
    · next ht =>
      refine .bind (reads_clauseSeparator fun g us h hl => ht (h.2.symm.trans hl)) fun separator? => ?_
      split
      · next hfor =>
        subst hfor
        -- Behind the first semicolon the two constructs part: a tail with a second semicolon, or the condition
        -- alone.
        refine .bind (reads_forTail (by omega)) fun tail => .bind (reads_condition _ _ _)
          fun cond? => .pure ?_ (by omega)
        rintro g us ⟨⟨vs, ⟨⟨l, hl, ⟨ts, ⟨hP, -⟩, hinit, -⟩, -⟩, -⟩, ws, hcond, m, xs, rfl, hm, hpost⟩, h⟩
        have h' : (∃ x, tail.1 = some (.expr x) ∧ cond? = some x) ∨ tail.1 = none ∧ cond? = none :=
          h.imp id fun h => ⟨h.1, h.2.1⟩
        exact ⟨ts, hP, .forParts hinit hl (optionally_whole hcond h') hm hpost⟩
      · next hfor =>
        have hif : c = .ifClause := by cases c <;> simp_all
        subst hif
        refine .bind .token fun t => ?_
        split
        · refine .bind (reads_condition _ _ _) fun cond? => .pure ?_ (by omega)
          rintro g us ⟨⟨⟨-, hsome⟩, -⟩, ⟨x, hx, -⟩ | ⟨-, -, hnone⟩⟩
          · cases hx
          · exact (hsome (hnone rfl)).elim
        · refine .bind (reads_simpleStmt (by omega)) fun cond => .bind (reads_condition _ _ _)
            fun cond? => .pure ?_ (by omega)
          rintro g us ⟨⟨vs, ⟨⟨⟨l, hl, ⟨ts, ⟨hP, -⟩, hinit, -⟩, -⟩, -⟩, -⟩, hcond⟩,
            ⟨x, hx, rfl⟩ | ⟨hx, -⟩⟩
          · cases hx
            cases hcond with
            | expr hx => exact ⟨ts, hP, .ifParts hinit hl hx⟩
          · cases hx

/-! ## Statements -/

/-- The rule for declarations among statements reads what spells them. -/
theorem reads_declStmt (keyword : Keyword) (hk : keyword = .varWord ∨ keyword = .typeWord)
    (hn : 16 * n ≤ budget) : Reads n (fun g ts => P g ts ∧ peek ts = .keyword keyword)
      (declStmt keyword budget) (n - 1) fun s => PastGroups (SpellsStmt (.stmt s)) P := by
  refine .traced _ (.bind .here fun pos => .bind (.nextAfter (by simp)) fun _ => ?_)
  have hdecls (ds : List Decl) : ∀ g us,
      PastGroups (SpellsGroup keyword ds) (After (.keyword keyword) P) g us →
        PastGroups (SpellsStmt (.stmt (.decls pos ds))) P g us := by
    rintro g' us ⟨g, ts, ⟨l, hl, hP⟩, hds⟩
    exact ⟨g, _, hP, .decls pos hl hk hds⟩
  split
  · next htype =>
    subst htype
    exact .bind (reads_grouped (routine_typeSpec _) (fun hm => reads_typeSpec (by omega)) _ (by omega))
      fun ds => .pure (hdecls ds) (by omega)
  · next htype =>
    have hvar : keyword = .varWord := hk.resolve_right htype
    subst hvar
    exact .bind (reads_grouped (routine_varSpec _) (fun hm => reads_varSpec (by omega)) _ (by omega))
      fun ds => .pure (hdecls ds) (by omega)

/-- A statement, or none where a separator comes at once. -/
def SpellsStmtOrEmpty (s : Stmt) (g : Nat) (ts : List Lexeme) (g' : Nat) (us : List Lexeme) : Prop :=
  SpellsStmt (.stmt s) g ts g' us ∨ (∃ pos, s = .empty pos) ∧ g' = g ∧ us = ts ∧ peek ts = .semi

/-- The rules for statements with a given budget. -/
structure StmtReads (budget : Nat) : Prop where
  block : ∀ {n : Int} {P} after?, 16 * n + 1 ≤ budget →
    Reads n P (block after? budget) (n - 1) fun b => PastGroups (SpellsStmt (.block b)) P
  stmtList : ∀ {n : Int} {P}, 16 * n + 10 ≤ budget →
    Reads n P (stmtList budget) n fun ss => PastGroups (SpellsStmt (.stmts ss)) P
  stmts : ∀ {n : Int} {P}, 16 * n + 9 ≤ budget →
    Reads n P (stmts budget) n fun ss => PastGroups (SpellsStmt (.stmts ss)) P
  stmt? : ∀ {n : Int} {P}, 16 * n + 8 ≤ budget →
    Reads n P (stmt? budget) n fun s? =>
      s?.elim P fun s => PastGroups (SpellsStmtOrEmpty s) P
  ifStmt : ∀ {n : Int} {P}, 16 * n + 7 ≤ budget →
    Reads n P (ifStmt budget) (n - 1) fun s => PastGroups (SpellsStmt (.ifStmt s)) P
  elseBranch : ∀ {n : Int} {P}, 16 * n + 1 ≤ budget →
    Reads n P (elseBranch budget) n fun else? => PastGroups (SpellsStmt (.elseBranch else?)) P
  whileStmt : ∀ {n : Int} {P}, 16 * n + 1 ≤ budget →
    Reads n (fun g ts => P g ts ∧ peek ts = .keyword .whileWord) (whileStmt budget) (n - 1) fun s =>
      PastGroups (SpellsStmt (.stmt s)) P
  forStmt : ∀ {n : Int} {P}, 16 * n + 7 ≤ budget →
    Reads n P (forStmt budget) (n - 1) fun s => PastGroups (SpellsStmt (.stmt s)) P

section

variable (h : StmtReads budget)
include h

/-- The rule for blocks reads what spells one. -/
theorem reads_block_succ (after? : Option Construct) (hn : 16 * n + 1 ≤ ↑(budget + 1)) :
    Reads n P (block after? (budget + 1)) (n - 1) fun b => PastGroups (SpellsStmt (.block b)) P := by
  refine .traced _ (.bind .here fun pos => .gotThen (by decide) ?_ ?_)
  · refine .bind (h.stmtList (by omega)) fun ss => .bind .here fun rbrace =>
      .bind (.want (by decide)) fun _ => .pure ?_ (by omega)
    rintro g' us ⟨r, hr, g, ts, ⟨l, hl, hP⟩, hss⟩
    exact ⟨g, _, hP, .block pos rbrace hl hss hr⟩
  · refine .bind (k := 0) (.complain _) fun _ => .never ?_
    refine (routine_recover _).bind fun _ => routine_here.bind fun rbrace =>
      (routine_got _).bind fun b => ?_
    split
    · exact .done _
    · exact (stmtRoutines budget).stmtList.bind fun ss => routine_here.bind fun _ =>
        (routine_want _).bind fun _ => .done _

/-- The rule for several statements reads what spells them, empty ones before separators included. -/
theorem reads_stmts_succ (hn : 16 * n + 9 ≤ ↑(budget + 1)) :
    Reads n P (stmts (budget + 1)) n fun ss => PastGroups (SpellsStmt (.stmts ss)) P := by
  have hnil (g : Nat) (ts : List Lexeme) (hP : P g ts) :
      PastGroups (SpellsStmt (.stmts [])) P g ts := ⟨g, ts, hP, .nil⟩
  refine .bind .token fun t => ?_
  split
  · exact .pure (fun g ts h => hnil g ts h.1) (Int.le_refl _)
  · refine .known (.bind (h.stmt? (by omega)) fun s? => ?_)
    split
    · exact .pure (fun g ts h => hnil g ts h.1.1) (Int.le_refl _)
    · next s =>
      refine .gotThen (by decide) ?_ (.bind .token fun t' => ?_)
      · refine .bind (h.stmts (by omega)) fun ss => .pure ?_ (by omega)
        rintro g'' vs ⟨g', us, ⟨l, hl, g, ts, ⟨⟨hP, -⟩, -⟩, hs⟩, hss⟩
        rcases hs with hs | ⟨⟨pos, rfl⟩, rfl, rfl, -⟩
        · exact ⟨g, ts, hP, .cons hs hl hss⟩
        · exact ⟨_, _, hP, .empty pos hl hss⟩
      · split
        · next ht' =>
          -- The statement has taken a lexeme, so the rest of the budget suffices for what is left.
          refine .tighten (j := n - 1) (.bind (h.stmts (by omega)) fun ss => .pure ?_ (by omega)) ?_
          · rintro g'' vs ⟨g', us, ⟨⟨⟨g, ts, ⟨⟨hP, -⟩, -⟩, hs⟩, hsemi⟩, hpeek⟩, hss⟩
            rcases hs with hs | ⟨-, -, rfl, hpeek'⟩
            · obtain ⟨rfl, rfl, rfl⟩ := hss.stmts_eq_nil (hpeek.trans ht')
              exact ⟨g, ts, hP, .last hs⟩
            · exact (hsemi hpeek').elim
          · rintro g us ⟨⟨⟨g₀, ts, ⟨-, hlen, -⟩, hs⟩, hsemi⟩, -⟩
            rcases hs with hs | ⟨-, -, rfl, hpeek'⟩
            · have := hs.length_le
              simp only [StmtPhrase.least] at this
              omega
            · exact (hsemi hpeek').elim
        · refine .bind (k := 0) (.complain _) fun _ => .never ?_
          exact (routine_recover _).bind fun _ => ((routine_got _).bind fun _ => .done ()).bind
            fun _ => (stmtRoutines budget).stmts.bind fun ss => .done _

/-- The rule for statements reads what spells one, or nothing. -/
theorem reads_stmt?_succ (hn : 16 * n + 8 ≤ ↑(budget + 1)) :
    Reads n P (stmt? (budget + 1)) n fun s? => s?.elim P fun s => PastGroups (SpellsStmtOrEmpty s) P := by
  -- Six tokens start a simple statement; the keywords have a rule each.
  have hsimple (t : Token) : Reads n (fun g ts => P g ts ∧ peek ts = t)
      (do return some (← simpleStmt budget)) n fun s? =>
        s?.elim P fun s => PastGroups (SpellsStmtOrEmpty s) P := by
    refine .bind (reads_simpleStmt (by omega)) fun s => .pure ?_ (by omega)
    rintro g us ⟨ts, ⟨hP, -⟩, hs⟩
    exact ⟨g, ts, hP, .inl (.simple hs)⟩
  have hstmt {m : ParseM Stmt} {P' : Outlook}
      (hm : Reads n P' m (n - 1) fun s => PastGroups (SpellsStmt (.stmt s)) P) :
      Reads n P' (do return some (← m)) n fun s? =>
        s?.elim P fun s => PastGroups (SpellsStmtOrEmpty s) P := by
    refine .bind hm fun s => .pure ?_ (by omega)
    rintro g' us ⟨g, ts, hP, hs⟩
    exact ⟨g, ts, hP, .inl hs⟩
  refine .traced _ (.bind .here fun pos => .bind .token fun t => ?_)
  split
  iterate 6 exact hsimple _
  · exact hstmt (reads_declStmt .varWord (.inl rfl) (by omega))
  · exact hstmt (reads_declStmt .typeWord (.inr rfl) (by omega))
  · refine .bind (h.block none (by omega)) fun b => .pure ?_ (by omega)
    rintro g' us ⟨g, ts, ⟨hP, -⟩, hb⟩
    exact ⟨g, ts, hP, .inl (.nested hb)⟩
  · refine hstmt ((h.forStmt (by omega)).weaken (fun _ _ h => h.1) (fun _ _ _ h => h) (by omega))
  · exact hstmt (h.whileStmt (by omega))
  · refine .bind (h.ifStmt (by omega)) fun s => .pure ?_ (by omega)
    rintro g' us ⟨g, ts, ⟨hP, -⟩, hs⟩
    exact ⟨g, ts, hP, .inl (.branch hs)⟩
  · refine .bind (.nextAfter (by simp)) fun _ => .bind .token fun t => ?_
    split
    · refine .pure ?_ (by omega)
      rintro g us ⟨⟨l, hl, hP⟩, -⟩
      exact ⟨g, _, hP, .inl (.returnStmt pos hl .none)⟩
    · refine .bind (reads_expr budget (by omega)) fun x => .pure ?_ (by omega)
      rintro g us ⟨ts, ⟨⟨l, hl, hP⟩, -⟩, hx⟩
      exact ⟨g, _, hP, .inl (.returnStmt pos hl (.some hx))⟩
  · refine .bind (.nextAfter (by simp)) fun _ => .pure ?_ (by omega)
    rintro g us ⟨l, hl, hP⟩
    exact ⟨g, _, hP, .inl (.breakStmt pos hl)⟩
  · refine .pure ?_ (Int.le_refl _)
    -- The semicolon of an empty statement is left for the list to take.
    rintro g ts ⟨hP, hpeek⟩
    exact ⟨g, ts, hP, .inr ⟨⟨pos, rfl⟩, rfl, rfl, hpeek⟩⟩
  · exact .pure (fun _ _ h => h.1) (Int.le_refl _)

/-- The rule for `if` reads what spells one. -/
theorem reads_ifStmt_succ (hn : 16 * n + 7 ≤ ↑(budget + 1)) :
    Reads n P (ifStmt (budget + 1)) (n - 1) fun s => PastGroups (SpellsStmt (.ifStmt s)) P := by
  refine .traced _ (.bind .here fun pos => .bind (reads_clause .ifClause (by simp) (by omega))
    fun clause => .bind (h.block _ (by omega)) fun b => .bind (h.elseBranch (by omega)) fun else? =>
      .pure ?_ (by omega))
  rintro g'' ws ⟨g', vs, ⟨g, us, ⟨ts, ⟨l, hl, hP⟩, hclause⟩, hb⟩, he⟩
  obtain ⟨init?, cond, rfl⟩ : ∃ init? cond, clause = ⟨init?, some cond, none⟩ := by
    cases hclause with
    | cond | ifParts => exact ⟨_, _, rfl⟩
  exact ⟨g, _, hP, .ifStmt pos hl hclause hb he⟩

/-- The rule for `else` reads what spells it. -/
theorem reads_elseBranch_succ (hn : 16 * n + 1 ≤ ↑(budget + 1)) :
    Reads n P (elseBranch (budget + 1)) n fun else? =>
      PastGroups (SpellsStmt (.elseBranch else?)) P := by
  refine .gotThen (by simp) (.bind .token fun t => ?_) ?_
  · split
    · refine .bind (h.ifStmt (by omega)) fun s => .pure ?_ (by omega)
      rintro g' us ⟨g, ts, ⟨⟨l, hl, hP⟩, -⟩, hs⟩
      exact ⟨g, _, hP, .elseIf hl hs⟩
    · refine .bind (h.block _ (by omega)) fun b => .pure ?_ (by omega)
      rintro g' us ⟨g, ts, ⟨⟨l, hl, hP⟩, -⟩, hb⟩
      exact ⟨g, _, hP, .elseBlock hl hb⟩
    · exact .bind (k := 0) (.complain _) fun _ =>
        .never ((routine_recover _).bind fun _ => .done none)
  · exact .pure (fun g ts h => ⟨g, ts, h.1, .noElse⟩) (Int.le_refl _)

/-- The rule for `while` reads what spells one. -/
theorem reads_whileStmt_succ (hn : 16 * n + 1 ≤ ↑(budget + 1)) :
    Reads n (fun g ts => P g ts ∧ peek ts = .keyword .whileWord) (whileStmt (budget + 1)) (n - 1)
      fun s => PastGroups (SpellsStmt (.stmt s)) P := by
  refine .traced _ (.bind .here fun pos => .bind (.nextAfter (by simp)) fun _ =>
    .bind .token fun t => ?_)
  split
  · exact .bind (k := 0) (.complain _) fun _ => .never (routine_hole.bind fun cond =>
      ((stmtRoutines budget).block _).bind fun b => .done _)
  · refine .bind (reads_expr budget (by omega)) fun cond => .bind (h.block _ (by omega)) fun b =>
      .pure ?_ (by omega)
    rintro g' vs ⟨g, us, ⟨ts, ⟨⟨l, hl, hP⟩, -⟩, hx⟩, hb⟩
    exact ⟨g, _, hP, .whileStmt pos hl hx hb⟩

/-- The rule for `for` reads what spells one. -/
theorem reads_forStmt_succ (hn : 16 * n + 7 ≤ ↑(budget + 1)) :
    Reads n P (forStmt (budget + 1)) (n - 1) fun s => PastGroups (SpellsStmt (.stmt s)) P := by
  refine .traced _ (.bind .here fun pos => .bind (reads_clause .forClause (by simp) (by omega))
    fun clause => .bind (h.block _ (by omega)) fun b => .pure ?_ (by omega))
  rintro g' vs ⟨g, us, ⟨ts, ⟨l, hl, hP⟩, hclause⟩, hb⟩
  exact ⟨g, _, hP, .forStmt pos hl hclause hb⟩

end

/-- The rules for statements read what spells them, whatever their budget. -/
theorem stmtReads (budget : Nat) : StmtReads budget := by
  -- The rules for statements call one another, so all of them go through one induction on the budget.
  induction budget with
  | zero =>
    have hr := stmtRoutines 0
    exact {
      block := fun after? _ => .overrun (hr.block after?) (by omega)
      stmtList := fun _ => .overrun hr.stmtList (by omega)
      stmts := fun _ => .overrun hr.stmts (by omega)
      stmt? := fun _ => .overrun hr.stmt? (by omega)
      ifStmt := fun _ => .overrun hr.ifStmt (by omega)
      elseBranch := fun _ => .overrun hr.elseBranch (by omega)
      whileStmt := fun _ => .overrun hr.whileStmt (by omega)
      forStmt := fun _ => .overrun hr.forStmt (by omega) }
  | succ budget ih =>
    exact {
      block := fun after? hn => reads_block_succ ih after? hn
      stmtList := fun hn => .traced _ (ih.stmts (by omega))
      stmts := fun hn => reads_stmts_succ ih hn
      stmt? := fun hn => reads_stmt?_succ ih hn
      ifStmt := fun hn => reads_ifStmt_succ ih hn
      elseBranch := fun hn => reads_elseBranch_succ ih hn
      whileStmt := fun hn => reads_whileStmt_succ ih hn
      forStmt := fun hn => reads_forStmt_succ ih hn }

end ParseM

end FrontEnd
