import FrontEnd.Proofs.Grammar.Taken.Stmt

/-!
# What is spelled is taken: files

Lexemes that spell the declarations of a file are taken by the rules for them, up to `takes_file`.
-/

namespace FrontEnd

namespace ParseM

variable {g g' : Nat} {ts us vs : List Lexeme} {l : Lexeme} {budget : Nat}

/-- Where no type starts, none is taken. -/
theorem takes_type?_none (h : peek ts ≠ .name ∧ peek ts ≠ .lbrack) (hb : 1 ≤ budget) :
    Takes g ts (type? budget) (fun x? => x? = none) g ts := by
  obtain ⟨budget, rfl⟩ := Nat.exists_eq_add_of_le' hb
  refine .onToken ?_
  split
  · next hname => exact absurd hname h.1
  · next hlbrack => exact absurd hlbrack h.2
  · exact .pure rfl

/-- A type that may be absent is taken. -/
theorem takes_optionalType {result? : Option Expr} (h : Optionally SpellsType result? ts us)
    (hend : peek us ≠ .name ∧ peek us ≠ .lbrack) (hb : 16 * ts.length + 2 ≤ budget) :
    Takes g ts (type? budget) (fun y? => y?.map Expr.unplaced = result?.map Expr.unplaced) g us := by
  cases h with
  | none => exact (takes_type?_none hend (by omega)).weaken fun y? hy? => by rw [hy?]
  | some hx =>
    refine (takes_type? hx hb).weaken ?_
    rintro y? ⟨y, rfl, hy⟩
    simp only [Option.map_some, hy]

/-- A body that may be absent is taken. -/
theorem takes_funcBody? {body? : Option Block} (h : SpellsBody body? g ts g' us)
    (hend : peek us ≠ .lbrace) (hb : 16 * ts.length + 1 ≤ budget) :
    Takes g ts (funcBody? budget) (fun b? => Block.unplaced? b? = Block.unplaced? body?) g' us := by
  refine .onToken ?_
  cases h with
  | none =>
    rw [if_neg hend]
    exact .pure rfl
  | @some b _ _ _ _ h =>
    rw [if_pos h.block_first]
    have hbody : Takes g ts (funcBody budget) (fun b' => b'.unplaced = b.unplaced) g' us :=
      .onMove .enterFunction (fun hp => hp.congr rfl rfl rfl rfl rfl) (.bind (takes_block h none hb)
        fun b' hb' => .onMove .leaveFunction (fun hp => hp.congr rfl rfl rfl rfl rfl) (.pure hb'))
    exact .bind hbody fun b' hb' => .pure (by simp only [Block.unplaced?, hb'])

/-- The parameter is there, and it is the given one up to positions. -/
def SameParam (param : Param) (param? : Option Param) : Prop :=
  param?.map Param.unplaced = some param.unplaced

/-- A parameter is taken. -/
theorem takes_param? {param : Param} (what : Expected) (follow : List Token)
    (h : SpellsParam param ts us) (hb : 16 * ts.length ≤ budget) :
    Takes g ts (param? what follow budget) (SameParam param) g us := by
  cases h with
  | mk pos pos' hl ht =>
    rw [List.length_cons] at hb
    refine .onHere fun q => .onToken ?_
    rw [peek_cons, hl, if_pos rfl]
    refine on_ident hl fun q' => .bind (takes_type? ht (by omega)) ?_
    rintro y? ⟨y, rfl, hy⟩
    exact .pure (by simp only [SameParam, Option.map_some, Param.unplaced, Ident.unplaced, hy])

/-- Parameters are taken with their parentheses. -/
theorem takes_params {params : List Param} {r : Lexeme} (hl : l.token = .lparen)
    (h : Listed SpellsParam .comma params ts (r :: us)) (hr : r.token = .rparen)
    (hb : 16 * ts.length + 1 ≤ budget) : Takes g (l :: ts) (ParseM.params budget)
      (fun ps => ps.map Param.unplaced = params.map Param.unplaced) g us := by
  have hlist : Takes g ts (list .parameters (param? .parameter paramFollow budget) budget)
      (fun ps? => ps?.map (Option.map Param.unplaced) = params.map fun p => some p.unplaced) g us := by
    refine takes_listed .parameters h hr ?_ ?_ (n := ts.length) (Nat.le_refl _) hb
    · rintro p ts us hp
      refine ⟨hp.length_lt, ?_⟩
      obtain ⟨_, _, hl, _⟩ := hp
      simp [hl, ListKind.closer]
    · exact fun hp hlen _ => takes_param? _ _ hp (by omega)
  refine .onGot hl (.bind hlist fun ps? hps? => .pure ?_)
  exact map_filterMap_id hps?

/-- A parameter of an operator is taken with its parentheses. -/
theorem takes_operandParam? {param : Param} {r : Lexeme} (what : Expected) (hl : l.token = .lparen)
    (h : SpellsParam param ts (r :: us)) (hr : r.token = .rparen) (hb : 16 * ts.length ≤ budget) :
    Takes g (l :: ts) (operandParam? what budget) (SameParam param) g us := by
  refine .onGot hl (.bind (takes_param? _ _ h hb) fun p? hp? => ?_)
  obtain ⟨p, rfl, hp⟩ := Option.map_eq_some_iff.mp hp?
  exact .onWant hr (.pure hp?)

/-- The name of an operator to be declared is taken. -/
theorem takes_overload? {overload : Overload} (hl : l.token = .name)
    (ho : Overload.ofName? l.literal = some overload) :
    Takes g (l :: ts) overload? (fun o? => o? = some overload) g ts := by
  refine .onToken ?_
  rw [peek_cons, hl, if_pos rfl]
  refine on_ident hl fun pos => ?_
  rw [ho]
  exact .onRemark (.pure rfl)

variable {ws xs : List Lexeme}

/-- A function is taken. -/
theorem takes_funcSpec (pos : Pos) {params : List Param} {result? : Option Expr} {body? : Option Block}
    {n r : Lexeme} (hn : n.token = .name) (hl : l.token = .lparen)
    (hps : Listed SpellsParam .comma params ts (r :: us)) (hr : r.token = .rparen)
    (hresult : Optionally SpellsType result? us vs) (hbody : SpellsBody body? g vs g' ws)
    (hend : (peek ws).endsSpec = true) (hb : 16 * ts.length + 16 ≤ budget) :
    Takes g (n :: l :: ts) (funcSpec budget)
      (SameSpec (.funcSpec ⟨pos, n.literal⟩ params result? body?)) g' ws := by
  have hlen := hps.length_le SpellsParam.length_lt
  have hlen' := hresult.length_le SpellsType.length_lt
  rw [List.length_cons] at hlen
  have hne {t : Token} (ht : t.endsSpec = false) : peek ws ≠ t := by
    rintro rfl
    rw [hend] at ht
    cases ht
  -- after the result there is a body, or else what comes after the declaration
  have hvs : peek vs ≠ .name ∧ peek vs ≠ .lbrack := by
    cases hbody with
    | none => exact ⟨hne rfl, hne rfl⟩
    | some hblock => simp [hblock.block_first]
  refine .traced _ (.onToken ?_)
  rw [peek_cons, hn, if_pos rfl]
  refine on_ident hn fun pos' => .onRemark (.bind (takes_params hl hps hr (by omega)) fun ps hps' =>
    .bind (takes_optionalType hresult hvs (by omega)) fun y? hy? =>
      .bind (takes_funcBody? hbody (hne rfl) (by omega)) fun b? hb? => .pure ?_)
  simp only [SameSpec, Option.map_some, Spec.unplaced, Ident.unplaced, hps', hy?, hb?]

/-- The result and the body of an operator are taken. -/
theorem takes_operResult (overload : Overload) {lhs lhs' rhs rhs' : Param} {result : Expr} {body : Block}
    (hlhs : lhs'.unplaced = lhs.unplaced) (hrhs : rhs'.unplaced = rhs.unplaced)
    (hresult : SpellsType result ts us) (hbody : SpellsStmt (.block body) g us g' vs)
    (hend : peek vs ≠ .lbrace) (hb : 16 * ts.length + 2 ≤ budget) :
    Takes g ts (operResult lhs' overload rhs' budget)
      (SameSpec (.operSpec lhs overload rhs result (some body))) g' vs := by
  have hlen := hresult.length_lt
  refine .bind (takes_type? hresult hb) ?_
  rintro y? ⟨y, rfl, hy⟩
  refine .bind (takes_funcBody? (.some hbody) hend (by omega)) fun b? hb? => ?_
  cases b? with
  | none => cases hb?
  | some b =>
    have hb' := Option.some.inj hb?
    refine .pure ?_
    simp only [SameSpec, Option.map_some, Spec.unplaced, Block.unplaced?, hlhs, hrhs, hy, hb']

/-- An operator is taken. -/
theorem takes_operSpec {overload : Overload} {lhs rhs : Param} {result : Expr} {body : Block}
    {n r l' r' : Lexeme} (hl : l.token = .lparen) (hlhs : SpellsParam lhs ts (r :: n :: l' :: us))
    (hr : r.token = .rparen) (hn : n.token = .name) (ho : Overload.ofName? n.literal = some overload)
    (hl' : l'.token = .lparen) (hrhs : SpellsParam rhs us (r' :: vs)) (hr' : r'.token = .rparen)
    (hresult : SpellsType result vs ws) (hbody : SpellsStmt (.block body) g ws g' xs)
    (hend : peek xs ≠ .lbrace) (hb : 16 * ts.length ≤ budget) :
    Takes g (l :: ts) (operSpec budget)
      (SameSpec (.operSpec lhs overload rhs result (some body))) g' xs := by
  have hlen := hlhs.length_lt
  have hlen' := hrhs.length_lt
  simp only [List.length_cons] at hlen hlen'
  refine .traced _ (.bind (takes_operandParam? _ hl hlhs hr (by omega)) fun p? hp? => ?_)
  obtain ⟨p, rfl, hp⟩ := Option.map_eq_some_iff.mp hp?
  refine .bind (takes_overload? hn ho) ?_
  rintro o? rfl
  refine .bind (takes_operandParam? _ hl' hrhs hr' (by omega)) fun q? hq? => ?_
  obtain ⟨q, rfl, hq⟩ := Option.map_eq_some_iff.mp hq?
  exact takes_operResult overload hp hq hresult hbody hend (by omega)

/-- The action for the keyword of a declaration takes it. -/
theorem takes_top {keyword : Keyword} {ds : List Decl} (h : SpellsTop keyword ds g ts g' us)
    (hend : (peek us).endsSpec = true) (hb : 16 * ts.length ≤ budget) :
    ∃ action, topLevelAt (peek ts) budget = some action ∧
      Takes g ts action (fun ds' => Decl.unplacedEach ds' = Decl.unplacedEach ds) g' us := by
  have hbrace : peek us ≠ .lbrace := fun h => by rw [h] at hend; cases hend
  -- A specification on its own makes a list of one declaration.
  have hsingle {pos : Pos} {spec : Spec} {s? : Option Spec} (hs : SameSpec spec s?) (pos' : Pos) :
      Decl.unplacedEach (s?.map (.mk pos' none)).toList =
        Decl.unplacedEach [.mk pos none spec] := by
    obtain ⟨s, rfl, hs'⟩ := Option.map_eq_some_iff.mp hs
    simp only [Option.map_some, Option.toList, Decl.unplacedEach, Decl.unplaced, hs']
  cases h with
  -- The three keywords with groups differ in the rule for their specification.
  | @group keyword _ l _ ts _ _ hl hk hds =>
    rw [List.length_cons] at hb
    rw [peek_cons, hl]
    rcases hk with rfl | rfl | rfl
    · refine ⟨_, rfl, .onHere fun pos => .onNext ?_⟩
      exact takes_grouped hds hend pos (n := ts.length)
        (fun h hk _ _ => takes_importSpec h hk) (Nat.le_refl _) (by omega)
    · refine ⟨_, rfl, .onHere fun pos => .onNext ?_⟩
      exact takes_grouped hds hend pos (n := ts.length)
        (fun h hk _ hlen => takes_typeSpec h hk (by omega)) (Nat.le_refl _) (by omega)
    · refine ⟨_, rfl, .onHere fun pos => .onNext ?_⟩
      exact takes_grouped hds hend pos (n := ts.length)
        (fun h hk hend hlen => takes_varSpec h hk hend (by omega)) (Nat.le_refl _) (by omega)
  | func pos pos' hk hn hl hps hr hresult hbody =>
    simp only [List.length_cons] at hb
    rw [peek_cons, hk]
    refine ⟨_, rfl, .onHere fun q => .onNext (.bind
      (takes_funcSpec pos' hn hl hps hr hresult hbody hend (by omega)) fun s? hs? => .pure ?_)⟩
    exact hsingle hs? q
  | oper pos hk hl hlhs hr hn ho hl' hrhs hr' hresult hbody =>
    simp only [List.length_cons] at hb
    rw [peek_cons, hk]
    refine ⟨_, rfl, .onHere fun q => .onNext (.bind
      (takes_operSpec hl hlhs hr hn ho hl' hrhs hr' hresult hbody hbrace (by omega)) fun s? hs? => .pure ?_)⟩
    exact hsingle hs? q

/-! ## Files -/

/-- The separator behind a declaration is taken. -/
theorem takes_endTopLevel (before : Nat) (hl : l.token = .semi) :
    Takes g (l :: ts) (endTopLevel before) (fun _ => True) g ts := by
  refine .onToken ?_
  rw [if_neg (by simp [hl])]
  exact .onGot hl (.pure trivial)

/-- At the end of the input no separator is needed. -/
theorem takes_endTopLevel_eof (before : Nat) :
    Takes g [] (endTopLevel before) (fun _ => True) g [] := by
  refine .onToken ?_
  rw [if_pos peek_nil]
  exact .pure trivial

/-- A declaration and what comes after it. -/
theorem takes_topLevels_step {afterImport : Bool} {keyword : Keyword} {ds rest : List Decl} {g'' : Nat}
    (h : SpellsTop keyword ds g ts g' us) (hend : (peek us).endsSpec = true)
    (himport : keyword = .importWord → afterImport = true) (hb : 16 * ts.length ≤ budget)
    (hsep : ∀ before, Takes g' us (endTopLevel before) (fun _ => True) g' vs)
    (hrest : Takes g' vs (topLevels (decide (keyword = .importWord)) budget)
      (fun ds' => Decl.unplacedEach ds' = Decl.unplacedEach rest) g'' []) :
    Takes g ts (topLevels afterImport (budget + 1))
      (fun ds' => Decl.unplacedEach ds' = Decl.unplacedEach (ds ++ rest)) g'' [] := by
  obtain ⟨action, haction, hds⟩ := takes_top h hend hb
  have hkeyword := h.first
  rw [hkeyword] at haction
  have hword : decide (Token.keyword keyword = .keyword .importWord) = decide (keyword = .importWord) :=
    decide_eq_decide.mpr (by rw [Token.keyword.injEq])
  -- An import stands where imports may come, so the parser has no complaint about it.
  have hlate : (decide (keyword = .importWord) && !afterImport) = false := by
    by_cases hk : keyword = .importWord
    · rw [himport hk, Bool.not_true, Bool.and_false]
    · rw [decide_eq_false hk, Bool.false_and]
  refine .onToken ?_
  rw [hkeyword, if_neg (by simp), if_neg (by simp)]
  show Reaches g ts (ite _ _ _) _ _ _ _
  rw [hword, if_neg (by rw [hlate]; exact Bool.false_ne_true), haction]
  refine .onGet fun _ p _ => .bind hds fun ds' hds' => .bind (hsep p.count) fun _ _ => .bind hrest
    fun rest' hrest' => .pure ?_
  rw [Decl.unplacedEach_append, Decl.unplacedEach_append, hds', hrest']

/-- At the end of the input there are no more declarations. -/
theorem takes_topLevels_nil (afterImport : Bool) (hb : 1 ≤ budget) :
    Takes g [] (topLevels afterImport budget) (fun ds => ds = []) g [] := by
  obtain ⟨budget, rfl⟩ := Nat.exists_eq_add_of_le' hb
  refine .onToken ?_
  rw [if_pos peek_nil]
  exact .pure rfl

/-- The declarations of a file are taken. -/
theorem takes_topLevels {afterImport : Bool} {ds : List Decl} (h : SpellsDecls afterImport ds g ts g')
    (hb : 16 * ts.length + 2 ≤ budget) : Takes g ts (topLevels afterImport budget)
      (fun ds' => Decl.unplacedEach ds' = Decl.unplacedEach ds) g' [] := by
  -- Item by item; each takes a lexeme, which pays for the next round.
  induction h generalizing budget with
  | nil => exact (takes_topLevels_nil _ (by omega)).weaken fun ds hds => by rw [hds]
  | empty hl _ ih =>
    rw [List.length_cons] at hb
    obtain ⟨budget, rfl⟩ := Nat.exists_eq_add_of_le' (show 1 ≤ budget by omega)
    refine .onToken ?_
    rw [peek_cons, hl, if_neg (by simp), if_pos rfl]
    exact .onNext (ih (by omega))
  | @last afterImport keyword ds g ts g' h himport =>
    obtain ⟨budget, rfl⟩ := Nat.exists_eq_add_of_le' (show 1 ≤ budget by omega)
    have hnil : Takes g' [] (topLevels (decide (keyword = .importWord)) budget)
        (fun ds => Decl.unplacedEach ds = Decl.unplacedEach []) g' [] :=
      (takes_topLevels_nil _ (by omega)).weaken fun ds hds => by rw [hds]
    rw [← List.append_nil ds]
    exact takes_topLevels_step h rfl himport (by omega) takes_endTopLevel_eof hnil
  | cons h hl himport _ ih =>
    have hlen := h.length_lt
    rw [List.length_cons] at hlen
    obtain ⟨budget, rfl⟩ := Nat.exists_eq_add_of_le' (show 1 ≤ budget by omega)
    exact takes_topLevels_step h (by rw [peek_cons, hl]; rfl) himport (by omega)
      (fun before => takes_endTopLevel before hl) (ih (by omega))

/-- Whatever spells a file is taken as that file. -/
theorem takes_file {f : File} (h : SpellsFile f ts) (hb : 16 * ts.length ≤ budget) :
    ∃ g, Takes 0 ts (file budget) (fun r => ∃ f', r = .ok f' ∧ f'.unplaced = f.unplaced) g [] := by
  cases h with
  | @mk pos pos' ds k n l ts g hk hn hl hds =>
    simp only [List.length_cons] at hb
    refine ⟨g, .traced _ (.onHere fun q => .onCurrent (.onGot hk (on_ident hn fun q' => .onRemark
      (.onWant hl (.bind (takes_topLevels hds (by omega)) fun ds' hds' => .pure ⟨_, rfl, ?_⟩)))))⟩
    simp only [File.unplaced, Ident.unplaced, hds']

end ParseM

end FrontEnd
