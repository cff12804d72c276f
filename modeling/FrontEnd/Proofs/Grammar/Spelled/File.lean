import FrontEnd.Proofs.Grammar.Spelled.Stmt

/-!
# What has been read without complaint: files

The rules for what stands at the top of a file, up to `reads_file`.
-/

namespace FrontEnd

namespace ParseM

variable {n k : Int} {P : Outlook} {budget : Nat}

/-- The rule for bodies of functions reads what spells one, or there is none. -/
theorem reads_funcBody? (hn : 16 * n + 1 ≤ budget) :
    Reads n P (funcBody? budget) n fun body? => PastGroups (SpellsBody body?) P := by
  have hbody : Reads n P (funcBody budget) n fun b => PastGroups (SpellsStmt (.block b)) P := by
    have henter : Reads n P (modify Move.enterFunction.apply) n fun _ => P :=
      .move .enterFunction fun h => h.congr rfl rfl rfl rfl rfl
    have hleave (b : Block) : Reads (n - 1) (PastGroups (SpellsStmt (.block b)) P)
        (modify Move.leaveFunction.apply) (n - 1) fun _ => PastGroups (SpellsStmt (.block b)) P :=
      .move .leaveFunction fun h => h.congr rfl rfl rfl rfl rfl
    exact henter.bind fun _ => .bind ((stmtReads budget).block none hn) fun b => (hleave b).bind
      fun _ => .pure (fun _ _ h => h) (by omega)
  refine .bind .token fun t => ?_
  split
  · refine .bind (hbody.weaken (fun _ _ h => h.1) (fun _ _ _ h => h) (Int.le_refl _)) fun b =>
      .pure ?_ (Int.le_refl _)
    rintro g' us ⟨g, ts, hP, hb⟩
    exact ⟨g, ts, hP, .some hb⟩
  · exact .pure (fun g ts h => ⟨g, ts, h.1, .none⟩) (Int.le_refl _)

/-- The rule for one parameter reads what spells it. -/
theorem reads_param? (what : Expected) (follow : List Token) (hn : 16 * n ≤ budget) :
    Reads n P (param? what follow budget) (n - 1) fun param? =>
      Past (fun ts us => ∃ param, param? = some param ∧ SpellsParam param ts us) P := by
  refine .bind .here fun pos => .bind .token fun t => ?_
  split
  · refine .bind .ident fun name => .bind (reads_type? budget (by omega)) fun type? => ?_
    split
    · refine .pure ?_ (Int.le_refl _)
      rintro g us ⟨ts, ⟨l, pos', hl, rfl, hP, -⟩, htype⟩
      exact ⟨_, hP, _, rfl, .mk pos pos' hl htype⟩
    · exact .bind (k := 0) (.complain _) fun _ =>
        .never ((routine_recover _).bind fun _ => .done none)
  · exact .bind (k := 0) (.complain _) fun _ =>
      .never ((routine_recover _).bind fun _ => .done none)

/-- The rule for parameters reads what spells them. -/
theorem reads_params (hn : 16 * n ≤ budget) :
    Reads n P (params budget) (n - 1) fun params =>
      After .rparen (Past (Listed SpellsParam .comma params) (After .lparen P)) := by
  refine .gotThen (by decide) ?_ ?_
  · refine .bind (.list (routine_param? _ _ _) (by omega) fun hm => reads_param? _ _ (by omega))
      fun params? => .pure ?_ (by omega)
    rintro g us ⟨r, hr, ts, hP, hps⟩
    exact ⟨r, hr, ts, hP, hps.filterMap⟩
  · exact .bind (k := 0) (.complain _) fun _ => .never (.done [])

/-- The rule for a parameter of an operator reads what spells it. -/
theorem reads_operandParam? (what : Expected) (hn : 16 * n ≤ budget) :
    Reads n P (operandParam? what budget) (n - 1) fun param? g us => ∃ param, param? = some param ∧
      After .rparen (Past (SpellsParam param) (After .lparen P)) g us := by
  refine .gotThen (by decide) ?_ ?_
  · refine .bind (reads_param? _ _ (by omega)) fun param? => ?_
    split
    · refine .bind (.want (by decide)) fun _ => .pure ?_ (by omega)
      rintro g us ⟨r, hr, ts, hP, _, hp, hparam⟩
      cases hp
      exact ⟨_, rfl, r, hr, ts, hP, hparam⟩
    · refine .impossible (.done none) ?_
      rintro g us ⟨_, -, _, hp, -⟩
      cases hp
  · exact .bind (k := 0) (.complain _) fun _ =>
      .never ((routine_recover _).bind fun _ => .done none)

/-- The rule for the operator that is declared reads its name. -/
theorem reads_overload? : Reads n P overload? (n - 1) fun overload? g us =>
    ∃ overload l, overload? = some overload ∧ l.token = .name ∧
      Overload.ofName? l.literal = some overload ∧ P g (l :: us) := by
  refine .bind .token fun t => ?_
  split
  · refine .bind .ident fun name => ?_
    split
    · next overload hname =>
      refine .bind (.remark _) fun _ => .pure ?_ (Int.le_refl _)
      rintro g us ⟨l, pos, hl, rfl, hP, -⟩
      exact ⟨overload, l, rfl, hl, hname, hP⟩
    · exact .bind (k := 0) (.complainAt _ _) fun _ =>
        .never ((routine_recover _).bind fun _ => .done none)
  · exact .bind (k := 0) (.complain _) fun _ =>
      .never ((routine_recover _).bind fun _ => .done none)

/-- A function whose keyword has been passed is a function. -/
theorem reads_funcSpec (hn : 16 * n ≤ budget) :
    Reads n (After (.keyword .funcWord) P) (funcSpec budget) n fun spec? =>
      PastGroups (fun g ts g' us => ∀ pos, SpellsTop .funcWord
        (spec?.map (.mk pos none)).toList g ts g' us) P := by
  refine .traced _ (.bind .token fun t => ?_)
  split
  · refine .bind .ident fun name => .bind (.remark _) fun _ => .bind (reads_params (by omega))
      fun params => .bind (reads_type? budget (by omega)) fun result? =>
        .bind (reads_funcBody? (by omega)) fun body? => .pure ?_ (by omega)
    rintro g' ws ⟨g, vs, hresult, hbody⟩
    -- The result may be missing; both ways the lexemes up to the body are known.
    obtain ⟨us, ⟨r, hr, ts, ⟨l, hl, n, pos', hn, rfl, ⟨k, hk, hP⟩, -⟩, hps⟩, htype⟩ :
        Past (Optionally SpellsType result?) _ g vs := by
      cases result? with
      | none => exact ⟨vs, hresult.1, .none⟩
      | some x =>
        obtain ⟨us, h, hx⟩ := hresult
        exact ⟨us, h, .some hx⟩
    exact ⟨g, _, hP, fun pos => .func pos pos' hk hn hl hps hr htype hbody⟩
  · exact .bind (k := 0) (.complain _) fun _ =>
      .never ((routine_recover _).bind fun _ => .done none)

/-- An operator whose keyword has been passed is an operator. -/
theorem reads_operSpec (hn : 16 * n ≤ budget) :
    Reads n (After (.keyword .operWord) P) (operSpec budget) n fun spec? =>
      PastGroups (fun g ts g' us => ∀ pos, SpellsTop .operWord
        (spec?.map (.mk pos none)).toList g ts g' us) P := by
  -- Operand, operator, operand, type, body: where one of them is missing nothing is read and the phrase is
  -- impossible.
  refine .traced _ (.bind (reads_operandParam? _ (by omega)) fun lhs? => ?_)
  split
  · refine .impossible (.done none) ?_
    rintro g us ⟨_, h, -⟩
    cases h
  · refine .bind reads_overload? fun overload? => ?_
    split
    · refine .impossible (.done none) ?_
      rintro g us ⟨_, _, h, -⟩
      cases h
    · refine .bind (reads_operandParam? _ (by omega)) fun rhs? => ?_
      split
      · refine .impossible (.done none) ?_
        rintro g us ⟨_, h, -⟩
        cases h
      · refine .bind (reads_type? budget (by omega)) fun result? => ?_
        split
        · refine .bind (reads_funcBody? (by omega)) fun body? => ?_
          split
          · refine .pure ?_ (by omega)
            rintro g' xs ⟨g, ws, ⟨vs, ⟨rhs, hrhs, r', hr', us, ⟨l', hl', overload, n, ho, hn, hname,
              lhs, hlhs, r, hr, ts, ⟨l, hl, k, hk, hP⟩, hparam⟩, hparam'⟩, hresult⟩, hbody⟩
            cases hrhs
            cases hlhs
            cases ho
            cases hbody with
            | some hb =>
              exact ⟨g, _, hP, fun pos => .oper pos hk hl hparam hr hn hname hl' hparam' hr' hresult hb⟩
          · exact .bind (k := 0) (.complain _) fun _ => .never (.done _)
        · exact .bind (k := 0) (.complain _) fun _ =>
            .never ((routine_recover _).bind fun _ => .done none)

/-- The declarations for a keyword at the current token have been read. -/
theorem reads_topLevelAt {keyword : Keyword} {action : ParseM (List Decl)}
    (ha : topLevelAt (.keyword keyword) budget = some action) (hn : 16 * n ≤ budget) :
    Reads n (fun g ts => P g ts ∧ peek ts = .keyword keyword) action (n - 1) fun ds =>
      PastGroups (SpellsTop keyword ds) P := by
  -- Two shapes of an item, with and without a group, read once each.
  have group {k : Keyword} {spec : ParseM (Option Spec)}
      (hk : k = .importWord ∨ k = .typeWord ∨ k = .varWord) (hspec : Routine spec)
      (hr : ∀ {m : Int} {P}, m ≤ n - 1 →
        Reads m P spec (m - 1) fun spec? => Past (Specifies k spec?) P) :
      Reads n (fun g ts => P g ts ∧ peek ts = .keyword k) (do
          let pos ← here
          next
          grouped k pos spec budget) (n - 1) fun ds => PastGroups (SpellsTop k ds) P := by
    refine .bind .here fun pos => .bind (.nextAfter (by simp)) fun _ =>
      (reads_grouped hspec hr pos (by omega)).weaken (fun _ _ h => h) ?_ (by omega)
    rintro ds g' us ⟨g, ts, ⟨l, hl, hP⟩, hds⟩
    exact ⟨g, _, hP, .group hl hk hds⟩
  have single {k : Keyword} {spec : ParseM (Option Spec)}
      (hr : Reads (n - 1) (After (.keyword k) P) spec (n - 1) fun spec? =>
        PastGroups (fun g ts g' us => ∀ pos, SpellsTop k (spec?.map (.mk pos none)).toList g ts g' us) P) :
      Reads n (fun g ts => P g ts ∧ peek ts = .keyword k) (do
          let pos ← here
          next
          return ((← spec).map (Decl.mk pos none)).toList) (n - 1) fun ds =>
        PastGroups (SpellsTop k ds) P := by
    refine .bind .here fun pos => .bind (.nextAfter (by simp)) fun _ => .bind hr fun spec? =>
      .pure ?_ (Int.le_refl _)
    rintro g' us ⟨g, ts, hP, hspec⟩
    exact ⟨g, ts, hP, hspec pos⟩
  cases keyword with
  | importWord =>
    exact Option.some.inj ha ▸ group (.inl rfl) routine_importSpec fun _ => reads_importSpec
  | typeWord =>
    exact Option.some.inj ha ▸
      group (.inr (.inl rfl)) (routine_typeSpec _) fun hm => reads_typeSpec (by omega)
  | varWord =>
    exact Option.some.inj ha ▸
      group (.inr (.inr rfl)) (routine_varSpec _) fun hm => reads_varSpec (by omega)
  | funcWord => exact Option.some.inj ha ▸ single (reads_funcSpec (by omega))
  | operWord => exact Option.some.inj ha ▸ single (reads_operSpec (by omega))
  | _ => cases ha

/-- A declaration ends with a separator, or with the file. -/
theorem reads_endTopLevel (before : Nat) (h : ∀ g ts, P g ts → before = 0) :
    Reads n P (endTopLevel before) n fun _ g us => After .semi P g us ∨ P g us ∧ us = [] := by
  refine .known (.bind .token fun t => ?_)
  split
  · next ht =>
    refine .pure ?_ (Int.le_refl _)
    rintro g ts ⟨⟨hP, -, hfine⟩, hpeek⟩
    refine .inr ⟨hP, ?_⟩
    cases ts with
    | nil => rfl
    | cons l us => exact ((hfine l List.mem_cons_self).token_ne (hpeek.trans ht)).elim
  · refine .gotThen (by decide) (.pure ?_ (by omega)) (.bind .get fun q => ?_)
    · rintro g us ⟨l, hl, ⟨hP, -⟩, -⟩
      exact .inl ⟨l, hl, hP⟩
    · dsimp only
      split
      · exact .bind (k := 0) (.complain _) fun _ => .never (routine_recover _)
      · next hcount =>
        -- That nothing was said before leaves the count at zero, so nothing has been said since.
        refine .impossible (routine_recover _) ?_
        rintro g ts ⟨⟨⟨⟨hP, -⟩, -⟩, -⟩, hat⟩
        exact hcount (hat.count.trans (h g ts hP).symm)

/-- At the end of the input there are no declarations. -/
theorem spellsDecls_nil {afterImport : Bool} {ds : List Decl} {g g' : Nat}
    (h : SpellsDecls afterImport ds g [] g') : ds = [] ∧ g' = g := by
  have hno {keyword : Keyword} {ds : List Decl} {g g' : Nat} {us : List Lexeme} :
      ¬SpellsTop keyword ds g [] g' us := nofun
  cases h with
  | nil => exact ⟨rfl, rfl⟩
  | last ht | cons ht => exact (hno ht).elim

/-- The rule for the declarations of a file reads what spells them, up to the end. -/
theorem reads_topLevels (afterImport : Bool) (hn : 16 * n + 1 ≤ budget) :
    Reads n P (topLevels afterImport budget) n fun ds g' us =>
      us = [] ∧ ∃ g ts, P g ts ∧ SpellsDecls afterImport ds g ts g' := by
  -- Item by item; a complaint anywhere ends the reading, so its branches have nothing to show.
  induction budget generalizing n P afterImport with
  | zero => exact .overrun (routine_topLevels _ _) (by omega)
  | succ budget ih =>
    refine .known (.bind .token fun t => ?_)
    split
    · next ht =>
      refine .pure ?_ (Int.le_refl _)
      rintro g ts ⟨⟨hP, -, hfine⟩, hpeek⟩
      cases ts with
      | nil => exact ⟨rfl, g, [], hP, .nil⟩
      | cons l us => exact ((hfine l List.mem_cons_self).token_ne (hpeek.trans ht)).elim
    · split
      · next ht =>
        subst ht
        refine .bind (.nextAfter (by simp)) fun _ =>
          (ih afterImport (by omega)).weaken (fun _ _ h => h) ?_ (by omega)
        rintro ds g' us ⟨hus, g, ts, ⟨l, hl, hP, -⟩, hds⟩
        exact ⟨hus, g, _, hP, .empty hl hds⟩
      · dsimp only
        cases ha : topLevelAt t budget with
        | none =>
          have hstray (isImport : Bool) {m k : Int} {P : Outlook} {Q : List Decl → Outlook} :
              Reads m P (do
                complain .strayStatement
                recover strayFollow
                topLevels isImport budget) k Q :=
            .bind (k := 0) (.complain _) fun _ =>
              .never ((routine_recover _).bind fun _ => routine_topLevels _ _)
          split
          · exact .bind (k := 0) (.complain _) fun _ => hstray _
          · exact hstray _
        | some action =>
          obtain ⟨keyword, rfl⟩ : ∃ keyword, t = .keyword keyword := by
            cases t with
            | keyword k => exact ⟨k, rfl⟩
            | _ => cases ha
          have hroutine : Routine (do
              let before := (← get).count
              let decls ← action
              endTopLevel before
              return decls ++ (← topLevels (decide (Token.keyword keyword = .keyword .importWord))
                budget)) := by
            refine .ofGet _ (fun p => ?_) fun p q hpq => by rw [Parser.count_of_view hpq]
            exact (routine_topLevelAt ha).bind fun ds => (routine_endTopLevel _).bind fun _ =>
              (routine_topLevels _ _).bind fun rest => .done _
          split
          · exact .bind (k := 0) (.complain _) fun _ => .never hroutine
          · next hlate =>
            -- That no complaint was made says that an import stands where imports may come.
            have himport : keyword = .importWord → afterImport = true := by
              rintro rfl
              simpa using hlate
            refine .bind .get fun q => ?_
            have haction := reads_topLevelAt (P := fun g ts => P g ts ∧ q.count = 0) ha
              (n := n) (by omega)
            refine .bind (haction.weaken ?_ (fun _ _ _ h => h) (Int.le_refl _)) fun ds =>
              .bind (reads_endTopLevel _ ?_) fun _ => .bind (ih _ (by omega)) fun rest =>
                .pure ?_ (by omega)
            · rintro g ts ⟨⟨⟨hP, -⟩, hpeek⟩, hat⟩
              exact ⟨⟨hP, hat.count⟩, hpeek⟩
            · rintro g us ⟨_, _, ⟨-, hcount⟩, -⟩
              exact hcount
            · rintro g'' vs ⟨rfl, g', us, hend, hrest⟩
              refine ⟨rfl, ?_⟩
              -- A semicolon ends the item and more may follow, or the input ends behind it.
              rcases hend with ⟨l, hl, g, ts, ⟨hP, -⟩, hds⟩ | ⟨⟨g, ts, ⟨hP, -⟩, hds⟩, rfl⟩
              · have hdecide : decide (Token.keyword keyword = .keyword .importWord) =
                    decide (keyword = .importWord) := by simp
                exact ⟨g, ts, hP, .cons hds hl himport (hdecide ▸ hrest)⟩
              · obtain ⟨rfl, rfl⟩ := spellsDecls_nil hrest
                rw [List.append_nil]
                exact ⟨g, ts, hP, .last hds himport⟩

/-- A file has been read as a whole. -/
theorem reads_file (hn : 16 * n + 1 ≤ budget) :
    Reads n (fun g ts => g = 0 ∧ P g ts) (file budget) n fun r _ us =>
      (∃ pos found, r = .error (.missingHeader pos found)) ∨
        us = [] ∧ ∃ f ts, r = .ok f ∧ P 0 ts ∧ SpellsFile f ts := by
  refine .traced _ (.bind .here fun pos => .bind .current fun lexeme => .gotThen (by simp) ?_ ?_)
  · refine .bind .ident fun name => .bind (.remark _) fun _ => .bind (.want (by decide)) fun _ =>
      .bind (reads_topLevels true (by omega)) fun ds => .pure ?_ (by omega)
    rintro g us ⟨rfl, g₀, ts, ⟨l, hl, n, pos', hn, rfl, k, hk, ⟨rfl, hP⟩, -⟩, hds⟩
    exact .inr ⟨rfl, _, _, rfl, hP, .mk pos pos' hk hn hl hds⟩
  · exact .pure (fun _ _ _ => .inl ⟨pos, _, rfl⟩) (Int.le_refl _)

end ParseM

end FrontEnd
