import FrontEnd.Proofs.Trees.Stmt

/-!
# Files are sound

One theorem for each rule for files, up to the rule for a whole one (`builds_file`).
-/

namespace FrontEnd

namespace ParseM

open Ensures

variable {budget : Nat} {p q : Parser}

/-- The body of a function is sound, with declarations in it. -/
theorem ensures_funcBody (hp : p.Fit) :
    Ensures (funcBody budget) p fun b q => p.Builds [.block b] q := by
  refine (leads_move .enterFunction hp).bind fun _ q hq =>
    ((soundStmts budget).block none q hq.fit).bind fun b r ⟨hb, _⟩ =>
      (leads_move .leaveFunction hb.leads.fit).bind fun _ s hs => .pure ?_
  exact .sooner hq (hb.later hs)

/-- A body that may be absent is sound. -/
theorem ensures_funcBody? (hp : p.Fit) :
    Ensures (funcBody? budget) p fun b? q => p.Builds (b?.toList.map .block) q := by
  refine .onToken ?_
  split
  · exact (ensures_funcBody hp).bind fun b q hb => .pure hb
  · exact .pure (builds_nil (.refl hp))

/-- Who gives up goes on with nothing. -/
theorem ensures_giveUp {α : Type} {complaint : Complaint} {follow : List Token} (hp : p.Fit) :
    Ensures (giveUp complaint follow : ParseM (Option α)) p fun x? q => p.Leads q ∧ x? = none :=
  (leads (routine_complain _) hp).bind fun _ _ hq => (leads (routine_recover _) hq.fit).bind
    fun _ _ hr => .pure ⟨hq.trans hr, rfl⟩

/-- A parameter is sound, if there is one. -/
theorem ensures_param? (what : Expected) (follow : List Token) (hp : p.Fit) :
    Ensures (param? what follow budget) p fun x? q => p.Yields (x?.toList.map .param) q := by
  have hnone {q : Parser} {complaint : Complaint} (hq : p.Leads q) :
      Ensures (giveUp complaint follow) q fun x? r => p.Yields (x?.toList.map .param) r :=
    (ensures_giveUp hq.fit).weaken fun x? r ⟨hr, hx⟩ => hx ▸ .nil (hq.trans hr)
  refine .onHere (.onToken ?_)
  split
  · refine (leads routine_ident hp).bind fun name q hq => (ensures_type? hq.fit).bind fun type? r htype => ?_
    split
    · exact .pure (.node (n := .param ⟨p.here, name, _⟩) ((Parser.Yields.ident name hq).append htype) trivial)
    · exact hnone (hq.trans htype.leads)
  · exact hnone (.refl hp)

/-- Parameters are sound. -/
theorem ensures_params (hp : p.Fit) :
    Ensures (params budget) p fun ps q => p.Yields (ps.map .param) q := by
  refine .gotThen hp (fun q _ hq => ?_) fun _ => ?_
  · refine (ensures_list (E := fun x? q => ∀ x, x? = some x → q.Sound (.param x))
      (fun _ _ _ hr hx x h => (hx x h).mono hr)
      (fun p hp => (ensures_param? .parameter paramFollow hp).weaken fun x? q hx =>
        ⟨hx.leads, fun x h => hx.sound _ (by simp [h])⟩) hq.fit).bind fun xs r ⟨hr, hxs⟩ => .pure ?_
    refine .map (hq.trans hr) fun x hx => ?_
    obtain ⟨x?, hmem, hid⟩ := List.mem_filterMap.mp hx
    exact hxs x? hmem x hid
  · exact (leads (routine_complain _) hp).bind fun _ q hq => .pure (.nil hq)

/-- A parameter of an operator is sound, if there is one. -/
theorem ensures_operandParam? (what : Expected) (hp : p.Fit) :
    Ensures (operandParam? what budget) p fun x? q => p.Yields (x?.toList.map .param) q := by
  refine .gotThen hp (fun q _ hq => ?_) fun _ => ?_
  · refine (ensures_param? what funcFollow hq.fit).bind fun x? r hx => ?_
    split
    · exact (leads (routine_want _) hx.leads.fit).bind fun _ s hs => .pure (.sooner hq (hx.later hs))
    · exact .pure (.nil (hq.trans hx.leads))
  · exact (ensures_giveUp hp).weaken fun x? q ⟨hq, hx⟩ => hx ▸ .nil hq

/-- The action yields something to be declared that may have declarations in it. -/
def BuildsSpec (m : ParseM (Option Spec)) : Prop :=
  ∀ p : Parser, p.Fit → Ensures m p fun spec? q => p.Builds (spec?.toList.map .spec) q

/-- Giving up builds nothing. -/
theorem builds_giveUp {complaint : Complaint} {follow : List Token} : BuildsSpec (giveUp complaint follow) :=
  fun _ hp => (ensures_giveUp hp).weaken fun _ _ ⟨hq, hx⟩ => hx ▸ builds_nil hq

/-- There are no declarations in parameters. -/
theorem flatMap_decls_params (ps : List Param) : (ps.map Node.param).flatMap Node.decls = [] := by
  rw [Node.flatMap_decls_map .param (fun _ => []) fun _ => rfl]
  simp

/-- There are no declarations in types. -/
theorem flatMap_decls_types (xs : List Expr) : (xs.map Node.type).flatMap Node.decls = [] := by
  rw [Node.flatMap_decls_map .type (fun _ => []) fun _ => rfl]
  simp

/-- A function has the declarations of its body in it. -/
theorem builds_funcSpec (budget : Nat) : BuildsSpec (funcSpec budget) := by
  refine fun p hp => .traced hp (lasts_builds p _) fun q hq _ => .onToken ?_
  split
  · refine (leads routine_ident hq.fit).bind fun name r hr => (leads (routine_remark _) hr.fit).bind
      fun _ s hs => (ensures_params hs.fit).bind fun ps t hps => (ensures_type? hps.leads.fit).bind
        fun result? u hresult => (ensures_funcBody? hresult.leads.fit).bind fun body? v hbody => .pure ?_
    have hname : p.Yields [.ident name] s := .ident name (hq.trans (hr.trans hs))
    have hhead := (hname.append (hps.append hresult)).builds (by
      simp [Node.decls, flatMap_decls_params, flatMap_decls_types])
    have hparts := hhead.append hbody
    rw [List.append_assoc] at hparts
    exact .node hparts trivial fun _ => Node.noConfusion
  · exact (builds_giveUp q hq.fit).weaken fun _ _ => .sooner hq

/-- An operator has the declarations of its body in it. -/
theorem builds_operResult {lhs rhs : Param} {overload : Overload} {r : Parser}
    (h : r.Yields [.param lhs, .param rhs] p) (hr : p.Fit) : Ensures (operResult lhs overload rhs budget) p
      fun spec? q => r.Builds (spec?.toList.map .spec) q := by
  refine (ensures_type? hr).bind fun result? s hresult => ?_
  split
  · have hhead := h.append hresult
    refine (ensures_funcBody? hresult.leads.fit).bind fun body? t hbody => ?_
    have hspec : r.Builds [.spec (.operSpec lhs overload rhs _ body?)] t :=
      .node ((hhead.builds rfl).append hbody) trivial fun _ => Node.noConfusion
    split
    · exact .pure hspec
    · exact (leads (routine_complain _) hbody.leads.fit).bind fun _ u hu => .pure (hspec.later hu)
  · have hrs := h.leads.trans hresult.leads
    exact (builds_giveUp s hrs.fit).weaken fun _ _ => .sooner hrs

/-- The rule for operators builds one, or gives up. -/
theorem builds_operSpec (budget : Nat) : BuildsSpec (operSpec budget) := by
  refine fun p hp => .traced hp (lasts_builds p _) fun q hq _ => ?_
  refine (ensures_operandParam? .receiver hq.fit).bind fun lhs? r hlhs => ?_
  have hpr := hq.trans hlhs.leads
  split
  · exact .pure (builds_nil hpr)
  · refine (leads routine_overload? hpr.fit).bind fun overload? s hs => ?_
    split
    · exact .pure (builds_nil (hpr.trans hs))
    · refine (ensures_operandParam? .operand hs.fit).bind fun rhs? t hrhs => ?_
      have hboth := (hlhs.later hs).append hrhs
      split
      · exact .pure (builds_nil (hq.trans hboth.leads))
      · exact builds_operResult (.sooner hq hboth) hboth.leads.fit

/-! ## Declarations of a file -/

/-- The action yields sound declarations that are clustered. -/
def BuildsDecls (m : ParseM (List Decl)) : Prop :=
  ∀ p : Parser, p.Fit → Ensures m p fun ds q => p.Builds (ds.map .decl) q

/-- Whatever a declaration at the top level starts with, it is clustered with those of its group. -/
theorem builds_topLevelAt {t : Token} {action : ParseM (List Decl)}
    (h : topLevelAt t budget = some action) : BuildsDecls action := by
  -- Two shapes of an item, with and without a group.
  have hsingle {spec : ParseM (Option Spec)} (hspec : BuildsSpec spec) : BuildsDecls (do
      let pos ← here
      next
      return ((← spec).map (.mk pos none)).toList) := by
    refine fun p hp => .onHere ((leads routine_next hp).bind fun _ q hq =>
      (hspec q hq.fit).bind fun spec? r hspec => .pure (.sooner hq ?_))
    cases spec? with
    | none => exact hspec
    | some s => exact hspec.declare p.here
  have hgroup {keyword : Keyword} {spec : ParseM (Option Spec)} (hspec : GivesSpec keyword spec) :
      BuildsDecls (do
        let pos ← here
        next
        grouped keyword pos spec budget) :=
    fun p hp => .onHere ((leads routine_next hp).bind fun _ q hq =>
      (ensures_grouped hspec p.here hq.fit).weaken fun _ _ => .sooner hq)
  unfold topLevelAt at h
  split at h
  · next k =>
    cases k with
    | importWord => cases h; exact hgroup gives_importSpec
    | typeWord => cases h; exact hgroup (gives_typeSpec budget)
    | varWord => cases h; exact hgroup (gives_varSpec budget)
    | funcWord => cases h; exact hsingle (builds_funcSpec budget)
    | operWord => cases h; exact hsingle (builds_operSpec budget)
    | _ => cases h
  · cases h

/-- The declarations of a file are clustered: each group has a number that no other has. -/
theorem builds_topLevels (afterImport : Bool) (budget : Nat) :
    BuildsDecls (topLevels afterImport budget) := by
  induction budget generalizing afterImport with
  | zero =>
    exact fun p hp => (leads routine_starve hp).bind fun _ q hq => .pure (builds_nil hq)
  | succ budget ih =>
    intro p hp
    -- Whatever the flag for imports is, the declarations of the rest are built; the complaints add none.
    have hmore (imports : Bool) {q : Parser} (hq : p.Leads q) :
        Ensures (topLevels imports budget) q fun ds r => p.Builds (ds.map .decl) r :=
      (ih imports q hq.fit).weaken fun _ _ => .sooner hq
    refine .onToken ?_
    split
    · exact .pure (builds_nil (.refl hp))
    · split
      · exact (leads routine_next hp).bind fun _ q hq => hmore _ hq
      · dsimp only
        cases ha : topLevelAt p.token budget with
        | none =>
          have hrest (imports : Bool) {q : Parser} (hq : p.Leads q) : Ensures (do
              complain .strayStatement
              recover strayFollow
              topLevels imports budget) q fun ds r => p.Builds (ds.map .decl) r :=
            (leads (routine_complain _) hq.fit).bind fun _ r hr =>
              (leads (routine_recover _) hr.fit).bind fun _ s hs => hmore _ (hq.trans (hr.trans hs))
          split
          · exact (leads (routine_complain _) hp).bind fun _ q hq => hrest _ hq
          · exact hrest _ (.refl hp)
        | some action =>
          -- The declarations of one item stand before those of the rest.
          have hrest (imports : Bool) {q : Parser} (hq : p.Leads q) : Ensures (do
              let before := (← get).count
              let decls ← action
              endTopLevel before
              return decls ++ (← topLevels imports budget)) q fun ds r => p.Builds (ds.map .decl) r := by
            refine .onGet ((builds_topLevelAt ha q hq.fit).bind fun ds r hds =>
              (leads (routine_endTopLevel _) hds.leads.fit).bind fun _ s hs =>
                (ih imports s hs.fit).bind fun rest t hrest => .pure (.sooner hq ?_))
            rw [List.map_append]
            exact (hds.later hs).append hrest
          split
          · exact (leads (routine_complain _) hp).bind fun _ q hq => hrest _ hq
          · exact hrest _ (.refl hp)

/-- A file is sound. -/
theorem builds_file (hp : p.Fit) : Ensures (file budget) p fun result q =>
    p.Leads q ∧ ∀ f, result = .ok f → p.Builds f.parts q := by
  have hlasts : Lasts fun (result : Except Failure File) q =>
      p.Leads q ∧ ∀ f, result = .ok f → p.Builds f.parts q := fun _ q ⟨hq, hf⟩ =>
    ⟨hq.fit, fun r hr => ⟨hq.trans hr, fun f hok => (hf f hok).later hr⟩⟩
  refine .traced hp hlasts fun q hq _ => .onHere (.onCurrent (.gotThen hq.fit (fun r _ hr => ?_) fun _ => ?_))
  · refine (leads routine_ident hr.fit).bind fun name s hs => (leads (routine_remark _) hs.fit).bind
      fun _ t ht => (leads (routine_want _) ht.fit).bind fun _ u hu =>
        (builds_topLevels true budget u hu.fit).bind fun ds v hds => .pure ?_
    have hname : p.Yields [.ident name] u := .ident name (hq.trans (hr.trans (hs.trans (ht.trans hu))))
    have hfile := (hname.builds rfl).append hds
    exact ⟨hfile.leads, fun f hf => by cases hf; exact hfile⟩
  · exact .pure ⟨hq, fun f hf => by cases hf⟩

end ParseM

end FrontEnd
