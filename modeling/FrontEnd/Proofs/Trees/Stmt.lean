import FrontEnd.Proofs.Trees.Expr

/-!
# Declarations and statements are sound

One theorem for each rule, in the order of the grammar. Only blocks and what holds them may have
declarations in them, each group of which is in one piece and has a new number.
-/

namespace FrontEnd

namespace Parser

variable {p q : Parser}

/-- Declared on its own, what has been built is a declaration. -/
theorem Builds.declare {s : Spec} (pos : Pos) (h : p.Builds [.spec s] q) :
    p.Builds [.decl (.mk pos none s)] q where
  toYields := .node (n := .decl (.mk pos none s)) h.toYields (fun _ hg => by cases hg)
  clustered := by
    have hs := h.clustered
    rw [List.flatMap_singleton] at hs ⊢
    exact .alone rfl hs

/-- In a sound expression statement the expression is sound. -/
theorem Sound.exprOfStmt {x : Expr} (h : p.Sound (.stmt (.expr x))) : p.Sound (.expr x) :=
  (Node.each_iff.mp h).2 _ List.mem_cons_self

/-- A definition that has just been read at the end of the clause of a `for` is excused. -/
def ExcusesHere (p : Parser) (pos : Pos) : Prop := p.Excuses pos p.here

/-- What is excused stays excused. -/
theorem ExcusesHere.mono {pos : Pos} (h : p.ExcusesHere pos) (hpq : p.Leads q) : q.ExcusesHere pos := by
  rcases h with ⟨found, hlog⟩ | hover
  · exact .inl ⟨found, hpq.log _ hlog⟩
  · have hover' := hpq.ended _ hover
    exact .inr ⟨hover'.upcoming, rfl, hover'.said⟩

/-- A complaint about a definition excuses it, even if it is left out at the end of the input. -/
theorem excusesHere_complainAt (hp : p.Fit) (pos : Pos) :
    (p.complainAt pos .declarationInPost).ExcusesHere pos := by
  have hfit := (Leads.complainAt hp pos .declarationInPost).fit
  rcases p.complainAt_cases pos .declarationInPost with ⟨ht, hsaid, h⟩ | h
  · rw [h] at hfit ⊢
    refine .inr ⟨Closed.eq_nil hfit.ends ?_, rfl, lasting_hasSaid.trace _ hsaid⟩
    unfold token aborted at ht
    rwa [hfit.tolerant, Bool.not_true, Bool.false_and, if_neg Bool.false_ne_true] at ht
  · rw [h] at hfit ⊢
    have htolerant : (p.trace (.remark ("syntax error: " ++ Complaint.declarationInPost.words))).tolerant =
        true := hfit.tolerant
    generalize p.trace _ = p' at htolerant ⊢
    refine .inl ⟨p'.current.describe, ?_⟩
    unfold diagnose
    rw [if_pos htolerant]
    exact Array.mem_push_self

end Parser

namespace ParseM

open Ensures

variable {budget : Nat} {p q : Parser}

/-! ## Declarations that may be grouped -/

/-- What is yielded is to be declared after the keyword, with no declarations in it. -/
def Declares (keyword : Keyword) (p : Parser) (spec? : Option Spec) (q : Parser) : Prop :=
  p.Yields (spec?.toList.map .spec) q ∧ ∀ s, spec? = some s → s.keyword = keyword ∧ s.inner = []

/-- Nothing to be declared has no declarations in it. -/
theorem declares_none {keyword : Keyword} (h : p.Leads q) : Declares keyword p none q :=
  ⟨.nil h, fun _ hs => by cases hs⟩

/-- What is to be declared has its keyword and no declarations in it. -/
theorem declares_some {keyword : Keyword} {s : Spec} (h : p.Yields (Node.parts (.spec s)) q)
    (hkeyword : s.keyword = keyword) (hinner : s.inner = []) : Declares keyword p (some s) q :=
  ⟨.node h trivial, fun _ hs => Option.some.inj hs ▸ ⟨hkeyword, hinner⟩⟩

/-- What is yielded to be declared lasts. -/
theorem lasts_declares (keyword : Keyword) (p : Parser) : Lasts (Declares keyword p) :=
  (lasts_yields p _).and _

/-- The action yields something to be declared after the keyword. -/
def GivesSpec (keyword : Keyword) (m : ParseM (Option Spec)) : Prop :=
  ∀ p : Parser, p.Fit → Ensures m p (Declares keyword p)

/-- The rule for what is imported yields just that. -/
theorem gives_importSpec : GivesSpec .importWord importSpec := by
  refine fun p hp => .traced hp (lasts_declares _ p) fun q hq _ => .onToken ?_
  split
  · refine (leads routine_literal hq.fit).bind fun path r hr => ?_
    split
    · exact .pure (declares_some (.leaf (hq.trans hr) rfl trivial) rfl rfl)
    · refine (leads (routine_complainAt _ rfl) hr.fit).bind fun _ s hs => .pure ?_
      exact declares_some (.leaf (hq.trans (hr.trans hs)) rfl trivial) rfl rfl
  · refine (leads (routine_complain _) hq.fit).bind fun _ r hr =>
      (leads (routine_recover _) hr.fit).bind fun _ s hs => .pure ?_
    exact declares_some (.nil (hq.trans (hr.trans hs))) rfl rfl

/-- The rule for a declared type yields just that. -/
theorem gives_typeSpec (budget : Nat) : GivesSpec .typeWord (typeSpec budget) := by
  refine fun p hp => .traced hp (lasts_declares _ p) fun q hq _ => ?_
  refine (leads routine_ident hq.fit).bind fun name r hr =>
    (leads routine_gotAssign hr.fit).bind fun isAlias s hs =>
      (ensures_type? hs.fit).bind fun type? t htype => ?_
  have hname : p.Yields [.ident name] s := .ident name (hq.trans (hr.trans hs))
  have rest {type : Expr} {u : Parser} (htype : s.Yields [.type type] u) :
      Ensures (do remark ("id: " ++ name.text); return some (Spec.typeSpec name isAlias type)) u
        (Declares .typeWord p) :=
    (leads (routine_remark _) htype.leads.fit).bind fun _ v hv => .pure
      (declares_some (hname.append (htype.later hv)) rfl rfl)
  split
  · exact rest htype
  · refine .onHole ((leads (routine_complain _) htype.leads.fit).bind fun _ u hu =>
      (leads (routine_recover _) hu.fit).bind fun _ v hv => rest ?_)
    exact .badType _ (htype.leads.trans (hu.trans hv))

/-- The rule for declared variables yields just that. -/
theorem gives_varSpec (budget : Nat) : GivesSpec .varWord (varSpec budget) := by
  -- Name, type and value, of which the last two may be missing; where both are, nothing is declared.
  refine fun p hp => .traced hp (lasts_declares _ p) fun q hq _ => ?_
  refine (leads routine_ident hq.fit).bind fun name r hr =>
    (leads (routine_remark _) hr.fit).bind fun _ s hs =>
      (leads routine_gotAssign hs.fit).bind fun b t ht => ?_
  have hname : p.Yields [.ident name] t := .ident name (hq.trans (hr.trans (hs.trans ht)))
  split
  · exact (gives_expr budget t ht.fit).bind fun x u hx => .pure
      (declares_some (hname.append hx) rfl rfl)
  · refine (ensures_type? ht.fit).bind fun type? u htype => ?_
    split
    · refine (leads routine_gotAssign htype.leads.fit).bind fun b v hv => ?_
      have hboth := hname.append (htype.later hv)
      split
      · exact (gives_expr budget v hv.fit).bind fun x w hx => .pure
          (declares_some (hboth.append hx) rfl rfl)
      · exact .pure (declares_some hboth rfl rfl)
    · refine (leads (routine_complain _) htype.leads.fit).bind fun _ v hv =>
        (leads (routine_recover _) hv.fit).bind fun _ w hw => .pure ?_
      exact declares_none (hname.leads.trans (htype.leads.trans (hv.trans hw)))

/-- A new group has the first number that no group has. -/
theorem ensures_newGroup (hp : p.Fit) :
    Ensures newGroup p fun id q => p.Leads q ∧ id = p.groups ∧ q.groups = p.groups + 1 :=
  ⟨.move .newGroup hp, rfl, rfl⟩

/-- The members of a group have its keyword, and its number is new. -/
theorem ensures_grouped {keyword : Keyword} {spec : ParseM (Option Spec)} (h : GivesSpec keyword spec)
    (pos : Pos) (hp : p.Fit) :
    Ensures (grouped keyword pos spec budget) p fun ds q => p.Builds (ds.map .decl) q := by
  refine .onToken ?_
  split
  · refine (ensures_newGroup hp).bind fun id q ⟨hq, hid, hgroups⟩ => .onHere ?_
    subst hid
    let g : Group := ⟨p.groups, q.here, keyword⟩
    refine (leads routine_next hq.fit).bind fun _ r hr => ?_
    -- What is known of each member: it is sound, belongs to this group and holds no further declaration.
    let E (d? : Option Decl) (q : Parser) : Prop :=
      ∀ d, d? = some d → q.Sound (.decl d) ∧ d.group? = some g ∧ d.spec.inner = []
    have hE (d? : Option Decl) (q r : Parser) (hqr : q.Leads r) (h : E d? q) : E d? r := fun d hd =>
      ⟨(h d hd).1.mono hqr, (h d hd).2⟩
    have hmember (p : Parser) (hp : p.Fit) :
        Ensures (do let pos ← here; return (← spec).map (Decl.mk pos (some g))) p
          fun d? q => p.Leads q ∧ E d? q := by
      refine .onHere ((h p hp).bind fun spec? q ⟨hspec, hkeyword⟩ => .pure ⟨hspec.leads, ?_⟩)
      intro d hd
      obtain ⟨s, rfl, rfl⟩ := Option.map_eq_some_iff.mp hd
      obtain ⟨hk, hinner⟩ := hkeyword s rfl
      have hnode : p.Yields [.decl (.mk p.here (some g) s)] q :=
        .node (n := .decl (.mk p.here (some g) s)) hspec fun g' hg => Option.some.inj hg ▸ hk
      exact ⟨hnode.head, rfl, hinner⟩
    refine (ensures_list hE hmember hr.fit).bind fun ds? s ⟨hs, hds⟩ => .pure ?_
    have hps := hq.trans (hr.trans hs)
    have hall (d : Decl) (hd : d ∈ ds?.filterMap id) :
        s.Sound (.decl d) ∧ d.group? = some g ∧ d.spec.inner = [] := by
      obtain ⟨d?, hd?, hid⟩ := List.mem_filterMap.mp hd
      exact hds d? hd? d hid
    refine ⟨.map hps fun d hd => (hall d hd).1, ?_⟩
    have hdecls : ((ds?.filterMap id).map Node.decl).flatMap Node.decls = ds?.filterMap id := by
      rw [Node.flatMap_decls_map .decl Decl.withInner fun _ => rfl]
      exact Decl.flatMap_withInner fun d hd => (hall d hd).2.2
    have hlt : p.groups < s.groups := Nat.lt_of_lt_of_le (hgroups ▸ Nat.lt_succ_self _)
      (hr.trans hs).groups_le
    -- Hence the members make one cluster, whose number is below every later one.
    have hcluster := Clustered.group g (fun d hd => (hall d hd).2.1) (Nat.le_refl p.groups) hlt
      (.nil (Nat.le_refl _))
    rwa [List.append_nil, ← hdecls] at hcluster
  · refine (h p hp).bind fun spec? q ⟨hspec, hkeyword⟩ => .pure ?_
    cases spec? with
    | none => exact hspec.builds rfl
    | some s =>
      have hinner := (hkeyword s rfl).2
      exact .declare pos (hspec.builds (by simp [Node.decls, hinner]))

/-! ## Clauses and simple statements -/

/-- A sound statement without declarations. -/
theorem ensures_simpleStmt (hp : p.Fit) :
    Ensures (simpleStmt budget) p fun s q => p.Yields [.stmt s] q ∧ s.inner = [] := by
  refine .traced hp ((lasts_yields p _).and _) fun q hq _ => ?_
  refine (gives_expr budget q hq.fit).bind fun lhs r hlhs => .onHere (.onCurrent (.onToken ?_))
  have hfit := hlhs.leads.fit
  have happend {t : Parser} {y : Expr} {s : Parser} (ht : r.Leads t) (hy : t.Yields [.expr y] s) :
      p.Yields [.expr lhs, .expr y] s := .sooner hq ((hlhs.later ht).append hy)
  split
  · exact (leads routine_next hfit).bind fun _ t ht => (gives_expr budget t ht.fit).bind fun y s hy =>
      .pure ⟨.node (happend ht hy) (fun _ hop => by cases hop), rfl⟩
  · next htoken =>
    -- The operator is the one that the token carries, and such a token carries an assignable one.
    have hcurrent : r.current.token = .assignOp :=
      (Parser.token_eq_current (by rw [htoken]; exact Token.noConfusion)).trans htoken
    exact (leads routine_next hfit).bind fun _ t ht => (gives_expr budget t ht.fit).bind fun y s hy =>
      .pure ⟨.node (happend ht hy) (hfit.current.assignOp hcurrent), rfl⟩
  · next htoken =>
    -- Likewise a step, or none, which stands for the addition.
    have hcurrent : r.current.token = .incOp :=
      (Parser.token_eq_current (by rw [htoken]; exact Token.noConfusion)).trans htoken
    refine (leads routine_next hfit).bind fun _ t ht =>
      .pure ⟨.node (.sooner hq (hlhs.later ht)) ?_, rfl⟩
    change ((r.current.op?).getD .add).isStep = true
    cases hop : r.current.op? with
    | none => rfl
    | some op => exact hfit.current.incOp hcurrent op hop
  · exact (leads routine_next hfit).bind fun _ t ht => (gives_expr budget t ht.fit).bind fun y s hy =>
      .pure ⟨.node (happend ht hy) trivial, rfl⟩
  · exact .pure ⟨.node (.sooner hq hlhs) trivial, rfl⟩

/-- The condition that a statement serves as is sound. -/
theorem ensures_condition (c : Construct) {stmt? : Option Stmt} (separator? : Option (Pos × String))
    (hp : p.Fit) (hstmt : ∀ s, stmt? = some s → p.Sound (.stmt s)) :
    Ensures (condition c stmt? separator?) p fun x? q => p.Yields (x?.toList.map .expr) q := by
  unfold condition
  split
  · exact .pure (.ofSound (.refl hp) (hstmt _ rfl).exprOfStmt)
  · exact (leads (routine_complainAt _ rfl) hp).bind fun _ q hq => .pure (.nil hq)
  · split
    · split
      · split
        · exact (leads (routine_complainAt _ rfl) hp).bind fun _ q hq => .pure (.bad _ hq)
        · exact (leads (routine_complainAt _ rfl) hp).bind fun _ q hq => .pure (.bad _ hq)
      · exact .pure (.nil (.refl hp))
    · exact .pure (.nil (.refl hp))

/-- A sound statement without declarations, perhaps, which if it is a definition is excused. -/
structure Posts (p : Parser) (s? : Option Stmt) (q : Parser) : Prop extends
    p.Yields (s?.toList.map .stmt) q where
  inner : Stmt.inner? s? = []
  excused : ∀ pos x y, s? = some (.define pos x y) → q.ExcusesHere pos

/-- Without a statement behind each round there is nothing to excuse. -/
theorem posts_none (h : p.Leads q) : Posts p none q := ⟨.nil h, rfl, fun _ _ _ hs => by cases hs⟩

/-- What is yielded later on is yielded from before. -/
theorem Posts.sooner {s? : Option Stmt} {r : Parser} (h : p.Leads q) (h' : Posts q s? r) :
    Posts p s? r := ⟨.sooner h h'.toYields, h'.inner, h'.excused⟩

/-- A definition behind each round is complained about, unless the input ends there. -/
theorem ensures_postStmt (hp : p.Fit) : Ensures (postStmt budget) p (Posts p) := by
  refine (leads (routine_want _) hp).bind fun _ q hq => .onToken ?_
  split
  · exact .pure (posts_none hq)
  · refine (ensures_simpleStmt hq.fit).bind fun s r ⟨hs, hinner⟩ => ?_
    have hs := Parser.Yields.sooner hq hs
    cases s with
    | define pos lhs rhs =>
      have hcomplain := Parser.Leads.complainAt hs.leads.fit pos .declarationInPost
      refine Ensures.bind (Q := fun _ t => r.Leads t ∧ t.ExcusesHere pos)
        ⟨hcomplain, Parser.excusesHere_complainAt hs.leads.fit pos⟩ fun _ t ⟨ht, hexcuses⟩ => .pure ?_
      exact ⟨hs.later ht, hinner, fun pos' x y heq => by cases heq; exact hexcuses⟩
    | _ => exact .pure ⟨hs, hinner, fun pos x y heq => by cases heq⟩

/-- The condition, still as a statement, and the last part of the clause of a `for`. -/
theorem ensures_forTail (hp : p.Fit) : Ensures (forTail budget) p fun tail q =>
    Posts p tail.2 q ∧ ∀ s, tail.1 = some s → q.Sound (.stmt s) := by
  refine .onToken ?_
  split
  · exact (ensures_postStmt hp).bind fun post? q hpost => .pure ⟨hpost, fun _ hs => by cases hs⟩
  · exact (leads (routine_complain _) hp).bind fun _ q hq =>
      .pure ⟨posts_none hq, fun _ hs => by cases hs⟩
  · refine (ensures_simpleStmt hp).bind fun cond q ⟨hcond, _⟩ =>
      (ensures_postStmt hcond.leads.fit).bind fun post? r hpost => .pure ⟨hpost.sooner hcond.leads, ?_⟩
    intro s hs
    cases hs
    exact hcond.head.mono hpost.leads

/-- What comes first in a clause is sound. -/
theorem ensures_clauseInit (c : Construct) (hp : p.Fit) : Ensures (clauseInit c budget) p
    fun s? q => p.Yields (s?.toList.map .stmt) q ∧ Stmt.inner? s? = [] := by
  refine .onToken ?_
  split
  · exact .pure ⟨.nil (.refl hp), rfl⟩
  · have rest {q : Parser} (hq : p.Leads q) : Ensures (do return some (← simpleStmt budget)) q
        fun s? r => p.Yields (s?.toList.map .stmt) r ∧ Stmt.inner? s? = [] :=
      (ensures_simpleStmt hq.fit).bind fun s r ⟨hs, hinner⟩ => .pure ⟨.sooner hq hs, hinner⟩
    refine .gotThen hp (fun q _ hq => ?_) fun _ => ?_
    · exact (leads (routine_complain _) hq.fit).bind fun _ r hr => rest (hq.trans hr)
    · exact rest (.refl hp)

/-- A sound clause without declarations, in which a definition at the end is excused. -/
structure Heads (p : Parser) (clause : Clause) (q : Parser) : Prop extends p.Yields clause.nodes q where
  init : Stmt.inner? clause.init? = []
  post : Stmt.inner? clause.post? = []
  excused : ∀ pos x y, clause.post? = some (.define pos x y) → q.ExcusesHere pos

/-- A clause is sound. A definition at its end has been complained about. -/
theorem ensures_clause (c : Construct) (hp : p.Fit) : Ensures (clause c budget) p (Heads p) := by
  -- A condition alone, and a condition behind an initial statement.
  have halone {q : Parser} {cond? : Option Expr} (h : p.Yields (cond?.toList.map .expr) q) :
      Heads p ⟨none, cond?, none⟩ q :=
    ⟨by simpa [Clause.nodes] using h, rfl, rfl, fun _ _ _ hs => by cases hs⟩
  have hparts {q r : Parser} {init? : Option Stmt} {cond? : Option Expr}
      (hinit : p.Yields (init?.toList.map .stmt) q) (hinner : Stmt.inner? init? = [])
      (hcond : q.Yields (cond?.toList.map .expr) r) : Heads p ⟨init?, cond?, none⟩ r :=
    ⟨by simpa [Clause.nodes] using hinit.append hcond, hinner, rfl, fun _ _ _ hs => by cases hs⟩
  refine (leads (routine_want _) hp).bind fun _ q hq => .onToken ?_
  split
  · split
    · refine (leads (routine_complain _) hq.fit).bind fun _ r hr => .onHole (.pure ?_)
      exact halone (.bad _ (hq.trans hr))
    · exact .pure (halone (.nil hq))
  · refine (ensures_clauseInit c hq.fit).bind fun init? r ⟨hinit, hinner⟩ => .onToken ?_
    have hinit := Parser.Yields.sooner hq hinit
    split
    · refine (ensures_condition c none hinit.leads.fit fun s hs => hinit.sound _ (by simp [hs])).bind
        fun cond? s hcond => .pure (halone (.sooner hinit.leads hcond))
    · refine (leads routine_clauseSeparator hinit.leads.fit).bind fun separator? s hs => ?_
      have hinit := hinit.later hs
      split
      · refine (ensures_forTail hs.fit).bind fun tail t ⟨hpost, hstmt⟩ => ?_
        refine (ensures_condition c separator? hpost.leads.fit hstmt).bind fun cond? u hcond => .pure ?_
        refine ⟨?_, hinner, hpost.inner, fun pos x y hpos =>
          (hpost.excused pos x y hpos).mono hcond.leads⟩
        have hboth : s.Yields (tail.2.toList.map .stmt ++ cond?.toList.map .expr) u :=
          hpost.toYields.append hcond
        -- The tail reads the condition before the post statement, the clause lists them the other way.
        refine (hinit.append hboth).of_subset fun m hm => ?_
        simp only [Clause.nodes, List.mem_append] at hm ⊢
        rcases hm with (hm | hm) | hm
        · exact .inl hm
        · exact .inr (.inr hm)
        · exact .inr (.inl hm)
      · refine .onToken ?_
        split
        · exact (ensures_condition c separator? hs.fit fun _ h => by cases h).bind
            fun cond? t hcond => .pure (hparts hinit hinner hcond)
        · refine (ensures_simpleStmt hs.fit).bind fun cond t ⟨hcond, _⟩ =>
            (ensures_condition c separator? hcond.leads.fit fun s h => ?_).bind
              fun cond? u hcond' => .pure (hparts hinit hinner (.sooner hcond.leads hcond'))
          cases h
          exact hcond.head

/-- Without declarations, what a clause consists of is clustered. -/
theorem Heads.decls_eq_nil {clause : Clause} (h : Heads p clause q) :
    clause.nodes.flatMap Node.decls = [] := by
  have hstmt (s? : Option Stmt) : (s?.toList.map Node.stmt).flatMap Node.decls = Stmt.inner? s? := by
    rw [Node.flatMap_decls_map .stmt Stmt.inner fun _ => rfl, Stmt.inner?_eq]
  have hexpr (x? : Option Expr) : (x?.toList.map Node.expr).flatMap Node.decls = [] := by
    rw [Node.flatMap_decls_map .expr (fun _ => []) fun _ => rfl]
    simp
  rw [Clause.nodes, List.flatMap_append, List.flatMap_append, hstmt, hstmt, hexpr, h.init, h.post]
  rfl

/-- A clause has no declarations in it. -/
theorem Heads.builds {clause : Clause} (h : Heads p clause q) : p.Builds clause.nodes q :=
  h.toYields.builds h.decls_eq_nil

/-- The part of a clause before the block of an `if`. -/
theorem Heads.buildsIf {clause : Clause} (h : Heads p clause q) (pos : Pos) :
    p.Builds (clause.init?.toList.map .stmt ++ [.expr (clause.cond?.getD (.bad pos))]) q := by
  refine Parser.Yields.builds ⟨h.leads, fun n hn => ?_⟩ ?_
  · rcases List.mem_append.mp hn with hn | hn
    · exact h.sound n (List.mem_append_left _ (List.mem_append_left _ hn))
    · rw [List.mem_singleton.mp hn]
      cases hcond : clause.cond? with
      | none => exact (Parser.Yields.bad pos h.leads).head
      | some x => exact h.sound _ (by simp [Clause.nodes, hcond])
  · rw [List.flatMap_append, Node.flatMap_decls_map .stmt Stmt.inner fun _ => rfl, ← Stmt.inner?_eq,
      h.init]
    rfl

/-- Declarations among statements are in groups of their own. -/
theorem ensures_declStmt {keyword : Keyword} (h : keyword = .varWord ∨ keyword = .typeWord)
    (hp : p.Fit) : Ensures (declStmt keyword budget) p fun s q => p.Builds [.stmt s] q := by
  refine .traced hp (lasts_builds p _) fun q hq _ => .onHere ?_
  refine (leads routine_next hq.fit).bind fun _ r hr => ?_
  have hdecls {pos : Pos} {ds : List Decl} {s : Parser} (hds : r.Builds (ds.map .decl) s) :
      p.Builds [.stmt (.decls pos ds)] s :=
    .node (.sooner (hq.trans hr) hds) trivial fun _ => Node.noConfusion
  rcases h with rfl | rfl
  · exact (ensures_grouped (gives_varSpec budget) _ hr.fit).bind fun ds s hds => .pure (hdecls hds)
  · exact (ensures_grouped (gives_typeSpec budget) _ hr.fit).bind fun ds s hds => .pure (hdecls hds)

/-! ## Statements -/

/-- The action yields statements that are sound, with their declarations clustered. -/
def GivesStmts {α : Type} (m : ParseM α) (stmts : α → List Stmt) : Prop :=
  ∀ p : Parser, p.Fit → Ensures m p fun x q => p.Builds ((stmts x).map .stmt) q

/-- Likewise, and unless the run is cut short, they may come after `else`. -/
def GivesBranch {α : Type} (m : ParseM α) (stmts : α → List Stmt) : Prop :=
  ∀ p : Parser, p.Fit → Ensures m p fun x q => p.Builds ((stmts x).map .stmt) q ∧
    ∀ s ∈ stmts x, q.starved = true ∨ s.isBranch

/-- What may come after `else` lasts. -/
theorem lasts_branch {α : Type} (p : Parser) (stmts : α → List Stmt) :
    Lasts fun x q => p.Builds ((stmts x).map .stmt) q ∧
      ∀ s ∈ stmts x, q.starved = true ∨ s.isBranch :=
  fun _ _ ⟨h, hbranch⟩ => ⟨h.leads.fit, fun _ hr =>
    ⟨h.later hr, fun s hs => (hbranch s hs).imp_left hr.starved⟩⟩

/-- The action yields a sound block, placed where it starts. -/
def GivesBlock (m : ParseM Block) : Prop :=
  ∀ p : Parser, p.Fit → Ensures m p fun b q => p.Builds [.block b] q ∧ b.pos = p.here

/-- The rules for statements yield sound ones with a given budget. -/
structure SoundStmts (budget : Nat) : Prop where
  block : ∀ after?, GivesBlock (ParseM.block after? budget)
  stmtList : GivesStmts (ParseM.stmtList budget) id
  stmts : GivesStmts (ParseM.stmts budget) id
  stmt? : GivesStmts (ParseM.stmt? budget) Option.toList
  ifStmt : GivesBranch (ParseM.ifStmt budget) fun s => [s]
  elseBranch : GivesBranch (ParseM.elseBranch budget) Option.toList
  whileStmt : GivesStmts (ParseM.whileStmt budget) fun s => [s]
  forStmt : GivesStmts (ParseM.forStmt budget) fun s => [s]

/-- Where nothing is built, there are no groups. -/
theorem builds_nil (h : p.Leads q) : p.Builds [] q := (Parser.Yields.nil h).builds rfl

/-- An empty statement has no groups in it. -/
theorem builds_empty (pos : Pos) (h : p.Leads q) : p.Builds [.stmt (.empty pos)] q :=
  .node (builds_nil h) trivial fun _ => Node.noConfusion

/-- A block has the groups of its statements. -/
theorem builds_block {ss : List Stmt} (pos rbrace : Pos) (h : p.Builds (ss.map .stmt) q) :
    p.Builds [.block (.mk pos ss rbrace)] q :=
  .node (n := .block (.mk pos ss rbrace)) h trivial fun _ => Node.noConfusion

/-- A run that has no budget is cut short. -/
theorem soundStmts_zero : SoundStmts 0 where
  block _ p hp := ⟨builds_block p.here p.here (builds_nil (.move .starve hp)), rfl⟩
  stmtList _ hp := (leads routine_starve hp).bind fun _ _ hq => .pure (builds_nil hq)
  stmts _ hp := (leads routine_starve hp).bind fun _ _ hq => .pure (builds_nil hq)
  stmt? _ hp := (leads routine_starve hp).bind fun _ _ hq => .pure (builds_nil hq)
  ifStmt p hp := ⟨builds_empty p.here (.move .starve hp), fun _ _ => .inl rfl⟩
  elseBranch _ hp := (leads routine_starve hp).bind fun _ _ hq =>
    .pure ⟨builds_nil hq, fun _ hs => by cases hs⟩
  whileStmt _ hp := (leads routine_starve hp).bind fun _ _ hq => .onHere (.pure (builds_empty _ hq))
  forStmt _ hp := (leads routine_starve hp).bind fun _ _ hq => .onHere (.pure (builds_empty _ hq))

section

variable (h : SoundStmts budget)
include h

/-- A block has its place from where it starts. -/
theorem gives_block (after? : Option Construct) : GivesBlock (block after? (budget + 1)) := by
  refine fun p hp => .traced hp ((lasts_builds p _).and _) fun q hq hhere => .onHere ?_
  have rest {r : Parser} (hr : p.Leads r) : Ensures (do
      let stmts ← stmtList budget
      let rbrace ← here
      want .rbrace
      return Block.mk q.here stmts rbrace) r fun b s => p.Builds [.block b] s ∧ b.pos = p.here :=
    (h.stmtList r hr.fit).bind fun ss s hss => .onHere ((leads (routine_want _) hss.leads.fit).bind
      fun _ t ht => .pure ⟨builds_block _ _ (.sooner hr (hss.later ht)), hhere⟩)
  refine .gotThen hq.fit (fun r _ hr => rest (hq.trans hr)) fun _ => ?_
  refine (leads (routine_complain _) hq.fit).bind fun _ r hr =>
    (leads (routine_recover _) hr.fit).bind fun _ s hs => .onHere (.gotThen hs.fit (fun t _ ht => ?_) fun _ => ?_)
  · exact .pure ⟨builds_block _ _ (builds_nil (hq.trans (hr.trans (hs.trans ht)))), hhere⟩
  · exact rest (hq.trans (hr.trans hs))

/-- Several statements: the groups of each are new where it starts. -/
theorem gives_stmts : GivesStmts (stmts (budget + 1)) id := by
  refine fun p hp => .onToken ?_
  split
  · exact .pure (builds_nil (.refl hp))
  · refine (h.stmt? p hp).bind fun s? q hs => ?_
    cases s? with
    | none => exact .pure hs
    | some s =>
      have rest {r : Parser} (hr : q.Leads r) : Ensures (do return s :: (← stmts budget)) r
          fun ss t => p.Builds (ss.map .stmt) t :=
        (h.stmts r hr.fit).bind fun ss t hss => .pure ((hs.later hr).append hss)
      refine .gotThen hs.leads.fit (fun r _ hr => rest hr) fun _ => .onToken ?_
      split
      · exact rest (.refl hs.leads.fit)
      · exact (leads (routine_complain _) hs.leads.fit).bind fun _ r hr =>
          (leads (routine_recover _) hr.fit).bind fun _ t ht =>
            (leads (routine_got _) ht.fit).bind fun _ u hu => rest (hr.trans (ht.trans hu))

/-- A statement is of the kind that its first token says. -/
theorem gives_stmt? : GivesStmts (stmt? (budget + 1)) Option.toList := by
  refine fun p hp => .traced hp (lasts_builds p _) fun q hq _ => .onHere (.onToken ?_)
  have hsome {m : ParseM Stmt} (hm : Ensures m q fun s r => q.Builds [.stmt s] r) :
      Ensures (do return some (← m)) q fun s? r => p.Builds (s?.toList.map .stmt) r :=
    hm.bind fun s r hs => .pure (.sooner hq hs)
  have hsimple : Ensures (simpleStmt budget) q fun s r => q.Builds [.stmt s] r :=
    (ensures_simpleStmt hq.fit).weaken fun s r hs => hs.1.builds (by simpa [Node.decls] using hs.2)
  -- By the first token, in the order of `stmt?`; six tokens start a simple statement.
  split
  case h_1 | h_2 | h_3 | h_4 | h_5 | h_6 => exact hsome hsimple
  case h_7 => exact hsome (ensures_declStmt (.inl rfl) hq.fit)
  case h_8 => exact hsome (ensures_declStmt (.inr rfl) hq.fit)
  case h_9 =>
    exact (h.block none q hq.fit).bind fun b r hb => .pure
      (.sooner hq (.node hb.1 trivial fun _ => Node.noConfusion))
  case h_10 => exact hsome (h.forStmt q hq.fit)
  case h_11 => exact hsome (h.whileStmt q hq.fit)
  case h_12 => exact hsome ((h.ifStmt q hq.fit).weaken fun _ _ => And.left)
  case h_13 =>
    refine (leads routine_next hq.fit).bind fun _ r hr => .onToken ?_
    have hpr := hq.trans hr
    split
    · exact .pure (.node (builds_nil hpr) trivial fun _ => Node.noConfusion)
    · refine (gives_expr budget r hr.fit).bind fun x s hx => .pure ?_
      exact .node (.sooner hpr (hx.builds rfl)) trivial fun _ => Node.noConfusion
  case h_14 =>
    exact (leads routine_next hq.fit).bind fun _ r hr => .pure
      (.node (builds_nil (hq.trans hr)) trivial fun _ => Node.noConfusion)
  case h_15 => exact .pure (builds_empty _ hq)
  case h_16 => exact .pure (builds_nil hq)

/-- The rule for `if`: a condition that is missing has been complained about. -/
theorem gives_ifStmt : GivesBranch (ifStmt (budget + 1)) fun s => [s] := by
  refine fun p hp => .traced hp (lasts_branch p _) fun q hq _ => .onHere ?_
  refine (ensures_clause .ifClause hq.fit).bind fun clause r hclause =>
    (h.block _ r hclause.leads.fit).bind fun b s ⟨hb, _⟩ =>
      (h.elseBranch s hb.leads.fit).bind fun else? t ⟨helse, hbranch⟩ => .pure ⟨?_, fun s hs => ?_⟩
  · have hparts := ((hclause.buildsIf q.here).append hb).append helse
    rw [List.append_assoc (clause.init?.toList.map Node.stmt)] at hparts
    refine .sooner hq (.node hparts (fun s hs => ?_) fun _ => Node.noConfusion)
    exact hbranch s (Option.mem_toList.mpr hs)
  · rw [List.mem_singleton.mp hs]
    exact .inr rfl

/-- Behind `else` there is another `if` or a block. -/
theorem gives_elseBranch : GivesBranch (elseBranch (budget + 1)) Option.toList := by
  refine fun p hp => .gotThen hp (fun q _ hq => .onToken ?_) fun _ => .pure
    ⟨builds_nil (.refl hp), fun _ hs => by cases hs⟩
  split
  · refine (h.ifStmt q hq.fit).bind fun s r ⟨hs, hbranch⟩ => .pure ⟨.sooner hq hs, ?_⟩
    exact hbranch
  · refine (h.block none q hq.fit).bind fun b r ⟨hb, _⟩ => .pure ⟨?_, fun s hs => ?_⟩
    · exact .sooner hq (.node hb trivial fun _ => Node.noConfusion)
    · rw [List.mem_singleton.mp hs]
      exact .inr rfl
  · exact (leads (routine_complain _) hq.fit).bind fun _ r hr =>
      (leads (routine_recover _) hr.fit).bind fun _ s hs => .pure
        ⟨builds_nil (hq.trans (hr.trans hs)), fun _ hs => by cases hs⟩

/-- The rule for `while`: a condition that is missing has been complained about. -/
theorem gives_whileStmt : GivesStmts (whileStmt (budget + 1)) fun s => [s] := by
  refine fun p hp => .traced hp (lasts_builds p _) fun q hq _ => .onHere ?_
  refine (leads routine_next hq.fit).bind fun _ r hr => .onToken ?_
  have rest {cond : Expr} {s : Parser} (hcond : p.Yields [.expr cond] s) : Ensures (do
      return Stmt.whileStmt q.here cond (← block (some .whileClause) budget)) s
        fun s t => p.Builds [.stmt s] t :=
    (h.block _ s hcond.leads.fit).bind fun b t ⟨hb, _⟩ => .pure
      (.node ((hcond.builds rfl).append hb) trivial fun _ => Node.noConfusion)
  have hpr := hq.trans hr
  split
  · exact (leads (routine_complain _) hr.fit).bind fun _ s hs => .onHole (rest (.bad _ (hpr.trans hs)))
  · exact (gives_expr budget r hr.fit).bind fun cond s hcond => rest (.sooner hpr hcond)

/-- The rule for `for`: a definition at the end of its clause is excused. -/
theorem gives_forStmt : GivesStmts (forStmt (budget + 1)) fun s => [s] := by
  refine fun p hp => .traced hp (lasts_builds p _) fun q hq _ => .onHere ?_
  refine (ensures_clause .forClause hq.fit).bind fun clause r hclause =>
    (h.block _ r hclause.leads.fit).bind fun b s ⟨hb, hpos⟩ => .pure ?_
  refine .sooner hq (.node (hclause.builds.append hb) (fun pos x y hpost => ?_) fun _ => Node.noConfusion)
  -- The block starts where the clause ends.
  rw [hpos]
  exact Parser.Excuses.mono (hclause.excused pos x y hpost) hb.leads

end

/-- The rules for statements yield sound ones, whatever their budget. -/
theorem soundStmts (budget : Nat) : SoundStmts budget := by
  induction budget with
  | zero => exact soundStmts_zero
  | succ budget ih =>
    exact {
      block := gives_block ih
      stmtList := fun p hp => .traced hp (lasts_builds p _) fun q hq _ =>
        (ih.stmts q hq.fit).weaken fun _ _ => .sooner hq
      stmts := gives_stmts ih
      stmt? := gives_stmt? ih
      ifStmt := gives_ifStmt ih
      elseBranch := gives_elseBranch ih
      whileStmt := gives_whileStmt ih
      forStmt := gives_forStmt ih }

end ParseM

end FrontEnd
