import FrontEnd.Proofs.Grammar.Spelling
import FrontEnd.Proofs.Trees.Sound

/-!
# What is spelled is complete

A tree that is spelled by lexemes among which the names are identifiers and the literals are well
formed is complete (`SpellsFile.complete`).
-/

namespace FrontEnd

/-- If the lexeme is a name, it is an identifier, and if it is a literal, it is well formed. -/
structure Lexeme.Genuine (l : Lexeme) : Prop where
  name : l.token = .name → isIdentifier l.literal
  bad : l.bad = false

/-- The nodes are complete, and what is left is genuine, if what they are spelled by is. -/
def Completes (ns : List Node) (ts us : List Lexeme) : Prop :=
  (∀ l ∈ ts, l.Genuine) → (∀ l ∈ us, l.Genuine) ∧ ∀ n ∈ ns, n.Each Node.Complete

namespace Completes

variable {ns ms : List Node} {n : Node} {l : Lexeme} {ts us vs : List Lexeme}

/-- No nodes take no lexemes. -/
theorem nil : Completes [] ts ts := fun h => ⟨h, fun _ hn => by cases hn⟩

/-- A lexeme may be passed over. -/
theorem skip : Completes [] (l :: ts) ts :=
  fun h => ⟨fun l hl => h l (List.mem_cons_of_mem _ hl), fun _ hn => by cases hn⟩

/-- Nodes that are spelled one after the other. -/
theorem append (h : Completes ns ts us) (h' : Completes ms us vs) : Completes (ns ++ ms) ts vs := by
  intro hts
  obtain ⟨hus, hns⟩ := h hts
  obtain ⟨hvs, hms⟩ := h' hus
  refine ⟨hvs, fun n hn => ?_⟩
  rcases List.mem_append.mp hn with hn | hn
  · exact hns n hn
  · exact hms n hn

/-- A lexeme that is no part of the tree comes first. -/
theorem after (h : Completes ns ts us) : Completes ns (l :: ts) us := skip.append h

/-- A lexeme that is no part of the tree comes last. -/
theorem before (h : Completes ns ts (l :: us)) : Completes ns ts us := by
  have := h.append skip
  rwa [List.append_nil] at this

/-- Some of the nodes that are complete. -/
theorem of_subset (h : Completes ns ts us) (hms : ∀ m ∈ ms, m ∈ ns) : Completes ms ts us :=
  fun hts => ⟨(h hts).1, fun m hm => (h hts).2 m (hms m hm)⟩

/-- A node is complete with its parts. -/
theorem node (h : Completes n.parts ts us) (hn : n.Complete) : Completes [n] ts us := by
  intro hts
  obtain ⟨hus, hparts⟩ := h hts
  refine ⟨hus, fun m hm => ?_⟩
  rw [List.mem_singleton.mp hm]
  exact Node.each_iff.mpr ⟨hn, hparts⟩

/-- A name is an identifier. -/
theorem ident (pos : Pos) (hl : l.token = .name) :
    Completes [.ident ⟨pos, l.literal⟩] (l :: ts) ts := fun hts =>
  (nil.node (n := .ident ⟨pos, l.literal⟩) ((hts l List.mem_cons_self).name hl)).after hts

/-- A literal is well formed. -/
theorem literal (pos : Pos) : Completes [.literal ⟨pos, l.literal, l.kind, l.bad⟩] (l :: ts) ts :=
  fun hts => (nil.node (n := .literal ⟨pos, l.literal, l.kind, l.bad⟩)
    (hts l List.mem_cons_self).bad).after hts

/-- An identifier that is an expression or a type. -/
theorem named {pos : Pos} (hl : l.token = .name) (hparts : n.parts = [.ident ⟨pos, l.literal⟩])
    (hn : n.Complete) : Completes [n] (l :: ts) ts := by
  have h : Completes [.ident ⟨pos, l.literal⟩] (l :: ts) ts := ident pos hl
  rw [← hparts] at h
  exact h.node hn

end Completes

open Completes

variable {ts us : List Lexeme}

section

variable {α : Type} {S : α → List Lexeme → List Lexeme → Prop} {f : α → Node}

/-- What may be absent is complete if it is when it is there. -/
theorem Optionally.completes {x? : Option α} (h : Optionally S x? ts us)
    (hS : ∀ {x ts us}, S x ts us → Completes [f x] ts us) : Completes (x?.toList.map f) ts us := by
  cases h with
  | none => exact nil
  | some hx => exact hS hx

/-- Things with separators are complete if each of them is. -/
theorem Listed.completes {separator : Token} {xs : List α} (h : Listed S separator xs ts us)
    (hS : ∀ {x ts us}, S x ts us → Completes [f x] ts us) : Completes (xs.map f) ts us := by
  induction h with
  | nil => exact .nil
  | last hx => exact hS hx
  | cons hx _ _ ih => exact (hS hx).before.append ih

/-- What holds of everything that is spelled alike holds of all that are listed. -/
theorem Listed.forall_mem {separator : Token} {xs : List α} {P : α → Prop}
    (h : Listed S separator xs ts us) (hS : ∀ {x ts us}, S x ts us → P x) : ∀ x ∈ xs, P x := by
  induction h with
  | nil => simp
  | last hx => simpa using hS hx
  | cons hx _ _ ih => exact List.forall_mem_cons.mpr ⟨hS hx, ih⟩

end

/-! ## Types and expressions -/

/-- A type is complete. -/
theorem SpellsType.completes {x : Expr} (h : SpellsType x ts us) : Completes [.type x] ts us := by
  induction h with
  | name pos hl => exact named hl rfl rfl
  | slice pos _ _ _ ih => exact .node (n := .type (.sliceType pos _)) ih.after.after rfl

/-- The element type of a slice. -/
theorem SpellsType.completes_elem {pos : Pos} {elem : Expr} (h : SpellsType (.sliceType pos elem) ts us) :
    Completes [.type elem] ts us := by
  cases h with
  | slice _ _ _ h => exact h.completes.after.after

/-- The nodes of a phrase. -/
def ExprPhrase.nodes : ExprPhrase → List Node
  | .binary _ x | .unary x | .primary x => [.expr x]
  | .list xs => xs.map .expr

/-- A phrase is complete: there are no holes among what it is spelled by. -/
theorem SpellsExpr.completes {e : ExprPhrase} (h : SpellsExpr e ts us) : Completes e.nodes ts us := by
  -- Each node of a phrase completes it with the nodes below it; a mirrored comparison has its operands in the
  -- other order.
  induction h with
  | @operation pos floor l op x y _ _ _ _ _ _ _ ihx ihy =>
    have hboth : Completes [.expr x, .expr y] _ _ := ihx.before.append ihy
    change Completes [.expr (Expr.operation pos op x y)] _ _
    unfold Expr.operation
    split
    · exact .node (n := .expr (.binary pos .greater y x)) (hboth.of_subset (by simp [Node.parts])) rfl
    · exact .node (n := .expr (.binary pos op x y)) hboth rfl
  | operand _ ih | primary _ ih => exact ih
  | @unary pos l op x _ _ _ _ _ ih => exact .node (n := .expr (.unary pos op x)) ih.after rfl
  | name pos hl => exact named hl rfl rfl
  | literal pos => exact .node (n := .expr (.literal _)) (.literal pos) rfl
  | @sliceType pos elem _ _ h => exact .node (n := .expr (.sliceType pos elem)) h.completes_elem rfl
  | @sliceLit pos elem xs _ _ _ _ _ h _ _ _ ih =>
    exact .node (n := .expr (.sliceLit pos elem xs)) (h.completes_elem.before.append ih.before) rfl
  | @paren pos _ _ x _ _ _ _ _ ih => exact .node (n := .expr (.paren pos x)) ih.before.after rfl
  | @selector pos pos' _ f x _ _ _ _ hf ih =>
    exact .node (n := .expr (.selector pos x ⟨pos', f.literal⟩)) (ih.before.append (.ident pos' hf)) rfl
  | @index pos _ _ x i _ _ _ _ _ _ _ ihx ihi =>
    exact .node (n := .expr (.index pos x i)) (ihx.before.append ihi.before) rfl
  | @call pos _ _ x xs _ _ _ _ _ _ _ ihx ihxs =>
    exact .node (n := .expr (.call pos x xs)) (ihx.before.append ihxs.before) rfl
  | nil => exact .nil
  | last _ ih => exact ih
  | cons _ _ _ ihx ihxs => exact ihx.before.append ihxs

/-- An expression is complete. -/
theorem SpellsExpr.completes_whole {floor : Nat} {x : Expr} (h : SpellsExpr (.binary floor x) ts us) :
    Completes [.expr x] ts us := h.completes

/-! ## Declarations that may be grouped -/

/-- What is declared is complete. -/
theorem SpellsSpec.completes {spec : Spec} (h : SpellsSpec spec ts us) : Completes [.spec spec] ts us := by
  cases h with
  | path pos _ hkind =>
    exact .node (n := .spec (.importSpec (some _))) (.literal pos) ⟨_, rfl, hkind⟩
  | type pos hl ht =>
    exact .node (n := .spec (.typeSpec _ false _)) ((ident pos hl).append ht.completes) trivial
  | synonym pos hl _ ht =>
    exact .node (n := .spec (.typeSpec _ true _)) ((ident pos hl).append ht.completes.after) trivial
  | value pos hl _ hx =>
    exact .node (n := .spec (.varSpec _ none (some _)))
      ((ident pos hl).append hx.completes_whole.after) (.inr rfl)
  | typed pos hl ht =>
    exact .node (n := .spec (.varSpec _ (some _) none)) ((ident pos hl).append ht.completes) (.inl rfl)
  | typedValue pos hl ht _ hx =>
    exact .node (n := .spec (.varSpec _ (some _) (some _)))
      (((ident pos hl).append ht.completes.before).append hx.completes_whole) (.inl rfl)

/-- A member of a group is complete. -/
theorem SpellsMember.completes {keyword : Keyword} {group? : Option Group} {d : Decl}
    (h : SpellsMember keyword group? d ts us) : Completes [.decl d] ts us := by
  cases h with
  | mk pos hs => exact .node (n := .decl (.mk pos group? _)) hs.completes trivial

/-- A member is declared after the keyword of its group. -/
theorem SpellsMember.keyword_eq {keyword : Keyword} {group? : Option Group} {d : Decl}
    (h : SpellsMember keyword group? d ts us) : d.spec.keyword = keyword := by
  cases h with
  | mk _ _ hk => exact hk

/-- The declarations in a group are complete. -/
theorem SpellsGroup.completes {keyword : Keyword} {ds : List Decl} {g g' : Nat}
    (h : SpellsGroup keyword ds g ts g' us) : Completes (ds.map .decl) ts us := by
  cases h with
  | single hd => exact hd.completes
  | group _ _ hds => exact (hds.completes SpellsMember.completes).before.after

/-- All of a group is declared after its keyword. -/
theorem SpellsGroup.keyword_eq {keyword : Keyword} {ds : List Decl} {g g' : Nat}
    (h : SpellsGroup keyword ds g ts g' us) : ∀ d ∈ ds, d.spec.keyword = keyword := by
  cases h with
  | single hd => simpa using hd.keyword_eq
  | group _ _ hds => exact hds.forall_mem SpellsMember.keyword_eq

/-! ## Statements -/

/-- A simple statement is complete. -/
theorem SpellsSimple.completes {s : Stmt} (h : SpellsSimple s ts us) : Completes [.stmt s] ts us := by
  cases h with
  | expr hx => exact .node (n := .stmt (.expr _)) hx.completes_whole trivial
  | assign pos hx _ hy =>
    exact .node (n := .stmt (.assign pos none _ _))
      (hx.completes_whole.before.append hy.completes_whole) trivial
  | @assignOp pos l _ _ _ _ _ hx _ hy =>
    exact .node (n := .stmt (.assign pos l.op? _ _))
      (hx.completes_whole.before.append hy.completes_whole) trivial
  | @incDec pos l _ _ _ hx =>
    exact .node (n := .stmt (.incDec pos (l.op?.getD .add) _)) hx.completes_whole.before trivial
  | define pos hx _ hy =>
    exact .node (n := .stmt (.define pos _ _))
      (hx.completes_whole.before.append hy.completes_whole) trivial

/-- A clause is complete. -/
theorem SpellsClause.completes {c : Construct} {clause : ParseM.Clause}
    (h : SpellsClause c clause ts us) : Completes clause.nodes ts us := by
  cases h with
  | always => exact .nil
  | cond hx => exact hx.completes_whole
  | ifParts hi _ hx =>
    have := (hi.completes SpellsSimple.completes).before.append hx.completes_whole
    exact this.of_subset (by simp [ParseM.Clause.nodes])
  | forParts hi _ hx _ hp =>
    exact ((hi.completes SpellsSimple.completes).before.append
      (hx.completes SpellsExpr.completes_whole).before).append
        (hp.completes fun h => h.1.completes)

/-- The nodes of a phrase. -/
def StmtPhrase.nodes : StmtPhrase → List Node
  | .block b => [.block b]
  | .stmts ss => ss.map .stmt
  | .stmt s | .ifStmt s => [.stmt s]
  | .elseBranch s? => s?.toList.map .stmt

/-- A phrase is complete. -/
theorem SpellsStmt.completes {s : StmtPhrase} {g g' : Nat} (h : SpellsStmt s g ts g' us) :
    Completes s.nodes ts us := by
  -- By the phrase; a keyword or a brace in front adds no node, and `after` passes it.
  induction h with
  | @block pos rbrace ss _ _ _ _ _ _ _ _ _ ih =>
    exact .node (n := .block (.mk pos ss rbrace)) ih.before.after trivial
  | nil | noElse => exact .nil
  | empty pos _ _ ih => exact (Completes.nil.node (n := .stmt (.empty pos)) trivial).append ih.after
  | last _ ih | branch _ ih => exact ih
  | cons _ _ _ ihs ihss => exact ihs.before.append ihss
  | simple hs => exact hs.completes
  | @decls pos _ ds _ _ _ _ _ _ hk hds =>
    refine .node (n := .stmt (.decls pos ds)) hds.completes.after fun d hd => ?_
    rw [hds.keyword_eq d hd]
    rcases hk with rfl | rfl <;> exact Keyword.noConfusion
  | @nested b _ _ _ _ _ ih => exact .node (n := .stmt (.block b)) ih trivial
  | @whileStmt pos cond b _ _ _ _ _ _ _ hx _ ih =>
    exact .node (n := .stmt (.whileStmt pos cond b)) (hx.completes_whole.append ih).after trivial
  | @forStmt pos clause b _ _ _ _ _ _ _ hc _ ih =>
    exact .node (n := .stmt (.forStmt pos clause.init? clause.cond? clause.post? b))
      (hc.completes.append ih).after trivial
  | @returnStmt pos result? _ _ _ _ _ hx =>
    exact .node (n := .stmt (.returnStmt pos result?))
      (hx.completes SpellsExpr.completes_whole).after trivial
  | breakStmt pos => exact (Completes.nil.node (n := .stmt (.breakStmt pos)) trivial).after
  | @ifStmt pos init? cond b else? _ _ _ _ _ _ _ _ _ hc _ _ ihb ihe =>
    refine .node (n := .stmt (.ifStmt pos init? cond b else?)) ?_ trivial
    have := (hc.completes.append ihb).append ihe
    exact (this.of_subset (by simp [Node.parts, ParseM.Clause.nodes, StmtPhrase.nodes])).after
  | elseIf _ _ ih => exact ih.after
  | @elseBlock b _ _ _ _ _ _ _ ih => exact (ih.node (n := .stmt (.block b)) trivial).after

/-! ## Files -/

/-- A parameter is complete. -/
theorem SpellsParam.completes {param : Param} (h : SpellsParam param ts us) :
    Completes [.param param] ts us := by
  cases h with
  | mk pos pos' hl ht =>
    exact .node (n := .param ⟨pos, _, _⟩) ((ident pos' hl).append ht.completes) trivial

/-- A body is complete. -/
theorem SpellsBody.completes {body? : Option Block} {g g' : Nat} (h : SpellsBody body? g ts g' us) :
    Completes (body?.toList.map .block) ts us := by
  cases h with
  | none => exact .nil
  | some hb => exact hb.completes

/-- The declarations at the top of a file are complete. -/
theorem SpellsTop.completes {keyword : Keyword} {ds : List Decl} {g g' : Nat}
    (h : SpellsTop keyword ds g ts g' us) : Completes (ds.map .decl) ts us := by
  cases h with
  | group _ _ hds => exact hds.completes.after
  | @func _ pos pos' params result? body? _ n _ _ _ _ _ _ _ _ hn _ hps _ hresult hbody =>
    have hrest := ((hps.completes SpellsParam.completes).before.append
      (hresult.completes SpellsType.completes)).append hbody.completes
    refine .node (n := .decl (.mk pos none _)) (.after ?_) trivial
    exact .node (n := .spec (.funcSpec _ params result? body?)) ((ident pos' hn).append hrest.after) trivial
  | @oper pos lhs overload rhs result body _ _ _ _ _ _ _ _ _ _ _ _ _ _ _ hlhs _ _ _ _ hrhs _ hresult hbody =>
    have hparts := (hlhs.completes.before.before.before.append hrhs.completes.before).append
      (hresult.completes.append hbody.completes)
    refine .node (n := .decl (.mk pos none _)) (.after (.after ?_)) trivial
    exact .node (n := .spec (.operSpec lhs overload rhs result (some body))) hparts rfl

/-- What is declared at the top of a file is declared after its keyword. -/
theorem SpellsTop.keyword_eq {keyword : Keyword} {ds : List Decl} {g g' : Nat}
    (h : SpellsTop keyword ds g ts g' us) : ∀ d ∈ ds, d.spec.keyword = keyword := by
  cases h with
  | group _ _ hds => exact hds.keyword_eq
  | func | oper => simp [Decl.spec, Spec.keyword]

/-- All declarations of a file are complete. -/
theorem SpellsDecls.completes {afterImport : Bool} {ds : List Decl} {g g' : Nat}
    (h : SpellsDecls afterImport ds g ts g') : Completes (ds.map .decl) ts [] := by
  induction h with
  | nil => exact .nil
  | empty _ _ ih => exact ih.after
  | last htop => exact htop.completes
  | cons htop _ _ _ ih =>
    rw [List.map_append]
    exact htop.completes.before.append ih

/-- Where something else has come before, there are no imports. -/
theorem SpellsDecls.keyword_ne {ds : List Decl} {g g' : Nat} (h : SpellsDecls false ds g ts g') :
    ∀ d ∈ ds, d.spec.keyword ≠ .importWord := by
  have htop {keyword : Keyword} {ds : List Decl} {g g' : Nat} {ts us : List Lexeme}
      (h : SpellsTop keyword ds g ts g' us) (hk : keyword = .importWord → false = true) :
      ∀ d ∈ ds, d.spec.keyword ≠ .importWord := fun d hd heq =>
    Bool.false_ne_true (hk ((h.keyword_eq d hd).symm.trans heq))
  generalize ho : false = afterImport at h
  induction h with
  | nil => simp
  | empty _ _ ih => exact ih ho
  | last ht hk => exact htop ht (ho ▸ hk)
  | cons ht _ hk _ ih =>
    have hkeyword := decide_eq_false fun heq => Bool.false_ne_true (ho.trans (hk heq))
    exact List.forall_mem_append.mpr ⟨htop ht (ho ▸ hk), ih hkeyword.symm⟩

/-- Imports may be put before declarations that start with imports. -/
theorem ImportsFirst.append {ds rest : List Decl} (h : ImportsFirst rest)
    (hds : ∀ d ∈ ds, d.spec.keyword = .importWord) : ImportsFirst (ds ++ rest) := by
  obtain ⟨imports, others, rfl, himports, hothers⟩ := h
  exact ⟨ds ++ imports, others, (List.append_assoc ..).symm, List.forall_mem_append.mpr ⟨hds, himports⟩,
    hothers⟩

/-- Declarations without imports have them first. -/
theorem importsFirst_of_ne {ds : List Decl} (h : ∀ d ∈ ds, d.spec.keyword ≠ .importWord) :
    ImportsFirst ds := ⟨[], ds, rfl, by simp, h⟩

/-- So do imports. -/
theorem importsFirst_of_eq {ds : List Decl} (h : ∀ d ∈ ds, d.spec.keyword = .importWord) :
    ImportsFirst ds := ⟨ds, [], (List.append_nil ds).symm, h, by simp⟩

/-- Imports come first. -/
theorem SpellsDecls.importsFirst {afterImport : Bool} {ds : List Decl} {g g' : Nat}
    (h : SpellsDecls afterImport ds g ts g') : ImportsFirst ds := by
  induction h with
  | nil => exact importsFirst_of_ne (by simp)
  | empty _ _ ih => exact ih
  | @last _ keyword _ _ _ _ ht =>
    by_cases hk : keyword = .importWord
    · exact importsFirst_of_eq fun d hd => (ht.keyword_eq d hd).trans hk
    · exact importsFirst_of_ne fun d hd heq => hk ((ht.keyword_eq d hd).symm.trans heq)
  | @cons _ keyword _ _ _ _ _ _ _ _ ht _ _ hrest ih =>
    by_cases hk : keyword = .importWord
    · exact ih.append fun d hd => (ht.keyword_eq d hd).trans hk
    · rw [decide_eq_false hk] at hrest
      refine importsFirst_of_ne (List.forall_mem_append.mpr ⟨fun d hd heq => ?_, hrest.keyword_ne⟩)
      exact hk ((ht.keyword_eq d hd).symm.trans heq)

/-- What is spelled by genuine lexemes is complete. -/
theorem SpellsFile.complete {f : File} (h : SpellsFile f ts) (hts : ∀ l ∈ ts, l.Genuine) :
    f.Complete := by
  cases h with
  | mk pos pos' _ hn _ hds =>
    exact ⟨(((ident pos' hn).append hds.completes.after).after hts).2, hds.importsFirst⟩

end FrontEnd
