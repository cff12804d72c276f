import FrontEnd.Proofs.Grammar.Productions

/-!
# Whatever has a tree is derived

The relations that say how trees are spelled are followed case by case, up to
`derives_of_spellsFile`. An expression is derived as one that is not directly before a block, and
where a brace comes next also as one that is.
-/

namespace FrontEnd

open Rhs

variable {head e : Ending} {ts us vs : List Lexeme} {a b : Rhs} {l : Lexeme}

namespace Derives

/-! ## Lexemes and lists -/

/-- What is derived one after the other. -/
theorem append (ha : Derives head a ts us) (hb : Derives head b us vs) :
    Derives head (a ++ b) ts vs := .seq ha hb

/-- What is derived as the first of two ways. -/
theorem orLeft (ha : Derives head a ts us) : Derives head (a <|> b) ts us := .left ha

/-- What is derived as the second of two ways. -/
theorem orRight (hb : Derives head b ts us) : Derives head (a <|> b) ts us := .right hb

/-- A token of the class. -/
theorem tok {t : Token} (hl : l.token = t) : Derives head (tok t) (l :: ts) ts := .lexeme hl

/-- What may be absent is derived as such. -/
theorem optionally {α : Type} {S : α → List Lexeme → List Lexeme → Prop} {x? : Option α}
    (h : Optionally S x? ts us) (ha : ∀ x, S x ts us → Derives head a ts us) :
    Derives head (opt a) ts us := by
  cases h with
  | none => exact .skip
  | some hx => exact .take (ha _ hx)

/-- A list with another element before it. -/
theorem list_cons {separator : Token} (ha : Derives head a ts (l :: us)) (hl : l.token = separator)
    (h : Derives head (list a separator) us vs) : Derives head (list a separator) ts vs := by
  cases h with
  | skip => exact .take ((ha.append .nil).append (.take (.tok hl)))
  | take h =>
    obtain _ | _ | ⟨h, hlast⟩ := h
    obtain _ | _ | ⟨hb, hmany⟩ := h
    exact .take ((ha.append (.cons (.append (.tok hl) hb) hmany)).append hlast)

/-- Things with separators are derived as a list. -/
theorem listed {α : Type} {S : α → List Lexeme → List Lexeme → Prop} {separator : Token} {xs : List α}
    (h : Listed S separator xs ts us) (ha : ∀ {x ts us}, S x ts us → Derives head a ts us) :
    Derives head (list a separator) ts us := by
  induction h with
  | nil => exact .skip
  | last hx => exact .take (((ha hx).append .nil).append .skip)
  | cons hx hl _ ih => exact (ha hx).list_cons hl ih

/-- Something, or nothing, before more that is separated by semicolons. -/
theorem terminated_cons (ha : Derives head (opt a) ts (l :: us)) (hl : l.token = .semi)
    (h : Derives head (terminated a) us vs) : Derives head (terminated a) ts vs := by
  obtain _ | _ | ⟨hmany, hlast⟩ := h
  exact (Derives.cons (ha.append (.tok hl)) hmany).append hlast

end Derives

/-! ## Types and expressions -/

/-- What spells a type is derived as one. -/
theorem derives_of_spellsType {x : Expr} (h : SpellsType x ts us) :
    Derives head (ref .type) ts us := by
  induction h with
  | name _ hl => exact .ref (.orLeft (.tok hl))
  | slice _ hl hr _ ih => exact .ref (.orRight (.append (.append (.tok hl) (.tok hr)) ih))

/-- Where an expression with the ending is read to its end. -/
def Ending.Bounded (e : Ending) (us : List Lexeme) : Prop := e = .closed → peek us = .lbrace

/-- An expression that may end in anything is read to its end, whatever comes next. -/
theorem Ending.bounded_free (us : List Lexeme) : Ending.free.Bounded us := fun h => nomatch h

/-- What an expression or a part of one is derived as. -/
def ExprPhrase.Derived (head : Ending) (ts us : List Lexeme) : ExprPhrase → Prop
  | .binary _ _ => ∀ e : Ending, e.Bounded us → Derives head (ref (.expr e)) ts us
  | .unary _ => ∀ e : Ending, e.Bounded us → Derives head (ref (.unary e)) ts us
  | .primary _ => ∀ e : Ending, e.Bounded us → Derives head (ref (.primary e)) ts us
  | .list _ => Derives head (Rhs.list (ref (.expr .free)) .comma) ts us

/-- What spells an expression is derived as one, with the ending that what is behind it asks for. -/
theorem derived_of_spellsExpr {p : ExprPhrase} (h : SpellsExpr p ts us) : p.Derived head ts us := by
  -- A production for each way to spell an expression; only a slice type may be kept out, where the ending is
  -- closed.
  induction h with
  | @operation _ _ _ op _ _ _ _ _ hl hop _ _ ihx ihy =>
    intro e he
    have hpos : 0 < op.precedence := by omega
    exact .ref (.orRight (((ihx .free (Ending.bounded_free _)).append (.lexeme ⟨op, hl, hpos⟩)).append
      (ihy e he)))
  | operand _ ih => exact fun e he => .ref (.orLeft (ih e he))
  | @unary _ _ op _ _ _ hl hop _ ih =>
    exact fun e he => .ref (.orRight (.append (.lexeme ⟨op, hl, hop⟩) (ih e he)))
  | primary _ ih => exact fun e he => .ref (.orLeft (ih e he))
  | name _ hl => exact fun e _ => .ref (.orLeft (.ref (.orLeft (.tok hl))))
  | literal _ hl => exact fun e _ => .ref (.orLeft (.ref (.orRight (.orLeft (.tok hl)))))
  | sliceType hx hne =>
    intro e he
    obtain _ | ⟨_, hl, hr, hx⟩ := hx
    have hx : Derives head _ _ _ := derives_of_spellsType hx
    have htype := ((Derives.tok hl).append (.tok hr)).append hx
    cases e with
    | free => exact .ref (.orLeft (.ref (.orRight (.orRight (.orLeft (htype.append .skip))))))
    | closed => exact absurd (he rfl) hne
  | sliceLit hx hl _ hr ih =>
    intro e _
    obtain _ | ⟨_, hl', hr', hx⟩ := hx
    have hx : Derives head _ _ _ := derives_of_spellsType hx
    have htype := ((Derives.tok hl').append (.tok hr')).append hx
    have helems := ((Derives.tok hl).append ih).append (.tok hr)
    cases e with
    | free => exact .ref (.orLeft (.ref (.orRight (.orRight (.orLeft (htype.append (.take helems)))))))
    | closed => exact .ref (.orLeft (.ref (.orRight (.orRight (.orLeft (htype.append helems))))))
  | paren _ hl _ hr ih =>
    exact fun e _ => .ref (.orLeft (.ref (.orRight (.orRight (.orRight
      (((Derives.tok hl).append (ih .free (Ending.bounded_free _))).append (.tok hr)))))))
  | selector _ _ _ hd hf ih =>
    exact fun e _ => .ref (.orRight ((ih .free (Ending.bounded_free _)).append
      (.orLeft (.append (.tok hd) (.tok hf)))))
  | index _ _ hl _ hr ihx ihi =>
    exact fun e _ => .ref (.orRight ((ihx .free (Ending.bounded_free _)).append
      (.orRight (.orLeft (((Derives.tok hl).append (ihi .free (Ending.bounded_free _))).append (.tok hr))))))
  | call _ _ hl _ hr ihx ihargs =>
    exact fun e _ => .ref (.orRight ((ihx .free (Ending.bounded_free _)).append
      (.orRight (.orRight (((Derives.tok hl).append ihargs).append (.tok hr))))))
  | nil => exact Derives.skip
  | last _ ih => exact .take (((ih .free (Ending.bounded_free _)).append .nil).append .skip)
  | cons _ hl _ ihx ih => exact (ihx .free (Ending.bounded_free _)).list_cons hl ih

/-- A whole expression that is not directly before a block. -/
theorem derives_of_spellsWhole {x : Expr} (h : SpellsWhole x ts us) :
    Derives head (ref (.expr .free)) ts us := derived_of_spellsExpr h .free (Ending.bounded_free _)

/-- A whole expression that is directly before a block. -/
theorem derives_head {x : Expr} (h : SpellsWhole x ts us) (hus : peek us = .lbrace) :
    Derives head (ref (.expr e)) ts us := derived_of_spellsExpr h e fun _ => hus

/-! ## Declarations that may be grouped -/

/-- What the specifications of a keyword are derived from. -/
def Keyword.spec : Keyword → Nonterminal
  | .importWord => .importSpec
  | .typeWord => .typeSpec
  | _ => .varSpec

/-- What spells something that is declared is derived from its keyword. -/
theorem derives_of_spellsSpec {s : Spec} (h : SpellsSpec s ts us) :
    Derives head (ref s.keyword.spec) ts us := by
  cases h with
  | path _ hl hkind => exact .ref (.lexeme ⟨hl, hkind⟩)
  | type _ hl hx =>
    exact .ref (((Derives.tok hl).append .skip).append (derives_of_spellsType hx))
  | synonym _ hl he hx =>
    exact .ref (((Derives.tok hl).append (.take (.tok he))).append (derives_of_spellsType hx))
  | value _ hl he hx =>
    exact .ref (.append (.tok hl) (.orLeft (.append (.tok he) (derives_of_spellsWhole hx))))
  | typed _ hl ht =>
    exact .ref (.append (.tok hl) (.orRight (.append (derives_of_spellsType ht) .skip)))
  | typedValue _ hl ht he hx =>
    exact .ref (.append (.tok hl) (.orRight (.append (derives_of_spellsType ht)
      (.take (.append (.tok he) (derives_of_spellsWhole hx))))))

/-- What spells a member of a group is derived. -/
theorem derives_of_spellsMember {keyword : Keyword} {group? : Option Group} {d : Decl}
    (h : SpellsMember keyword group? d ts us) : Derives head (ref keyword.spec) ts us := by
  obtain ⟨_, hs, rfl⟩ := h
  exact derives_of_spellsSpec hs

/-- What spells a declaration or a group of them is derived. -/
theorem derives_of_spellsGroup {keyword : Keyword} {ds : List Decl} {g g' : Nat}
    (h : SpellsGroup keyword ds g ts g' us) : Derives head (group (ref keyword.spec)) ts us := by
  cases h with
  | single hd => exact .orLeft (derives_of_spellsMember hd)
  | group _ hl hds hr =>
    exact .orRight (((Derives.tok hl).append (.listed hds derives_of_spellsMember)).append (.tok hr))

/-! ## Statements -/

/-- What spells a statement behind each round is derived. -/
theorem derives_of_spellsPost {s : Stmt} (h : SpellsPost s ts us) (he : e.Bounded us) :
    Derives head (ref (.post e)) ts us := by
  obtain ⟨h, hdefine⟩ := h
  cases h with
  | expr hx => exact .ref (.orLeft (derived_of_spellsExpr hx e he))
  | incDec _ hx hl => exact .ref (.orRight (.orLeft ((derives_of_spellsWhole hx).append (.tok hl))))
  | assign _ hx hl hy =>
    exact .ref (.orRight (.orRight (((derives_of_spellsWhole hx).append (.orLeft (.tok hl))).append
      (derived_of_spellsExpr hy e he))))
  | assignOp _ hx hl hy =>
    exact .ref (.orRight (.orRight (((derives_of_spellsWhole hx).append (.orRight (.tok hl))).append
      (derived_of_spellsExpr hy e he))))
  | define => cases hdefine

/-- What spells a simple statement is derived. -/
theorem derives_of_spellsSimple {s : Stmt} (h : SpellsSimple s ts us) :
    Derives head (ref .simple) ts us := by
  cases hdefine : s.isDefine with
  | false => exact .ref (.orLeft (derives_of_spellsPost ⟨h, hdefine⟩ (Ending.bounded_free _)))
  | true =>
    cases h with
    | define _ hx hl hy =>
      exact .ref (.orRight (((derives_of_spellsWhole hx).append (.tok hl)).append
        (derives_of_spellsWhole hy)))
    | _ => cases hdefine

/-- The clause of a `for`. -/
theorem derives_of_forClause {clause : ParseM.Clause} (h : SpellsClause .forClause clause ts us)
    (hus : peek us = .lbrace) : Derives head (opt (ref (.expr head)) <|>
      opt (ref .simple) ++ Rhs.tok .semi ++ opt (ref (.expr .free)) ++ Rhs.tok .semi ++
        opt (ref (.post head))) ts us := by
  cases h with
  | always => exact .orLeft .skip
  | cond hx => exact .orLeft (.take (derives_head hx hus))
  | forParts hinit hl hcond hm hpost =>
    have hinit : Derives head _ _ _ := .optionally hinit fun _ => derives_of_spellsSimple
    have hcond : Derives head _ _ _ := .optionally hcond fun _ => derives_of_spellsWhole
    have hpost : Derives head _ _ _ := .optionally hpost fun _ h =>
      derives_of_spellsPost (e := head) h fun _ => hus
    exact .orRight ((((hinit.append (.tok hl)).append hcond).append (.tok hm)).append hpost)

/-- What a statement or a part of one is derived as. -/
def StmtPhrase.Derived (head : Ending) (ts us : List Lexeme) : StmtPhrase → Prop
  | .block _ => Derives head (ref .block) ts us
  | .stmts _ => Derives head (terminated (ref .stmt)) ts us
  | .stmt _ => Derives head (ref .stmt) ts us
  | .ifStmt _ => Derives head (ref .ifStmt) ts us
  | .elseBranch _ => Derives head (opt (word .elseWord ++ (ref .ifStmt <|> ref .block))) ts us

/-- What spells a statement is derived as one. -/
theorem derived_of_spellsStmt {p : StmtPhrase} {g g' : Nat} (h : SpellsStmt p g ts g' us) :
    p.Derived head ts us := by
  -- The injections follow the order of the alternatives of a statement in the grammar.
  induction h with
  | block _ _ hl _ hr ih => exact .ref (((Derives.tok hl).append ih).append (.tok hr))
  | nil => exact Derives.append .nil .skip
  | empty _ hl _ ih => exact Derives.skip.terminated_cons hl ih
  | last _ ih => exact Derives.append .nil (.take ih)
  | cons _ hl _ ih ih' => exact (Derives.take ih).terminated_cons hl ih'
  | simple hs => exact .ref (.orLeft (derives_of_spellsSimple hs))
  | decls _ hl hk hds =>
    rcases hk with rfl | rfl
    · exact .ref (.orRight (.orLeft (.append (.tok hl) (derives_of_spellsGroup hds))))
    · exact .ref (.orRight (.orRight (.orLeft (.append (.tok hl) (derives_of_spellsGroup hds)))))
  | nested _ ih => exact .ref (.orRight (.orRight (.orRight (.orLeft ih))))
  | branch _ ih => exact .ref (.orRight (.orRight (.orRight (.orRight (.orLeft ih)))))
  | whileStmt _ hl hx hb ih =>
    have hx : Derives head (ref (.expr head)) _ _ := derives_head hx hb.block_first
    have hstmt := ((Derives.tok hl).append hx).append ih
    exact .ref (.orRight (.orRight (.orRight (.orRight (.orRight (.orLeft hstmt))))))
  | forStmt _ hl hc hb ih =>
    have hstmt := ((Derives.tok hl).append (derives_of_forClause hc hb.block_first)).append ih
    exact .ref (.orRight (.orRight (.orRight (.orRight (.orRight (.orRight (.orLeft hstmt)))))))
  | returnStmt _ hl hx =>
    have hx : Derives head _ _ _ := .optionally hx fun _ => derives_of_spellsWhole
    have hstmt := (Derives.tok hl).append hx
    exact .ref (.orRight (.orRight (.orRight (.orRight (.orRight (.orRight (.orRight
      (.orLeft hstmt))))))))
  | breakStmt _ hl =>
    exact .ref (.orRight (.orRight (.orRight (.orRight (.orRight (.orRight (.orRight (.orRight
      (.tok hl)))))))))
  | @ifStmt _ _ _ _ _ _ _ ts us _ _ _ _ hl hc hb _ ihb ihe =>
    -- The two forms in which an `if` may have its condition.
    have hclause : Derives head (ref (.expr head) <|>
        opt (ref .simple) ++ Rhs.tok .semi ++ ref (.expr head)) ts us := by
      cases hc with
      | cond hx => exact .orLeft (derives_head hx hb.block_first)
      | ifParts hinit hm hx =>
        have hinit : Derives head _ _ _ := .optionally hinit fun _ => derives_of_spellsSimple
        exact .orRight ((hinit.append (.tok hm)).append (derives_head hx hb.block_first))
    exact .ref ((((Derives.tok hl).append hclause).append ihb).append ihe)
  | noElse => exact Derives.skip
  | elseIf hl _ ih => exact .take (.append (.tok hl) (.orLeft ih))
  | elseBlock hl _ ih => exact .take (.append (.tok hl) (.orRight ih))

/-- What spells a block is derived as one. -/
theorem derives_of_block {b : Block} {g g' : Nat} (h : SpellsStmt (.block b) g ts g' us) :
    Derives head (ref .block) ts us := derived_of_spellsStmt h

/-! ## Files -/

/-- What spells a parameter is derived as one. -/
theorem derives_of_spellsParam {p : Param} (h : SpellsParam p ts us) :
    Derives head (ref .param) ts us := by
  obtain ⟨_, _, hl, ht⟩ := h
  exact .ref (.append (.tok hl) (derives_of_spellsType ht))

/-- What spells a body that may be absent is derived. -/
theorem derives_of_spellsBody {b? : Option Block} {g g' : Nat} (h : SpellsBody b? g ts g' us) :
    Derives head (opt (ref .block)) ts us := by
  cases h with
  | none => exact .skip
  | some hb => exact .take (derives_of_block hb)

/-- What a declaration with the keyword is derived from. -/
def Keyword.decl (k : Keyword) : Nonterminal := if k = .importWord then .importDecl else .decl

/-- What spells a declaration at the top of a file is derived. -/
theorem derives_of_spellsTop {keyword : Keyword} {ds : List Decl} {g g' : Nat}
    (h : SpellsTop keyword ds g ts g' us) : Derives head (ref keyword.decl) ts us := by
  -- The injections follow the order of the alternatives of a declaration.
  cases h with
  | group hl hk hds =>
    have hds : Derives head _ _ _ := derives_of_spellsGroup hds
    have hgroup := (Derives.tok hl).append hds
    rcases hk with rfl | rfl | rfl
    · exact .ref hgroup
    · exact .ref (.orLeft hgroup)
    · exact .ref (.orRight (.orLeft hgroup))
  | func _ _ hk hn hl hps hr hresult hb =>
    have hparams : Derives head (ref .params) _ _ :=
      .ref (((Derives.tok hl).append (.listed hps derives_of_spellsParam)).append (.tok hr))
    have hresult : Derives head _ _ _ := .optionally hresult fun _ => derives_of_spellsType
    exact .ref (.orRight (.orRight (.orLeft (((((Derives.tok hk).append (.tok hn)).append
      hparams).append hresult).append (derives_of_spellsBody hb)))))
  | oper _ hk hl hlhs hr hn ho hl' hrhs hr' hx hb =>
    have hlhs : Derives head _ _ _ := derives_of_spellsParam hlhs
    have hrhs : Derives head _ _ _ := derives_of_spellsParam hrhs
    have hleft := (((Derives.tok hk).append (.tok hl)).append hlhs).append (.tok hr)
    have hright := (((hleft.append (b := operatorName) (.lexeme ⟨hn, _, ho⟩)).append (.tok hl')).append
      hrhs).append (.tok hr')
    exact .ref (.orRight (.orRight (.orRight ((hright.append (derives_of_spellsType hx)).append
      (derives_of_block hb)))))

/-- What the declarations of a file are derived from, directly after an import or at the beginning, or
else. -/
def declsAfter (afterImport : Bool) : Rhs :=
  if afterImport then many (opt (ref .importDecl) ++ Rhs.tok .semi) ++
    (ref .importDecl <|> terminated (ref .decl)) else terminated (ref .decl)

/-- After imports there may be other declarations only. -/
theorem derives_declsAfter {afterImport : Bool} (h : Derives head (terminated (ref .decl)) ts us) :
    Derives head (declsAfter afterImport) ts us := by
  cases afterImport with
  | true => exact Derives.append .nil (.orRight h)
  | false => exact h

/-- An import may come directly after imports. -/
theorem declsAfter_cons (ha : Derives head (opt (ref .importDecl)) ts (l :: us)) (hl : l.token = .semi)
    (h : Derives head (declsAfter true) us vs) : Derives head (declsAfter true) ts vs := by
  obtain _ | _ | ⟨hmany, hlast⟩ := h
  exact (Derives.cons (ha.append (.tok hl)) hmany).append hlast

/-- What spells the declarations of a file is derived. -/
theorem derives_of_spellsDecls {afterImport : Bool} {ds : List Decl} {g g' : Nat}
    (h : SpellsDecls afterImport ds g ts g') : Derives head (declsAfter afterImport) ts [] := by
  induction h with
  | nil => exact derives_declsAfter (.append .nil .skip)
  | @empty afterImport _ _ _ _ _ hl _ ih =>
    cases afterImport with
    | true => exact declsAfter_cons .skip hl ih
    | false => exact Derives.skip.terminated_cons hl ih
  | @last afterImport keyword _ _ _ _ h himport =>
    have hds : Derives head _ _ _ := derives_of_spellsTop h
    -- An import leaves the list where imports may still come; any other keyword leaves it for good.
    by_cases hk : keyword = .importWord
    · rw [himport hk]
      rw [Keyword.decl, if_pos hk] at hds
      exact Derives.append .nil (.orLeft hds)
    · rw [Keyword.decl, if_neg hk] at hds
      exact derives_declsAfter (.append .nil (.take hds))
  | @cons afterImport keyword _ _ _ _ _ _ _ _ h hl himport _ ih =>
    have hds : Derives head _ _ _ := derives_of_spellsTop h
    by_cases hk : keyword = .importWord
    · rw [himport hk]
      rw [Keyword.decl, if_pos hk] at hds
      rw [decide_eq_true hk] at ih
      exact declsAfter_cons (.take hds) hl ih
    · rw [Keyword.decl, if_neg hk] at hds
      rw [decide_eq_false hk] at ih
      exact derives_declsAfter ((Derives.take hds).terminated_cons hl ih)

/-- What spells a file is derived as one. -/
theorem derives_of_spellsFile {f : File} (h : SpellsFile f ts) :
    Derives head (ref .file) ts [] := by
  obtain ⟨_, _, hk, hn, hl, hds⟩ := h
  have hds : Derives head _ _ _ := derives_of_spellsDecls hds
  obtain _ | _ | ⟨himports, hrest⟩ := hds
  exact .ref (((((Derives.tok hk).append (.tok hn)).append (.tok hl)).append himports).append hrest)

end FrontEnd
