import FrontEnd.Proofs.Grammar.Spelling
import Mathlib.Data.List.Forall2

/-!
# Spelling depends on little of the lexemes

A lexeme keeps what the lexemes before it have left: a keyword still has the operator that stood before
it. What is spelled does not depend on that, nor on places. So lexemes spell what others spell that are
like them one by one (`Lexeme.Like`), whatever follows them, unless an opening brace follows: that could
open the elements of a slice.
-/

namespace FrontEnd

/-- The lexemes are the same but for their places and for what their tokens do not carry. -/
structure Lexeme.Like (l' l : Lexeme) : Prop where
  token : l'.token = l.token
  literal : l.token = .name ∨ l.token = .literal → l'.literal = l.literal
  kind : l.token = .literal → l'.kind = l.kind
  bad : l.token = .literal → l'.bad = l.bad
  op? : l.token ∈ [.op, .star, .assignOp, .incOp] → l'.op? = l.op?

namespace Lexeme.Like

variable {l l' : Lexeme} {t : Token}

/-- A lexeme is like itself. -/
theorem refl (l : Lexeme) : l.Like l := ⟨rfl, fun _ => rfl, fun _ => rfl, fun _ => rfl, fun _ => rfl⟩

/-- Lexemes that are like each other are of the same class. -/
theorem is (h : l'.Like l) (hl : l.token = t) : l'.token = t := h.token.trans hl

/-- Names that are like each other have the same text. -/
theorem name (h : l'.Like l) (hl : l.token = .name) : l'.literal = l.literal := h.literal (.inl hl)

/-- Lexemes that are like each other are the same operator or none. -/
theorem operator? (h : l'.Like l) : l'.operator? = l.operator? := by
  unfold Lexeme.operator?
  rw [h.token]
  split
  · next hl => exact h.op? (by rcases hl with hl | hl <;> simp [hl])
  · rfl

end Lexeme.Like

/-! ## Lexemes one by one -/

/-- Each of some lexemes is like one of the others. -/
theorem exists_like_of_mem {ts ts' : List Lexeme} (h : List.Forall₂ Lexeme.Like ts' ts) :
    ∀ l' ∈ ts', ∃ l ∈ ts, l'.Like l := by
  induction h with
  | nil => exact fun _ hl' => (List.not_mem_nil hl').elim
  | cons hl _ ih =>
    refine List.forall_mem_cons.mpr ⟨⟨_, List.mem_cons_self, hl⟩, fun l' hl' => ?_⟩
    obtain ⟨l, hmem, hlike⟩ := ih l' hl'
    exact ⟨l, List.mem_cons_of_mem _ hmem, hlike⟩

/-- Other lexemes for some, and then those of `vs`. What a lexeme is replaced by may depend on the number
of lexemes after it, so that the end of a list is replaced as it is in the list. -/
def relocate (f : Nat → Lexeme → Lexeme) (vs : List Lexeme) : List Lexeme → List Lexeme
  | [] => vs
  | l :: ts => f ts.length l :: relocate f vs ts

/-- What replaces lexemes counts only for as many lexemes as there are. -/
theorem relocate_congr {f f' : Nat → Lexeme → Lexeme} (vs : List Lexeme) {ts : List Lexeme}
    (h : ∀ n < ts.length, f n = f' n) : relocate f vs ts = relocate f' vs ts := by
  induction ts with
  | nil => rfl
  | cons l ts ih =>
    rw [relocate, relocate, h _ (Nat.lt_succ_self _), ih fun n hn => h n (Nat.lt_succ_of_lt hn)]

open Classical in
/-- Lexemes that are like others replace them. -/
theorem exists_relocate {ts ts' : List Lexeme} (h : List.Forall₂ Lexeme.Like ts' ts) :
    ∃ f, (∀ n l, (f n l).Like l) ∧ ∀ vs, relocate f vs ts = ts' ++ vs := by
  induction h with
  | nil => exact ⟨fun _ l => l, fun _ l => .refl l, fun vs => rfl⟩
  | @cons l' l ts' ts hl _ ih =>
    obtain ⟨f, hlike, hf⟩ := ih
    -- One more lexeme, which all others come after.
    let f' (n : Nat) (m : Lexeme) : Lexeme := if n = ts.length then if l'.Like m then l' else m else f n m
    have hsame : ∀ n < ts.length, f' n = f n := fun n hn => funext fun m => if_neg (Nat.ne_of_lt hn)
    have hfirst : f' ts.length l = l' := (if_pos rfl).trans (if_pos hl)
    refine ⟨f', fun n m => ?_, fun vs => ?_⟩
    · unfold f'
      split
      · split
        · assumption
        · exact .refl m
      · exact hlike n m
    · rw [relocate, hfirst, relocate_congr vs hsame, hf vs]
      rfl

variable {ts us vs : List Lexeme} {g g' : Nat} {f : Nat → Lexeme → Lexeme}

section

variable {α : Type} {S : α → List Lexeme → List Lexeme → Prop}
  (hS : ∀ {x ts us}, S x ts us → S x (relocate f vs ts) (relocate f vs us))
include hS

/-- What may be absent is spelled by other lexemes as well. -/
theorem Optionally.relocate {x? : Option α} (h : Optionally S x? ts us) :
    Optionally S x? (relocate f vs ts) (relocate f vs us) := by
  cases h with
  | none => exact .none
  | some hx => exact .some (hS hx)

/-- Things with separators are spelled by other lexemes as well. -/
theorem Listed.relocate {separator : Token} {xs : List α} (hlike : ∀ n l, (f n l).Like l)
    (h : Listed S separator xs ts us) : Listed S separator xs (relocate f vs ts) (relocate f vs us) := by
  induction h with
  | nil => exact .nil
  | last hx => exact .last (hS hx)
  | cons hx hl _ ih => exact .cons (hS hx) ((hlike _ _).is hl) ih

end

/-! ## Types and expressions -/

variable (hlike : ∀ n l, (f n l).Like l)
include hlike

/-- What does not come next in either does not come next. -/
theorem peek_relocate_ne {t : Token} (hus : peek us ≠ t) (hvs : peek vs ≠ t) :
    peek (relocate f vs us) ≠ t := by
  cases us with
  | nil => exact hvs
  | cons l us => exact fun h => hus ((hlike _ l).token.symm.trans h)

/-- A type is spelled by other lexemes as well. -/
theorem SpellsType.relocate {x : Expr} (h : SpellsType x ts us) :
    SpellsType x (relocate f vs ts) (relocate f vs us) := by
  induction h with
  | @name pos l ts hl =>
    rw [← (hlike ts.length l).name hl]
    exact .name pos ((hlike _ _).is hl)
  | slice pos hl hr _ ih => exact .slice pos ((hlike _ _).is hl) ((hlike _ _).is hr) ih

variable (hvs : peek vs ≠ .lbrace)
include hvs

/-- An expression is spelled by other lexemes as well, unless a brace behind it opens the elements of a
slice. -/
theorem SpellsExpr.relocate {e : ExprPhrase} (h : SpellsExpr e ts us) :
    SpellsExpr e (relocate f vs ts) (relocate f vs us) := by
  induction h with
  | @operation pos _ l _ _ _ _ us _ ho hfloor _ _ ihx ihy =>
    exact .operation pos ((hlike us.length l).operator?.trans ho) hfloor ihx ihy
  | operand _ ih => exact .operand ih
  | @unary pos l _ _ ts _ ho hop _ ih =>
    exact .unary pos ((hlike ts.length l).operator?.trans ho) hop ih
  | primary _ ih => exact .primary ih
  | @name pos l ts hl =>
    rw [← (hlike ts.length l).name hl]
    exact .name pos ((hlike _ _).is hl)
  | @literal pos l ts hl =>
    rw [← (hlike ts.length l).literal (.inr hl), ← (hlike ts.length l).kind hl,
      ← (hlike ts.length l).bad hl]
    exact .literal pos ((hlike _ _).is hl)
  -- The only production that looks at what follows.
  | sliceType hx hus => exact .sliceType (hx.relocate hlike) (peek_relocate_ne hlike hus hvs)
  | sliceLit hx hl _ hr ih =>
    exact .sliceLit (hx.relocate hlike) ((hlike _ _).is hl) ih ((hlike _ _).is hr)
  | paren pos hl _ hr ih => exact .paren pos ((hlike _ _).is hl) ih ((hlike _ _).is hr)
  | @selector pos pos' _ n _ _ us _ hd hn ih =>
    rw [← (hlike us.length n).name hn]
    exact .selector pos pos' ih ((hlike _ _).is hd) ((hlike _ _).is hn)
  | index pos _ hl _ hr ih ihi => exact .index pos ih ((hlike _ _).is hl) ihi ((hlike _ _).is hr)
  | call pos _ hl _ hr ih ihs => exact .call pos ih ((hlike _ _).is hl) ihs ((hlike _ _).is hr)
  | nil => exact .nil
  | last _ ih => exact .last ih
  | cons _ hl _ ih ihs => exact .cons ih ((hlike _ _).is hl) ihs

/-! ## Declarations that may be grouped -/

/-- What is declared is spelled by other lexemes as well. -/
theorem SpellsSpec.relocate {s : Spec} (h : SpellsSpec s ts us) :
    SpellsSpec s (relocate f vs ts) (relocate f vs us) := by
  -- The new lexemes are like the old ones, hence have the same texts, which is all that the tree keeps of them.
  cases h with
  | @path pos l _ hl hk =>
    rw [← (hlike us.length l).literal (.inr hl), ← (hlike us.length l).kind hl,
      ← (hlike us.length l).bad hl]
    exact .path pos ((hlike _ _).is hl) (((hlike _ _).kind hl).trans hk)
  | @type pos l _ ts _ hl hx =>
    rw [← (hlike ts.length l).name hl]
    exact .type pos ((hlike _ _).is hl) (hx.relocate hlike)
  | @synonym pos l _ _ ts _ hl he hx =>
    rw [← (hlike (ts.length + 1) l).name hl]
    exact .synonym pos ((hlike _ _).is hl) ((hlike _ _).is he) (hx.relocate hlike)
  | @value pos l _ _ ts _ hl he hx =>
    rw [← (hlike (ts.length + 1) l).name hl]
    exact .value pos ((hlike _ _).is hl) ((hlike _ _).is he) (hx.relocate hlike hvs)
  | @typed pos l _ ts _ hl ht =>
    rw [← (hlike ts.length l).name hl]
    exact .typed pos ((hlike _ _).is hl) (ht.relocate hlike)
  | @typedValue pos l _ _ _ ts _ _ hl ht he hx =>
    rw [← (hlike ts.length l).name hl]
    exact .typedValue pos ((hlike _ _).is hl) (ht.relocate hlike) ((hlike _ _).is he) (hx.relocate hlike hvs)

/-- A member of a group is spelled by other lexemes as well. -/
theorem SpellsMember.relocate {keyword : Keyword} {group? : Option Group} {d : Decl}
    (h : SpellsMember keyword group? d ts us) :
    SpellsMember keyword group? d (relocate f vs ts) (relocate f vs us) := by
  cases h with
  | mk pos hs hk => exact .mk pos (hs.relocate hlike hvs) hk

/-- A declaration or a group of them is spelled by other lexemes as well. -/
theorem SpellsGroup.relocate {keyword : Keyword} {ds : List Decl} (h : SpellsGroup keyword ds g ts g' us) :
    SpellsGroup keyword ds g (relocate f vs ts) g' (relocate f vs us) := by
  cases h with
  | single hd => exact .single (hd.relocate hlike hvs)
  | group pos hl hds hr =>
    exact .group pos ((hlike _ _).is hl) (hds.relocate (fun hd => hd.relocate hlike hvs) hlike)
      ((hlike _ _).is hr)

/-! ## Statements -/

/-- A simple statement is spelled by other lexemes as well. -/
theorem SpellsSimple.relocate {s : Stmt} (h : SpellsSimple s ts us) :
    SpellsSimple s (relocate f vs ts) (relocate f vs us) := by
  cases h with
  | expr hx => exact .expr (hx.relocate hlike hvs)
  | assign pos hx hl hy =>
    exact .assign pos (hx.relocate hlike hvs) ((hlike _ _).is hl) (hy.relocate hlike hvs)
  | @assignOp pos l _ _ _ ws _ hx hl hy =>
    rw [← (hlike ws.length l).op? (by simp [hl])]
    exact .assignOp pos (hx.relocate hlike hvs) ((hlike _ _).is hl) (hy.relocate hlike hvs)
  | @incDec pos l _ _ _ hx hl =>
    rw [← (hlike us.length l).op? (by simp [hl])]
    exact .incDec pos (hx.relocate hlike hvs) ((hlike _ _).is hl)
  | define pos hx hl hy =>
    exact .define pos (hx.relocate hlike hvs) ((hlike _ _).is hl) (hy.relocate hlike hvs)

/-- A clause is spelled by other lexemes as well. It is followed by a brace in both. -/
theorem SpellsClause.relocate {c : Construct} {clause : ParseM.Clause} (h : SpellsClause c clause ts us) :
    SpellsClause c clause (relocate f vs ts) (relocate f vs us) := by
  cases h with
  | always => exact .always
  | cond hx => exact .cond (hx.relocate hlike hvs)
  | ifParts hinit hl hx =>
    exact .ifParts (hinit.relocate fun hs => hs.relocate hlike hvs) ((hlike _ _).is hl)
      (hx.relocate hlike hvs)
  | forParts hinit hl hcond hm hpost =>
    exact .forParts (hinit.relocate fun hs => hs.relocate hlike hvs) ((hlike _ _).is hl)
      (hcond.relocate fun hx => hx.relocate hlike hvs) ((hlike _ _).is hm)
      (hpost.relocate fun hs => ⟨hs.1.relocate hlike hvs, hs.2⟩)

/-- A statement is spelled by other lexemes as well. -/
theorem SpellsStmt.relocate {s : StmtPhrase} (h : SpellsStmt s g ts g' us) :
    SpellsStmt s g (relocate f vs ts) g' (relocate f vs us) := by
  -- Production by production.
  induction h with
  | block pos rbrace hl _ hr ih => exact .block pos rbrace ((hlike _ _).is hl) ih ((hlike _ _).is hr)
  | nil => exact .nil
  | empty pos hl _ ih => exact .empty pos ((hlike _ _).is hl) ih
  | last _ ih => exact .last ih
  | cons _ hl _ ih ihs => exact .cons ih ((hlike _ _).is hl) ihs
  | simple hs => exact .simple (hs.relocate hlike hvs)
  | decls pos hl hk hds => exact .decls pos ((hlike _ _).is hl) hk (hds.relocate hlike hvs)
  | nested _ ih => exact .nested ih
  | branch _ ih => exact .branch ih
  | whileStmt pos hl hx _ ih => exact .whileStmt pos ((hlike _ _).is hl) (hx.relocate hlike hvs) ih
  | forStmt pos hl hc _ ih => exact .forStmt pos ((hlike _ _).is hl) (hc.relocate hlike hvs) ih
  | returnStmt pos hl hx =>
    exact .returnStmt pos ((hlike _ _).is hl) (hx.relocate fun hx => hx.relocate hlike hvs)
  | breakStmt pos hl => exact .breakStmt pos ((hlike _ _).is hl)
  | ifStmt pos hl hc _ _ ihb ihe => exact .ifStmt pos ((hlike _ _).is hl) (hc.relocate hlike hvs) ihb ihe
  | noElse => exact .noElse
  | elseIf hl _ ih => exact .elseIf ((hlike _ _).is hl) ih
  | elseBlock hl _ ih => exact .elseBlock ((hlike _ _).is hl) ih

/-! ## The top of a file -/

/-- A body that may be absent is spelled by other lexemes as well. -/
theorem SpellsBody.relocate {body? : Option Block} (h : SpellsBody body? g ts g' us) :
    SpellsBody body? g (relocate f vs ts) g' (relocate f vs us) := by
  cases h with
  | none => exact .none
  | some hb => exact .some (hb.relocate hlike hvs)

omit hvs in
/-- A parameter is spelled by other lexemes as well. -/
theorem SpellsParam.relocate {param : Param} (h : SpellsParam param ts us) :
    SpellsParam param (relocate f vs ts) (relocate f vs us) := by
  cases h with
  | @mk pos pos' l _ ts _ hl ht =>
    rw [← (hlike ts.length l).name hl]
    exact .mk pos pos' ((hlike _ _).is hl) (ht.relocate hlike)

/-- A declaration at the top of a file is spelled by other lexemes as well. -/
theorem SpellsTop.relocate {keyword : Keyword} {ds : List Decl} (h : SpellsTop keyword ds g ts g' us) :
    SpellsTop keyword ds g (relocate f vs ts) g' (relocate f vs us) := by
  have hparam {param : Param} {ts us : List Lexeme} (h : SpellsParam param ts us) :
      SpellsParam param (FrontEnd.relocate f vs ts) (FrontEnd.relocate f vs us) := h.relocate hlike
  cases h with
  | group hl hk hds => exact .group ((hlike _ _).is hl) hk (hds.relocate hlike hvs)
  | @func _ pos pos' _ _ _ _ n l _ _ ts _ _ _ hk hn hl hps hr hresult hbody =>
    rw [← (hlike (ts.length + 1) n).name hn]
    exact .func pos pos' ((hlike _ _).is hk) ((hlike _ _).is hn) ((hlike _ _).is hl)
      (hps.relocate (fun hp => hparam hp) hlike) ((hlike _ _).is hr) (hresult.relocate fun ht => ht.relocate hlike)
      (hbody.relocate hlike hvs)
  | oper pos hk hl hlhs hr hn ho hl' hrhs hr' hx hb =>
    exact .oper pos ((hlike _ _).is hk) ((hlike _ _).is hl) (hparam hlhs) ((hlike _ _).is hr)
      ((hlike _ _).is hn) (((hlike _ _).name hn).symm ▸ ho) ((hlike _ _).is hl') (hparam hrhs)
      ((hlike _ _).is hr') (hx.relocate hlike) (hb.relocate hlike hvs)

omit hlike in
/-- Declarations are spelled by any lexemes like theirs, before anything but an opening brace. -/
theorem SpellsTop.like {keyword : Keyword} {ds : List Decl} {ts' : List Lexeme}
    (h : SpellsTop keyword ds g ts g' []) (hts : List.Forall₂ Lexeme.Like ts' ts) :
    SpellsTop keyword ds g (ts' ++ vs) g' vs := by
  obtain ⟨f, hlike, hf⟩ := exists_relocate hts
  have hmoved := h.relocate hlike hvs
  rw [hf vs] at hmoved
  exact hmoved

end FrontEnd
