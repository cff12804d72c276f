import FrontEnd.Proofs.Printed.Prints
import FrontEnd.Proofs.Printed.Reread

/-!
# How printed expressions are spelled

The pieces of a printable expression print what it is read back as (`Expr.IsPrintable.isRead`). The induction
is on the expression: an operand that binds too weakly for its place is in parentheses, and otherwise binds
strongly enough to be read there (`Expr.Spelled`); and no word goes on with what comes behind it, since signs
are kept apart and a point comes behind nothing that would take it (`Expr.endsBefore`).
-/

namespace FrontEnd

open Piece

/-! ## Words of expressions -/

/-- What starts a name may go on with it. -/
theorem isNamePart_of_isNameStart {c : Char} (h : isNameStart c) : isNamePart c := by
  unfold isNameStart at h
  unfold isNamePart
  simp only [Bool.or_eq_true, Bool.and_eq_true] at h ⊢
  rcases h with h | ⟨hlt, h⟩
  · exact .inl (.inl h)
  · exact .inr ⟨hlt, .inl h⟩

/-- An identifier has no characters that are told about. -/
theorem isClean_of_isIdentifier {text : String} (h : isIdentifier text) : IsClean text.toList := by
  have hnul : isNamePart '\x00' = false := by decide
  have hmark : isNamePart CharStream.byteOrderMark = false := by decide +kernel
  have hpart {c : Char} (hc : isNamePart c) : c ≠ '\x00' ∧ c ≠ CharStream.byteOrderMark :=
    ⟨fun he => Bool.false_ne_true (hnul.symm.trans (he ▸ hc)),
      fun he => Bool.false_ne_true (hmark.symm.trans (he ▸ hc))⟩
  obtain ⟨c, cs, htext, hstart, hparts, -⟩ := Word.exists_of_isIdentifier h
  rw [htext]
  exact List.forall_mem_cons.mpr
    ⟨hpart (isNamePart_of_isNameStart hstart), fun d hd => hpart (List.all_eq_true.mp hparts d hd)⟩

/-- The spelling of an operator has no characters that are told about. -/
theorem Operator.isClean_spelling (op : Operator) : IsClean op.spelling.toList := by
  cases op <;> decide +kernel

/-- A word that is an operator completes to a lexeme of it. -/
theorem Word.operator?_complete (op : Operator) (l : Lexeme) :
    (Word.complete l (.op op)).operator? = some op := by
  cases op <;> rfl

/-- Every operator but the negation has a precedence. -/
theorem Operator.precedence_pos {op : Operator} (h : op ≠ .not) : 0 < op.precedence := by
  cases op <;> first | exact absurd rfl h | decide

namespace Piece.Prints

variable {ps : List Piece} {allows allows' : Char → Bool} {spells both : List Lexeme → List Lexeme → Prop}

/-- A name. -/
theorem name {text : String} (h : isIdentifier text) : Prints [.word text] (fun c => !isNamePart c)
    fun ts us => ∃ l : Lexeme, l.token = .name ∧ l.literal = text ∧ ts = l :: us := by
  refine (word (.name text h) text rfl (isClean_of_isIdentifier h)).mono (fun _ hc => hc) ?_
  rintro ts us ⟨l, hts⟩
  exact ⟨_, Word.token_complete (.name text h) l, rfl, hts⟩

/-- An operator. -/
theorem operator (op : Operator) : Prints [.word op.spelling] (fun c => !op.joins c)
    fun ts us => ∃ l : Lexeme, l.operator? = some op ∧ ts = l :: us := by
  refine (word (.op op) op.spelling rfl op.isClean_spelling).mono (fun _ hc => hc) ?_
  rintro ts us ⟨l, hts⟩
  exact ⟨_, Word.operator?_complete op l, hts⟩

/-- A mark. -/
theorem mark (t : Token) (ht : t.isMark) : Prints [.word t.spelling] (fun c => !t.joins c)
    fun ts us => ∃ l : Lexeme, l.token = t ∧ ts = l :: us := by
  have hclean : IsClean t.spelling.toList := by
    cases t <;> first | (cases ht; done) | decide +kernel
  refine (word (.mark t ht) t.spelling rfl hclean).mono (fun _ hc => hc) ?_
  rintro ts us ⟨l, hts⟩
  exact ⟨_, Word.token_complete (.mark t ht) l, hts⟩

/-- A mark that is one whatever comes behind it. -/
theorem bracket (t : Token) (ht : t.isMark) (hjoins : ∀ c, t.joins c = false) :
    Prints [.word t.spelling] allows fun ts us => ∃ l : Lexeme, l.token = t ∧ ts = l :: us := by
  refine (mark t ht).mono (fun c _ => ?_) id
  rw [hjoins]
  rfl

/-- Such a mark, and then something else. -/
theorem bracket_then (t : Token) (ht : t.isMark) (hjoins : ∀ c, t.joins c = false)
    (h : Prints ps allows spells) : Prints ([.word t.spelling] ++ ps) allows
      fun ts us => ∃ l ms, l.token = t ∧ ts = l :: ms ∧ spells ms us := by
  have hmark : Prints [.word t.spelling] (fun _ => true) _ := bracket t ht hjoins
  refine hmark.append h (fun _ _ => rfl) ?_
  rintro ts ms us ⟨l, hl, rfl⟩ hms
  exact ⟨l, ms, hl, rfl, hms⟩

/-- Something between brackets. -/
theorem enclosed (opener closer : Token) (ho : opener.isMark) (hc : closer.isMark)
    (hjoins : ∀ c, opener.joins c = false) (hjoins' : ∀ c, closer.joins c = false) (h : Prints ps allows spells)
    {c : Char} (hhead : closer.spelling.toList.head? = some c) (hallows : allows c)
    (hboth : ∀ {l ts r us}, l.token = opener → spells ts (r :: us) → r.token = closer → both (l :: ts) us) :
    Prints ([.word opener.spelling] ++ ps ++ [.word closer.spelling]) allows' both := by
  refine (bracket_then opener ho hjoins h).before c hallows (bracket closer hc hjoins')
    (by rw [chars_singleton]; exact hhead) ?_
  rintro ts ms us ⟨l, ts', hl, rfl, hts⟩ ⟨r, hr, rfl⟩
  exact hboth hl hts hr

end Piece.Prints

/-! ## Operands in their places -/

namespace Expr

/-- The lexemes spell the expression that is read back, at every place where it stands without
parentheses. -/
structure Spelled (x : Expr) (ts us : List Lexeme) : Prop where
  binary : ∀ floor, (∀ n, x.binding? = some n → floor < n) → SpellsExpr (.binary floor x.reread) ts us
  unary : x.binding? = none → SpellsExpr (.unary x.reread) ts us
  primary : x.isOperation = false → SpellsExpr (.primary x.reread) ts us

/-- Whether no word of the expression goes on with the character behind it. -/
def endsBefore (x : Expr) (c : Char) : Bool :=
  !isNamePart c && (c ≠ '.' || !(x.isOperation || x.isPlainInt))

/-- The pieces of the expression print what it is read back as, unless an opening brace is behind it. -/
def IsRead (x : Expr) : Prop :=
  Prints x.pieces x.endsBefore fun ts us => peek us ≠ .lbrace → x.Spelled ts us

variable {x y : Expr} {ts us : List Lexeme} {c : Char}

/-- What is spelled as an operand is so wherever an expression stands. -/
theorem Spelled.of_primary (h : SpellsExpr (.primary x.reread) ts us) : x.Spelled ts us :=
  ⟨fun _ _ => .operand (.primary h), fun _ => .primary h, fun _ => h⟩

/-- What ends an expression does not go on with a name. -/
theorem not_isNamePart_of_endsBefore (h : x.endsBefore c) : (!isNamePart c) = true :=
  (Bool.and_eq_true_iff.mp h).1

/-- An expression ends before anything but a character of a name and a point. -/
theorem endsBefore_of_ne (x : Expr) (hname : isNamePart c = false) (hpoint : c ≠ '.') :
    x.endsBefore c := by
  simp [endsBefore, hname, hpoint]

/-- Behind an operation, a point never comes. -/
theorem endsBefore_of_isOperation (hx : x.isOperation) (h : x.endsBefore c) (y : Expr) : y.endsBefore c := by
  unfold endsBefore at h
  simp only [hx, Bool.true_or, Bool.not_true, Bool.or_false, Bool.and_eq_true, Bool.not_eq_true',
    decide_eq_true_eq] at h
  exact y.endsBefore_of_ne h.1 h.2

/-- What binds an operation in a printable expression has a precedence. -/
theorem IsPrintable.binding_pos (h : x.IsPrintable) {n : Nat} (hn : x.binding? = some n) : 0 < n := by
  cases h with
  | binary hop =>
    cases hn
    exact Operator.precedence_pos hop
  | _ => cases hn

/-- What is printed of an expression is read as one. -/
theorem Spelled.whole (h : x.Spelled ts us) (hx : x.IsPrintable) : SpellsWhole x.reread ts us :=
  h.binary 0 fun _ hn => hx.binding_pos hn

/-- An operand in its place is read there: in parentheses, or else because it may stand there without. -/
theorem IsRead.operand (h : x.IsRead) (hx : x.IsPrintable) (needed : Bool) (place : Expr → ExprPhrase)
    (hparen : ∀ {y ts us}, SpellsExpr (.primary y) ts us → SpellsExpr (place y) ts us)
    (hplain : needed = false → ∀ {ts us}, x.Spelled ts us → SpellsExpr (place x.reread) ts us) :
    Prints (Piece.parenthesizedIf needed x.pieces) (fun c => needed || x.endsBefore c)
      fun ts us => peek us ≠ .lbrace → SpellsExpr (place (parenthesizedIf needed x.reread)) ts us := by
  cases needed with
  | false => exact h.mono (fun _ hc => hc) fun hts hus => hplain rfl (hts hus)
  | true =>
    refine h.enclosed .lparen .rparen rfl rfl (fun _ => rfl) (fun _ => rfl) rfl
      (x.endsBefore_of_ne (by decide) (by decide)) fun hl hts hr _ => ?_
    have hne : (.rparen : Token) ≠ .lbrace := Token.noConfusion
    exact hparen (.paren default hl ((hts (by rwa [peek_cons, hr])).whole hx) hr)

/-! ## The first character of an expression -/

/-- The pieces start with a character that turns no operator before them into another one by being an
equals sign. -/
def Leads (ps : List Piece) : Prop := ∃ c, (chars ps).head? = some c ∧ c ≠ '='

/-- What leads still does so with more pieces behind it. -/
theorem Leads.append {ps : List Piece} (h : Leads ps) (qs : List Piece) : Leads (ps ++ qs) := by
  obtain ⟨c, hc, hne⟩ := h
  refine ⟨c, ?_, hne⟩
  rw [chars_append, List.head?_append, hc]
  rfl

/-- Parentheses lead if what is in them does. -/
theorem Leads.parenthesizedIf {ps : List Piece} (h : Leads ps) (needed : Bool) :
    Leads (Piece.parenthesizedIf needed ps) := by
  cases needed with
  | false => exact h
  | true => exact ⟨'(', rfl, by decide⟩

/-- An identifier does not start with an equals sign. -/
theorem leads_of_isIdentifier {text : String} (h : isIdentifier text) : Leads [.word text] := by
  obtain ⟨c, cs, htext, hstart, -⟩ := Word.exists_of_isIdentifier h
  refine ⟨c, by rw [chars_singleton]; exact congrArg List.head? htext, ?_⟩
  rintro rfl
  exact absurd hstart (by decide)

/-- A literal does not start with an equals sign. -/
theorem leads_of_isLiteral {kind : LitKind} {text : String} (h : IsLiteral kind text.toList) :
    Leads [.word text] := by
  have hdigit {c : Char} (hc : c.isDigit) : c ≠ '=' := by
    rintro rfl
    exact absurd hc (by decide)
  -- No form of a literal begins with an equals sign.
  have hhead : ∃ c, text.toList.head? = some c ∧ c ≠ '=' := by
    generalize text.toList = cs at h
    cases kind with
    | int =>
      cases h with
      | plain hc => exact ⟨_, rfl, hdigit hc⟩
      | marked => exact ⟨_, rfl, by decide⟩
    | float =>
      cases h with
      | pointed hc => exact ⟨_, rfl, hdigit hc⟩
      | fraction => exact ⟨_, rfl, by decide⟩
      | scaled hc => exact ⟨_, rfl, hdigit hc⟩
    | rune =>
      cases h
      exact ⟨_, rfl, by decide⟩
    | string => cases h <;> exact ⟨_, rfl, by decide⟩
  obtain ⟨c, hc, hne⟩ := hhead
  exact ⟨c, by rw [chars_singleton]; exact hc, hne⟩

/-- A printable expression does not start with an equals sign. -/
theorem IsPrintable.leads (h : x.IsPrintable) : Leads x.pieces := by
  -- What a tree leads with is what its leftmost part leads with, or an operator or a bracket.
  induction h with
  | name hn => exact leads_of_isIdentifier hn
  | literal hl => exact leads_of_isLiteral hl.valid
  | @unary _ op x hop _ _ =>
    have hop : Leads [.word op.spelling] := by
      cases op <;> first | (cases hop; done) | exact ⟨_, rfl, by decide⟩
    rw [pieces, List.append_assoc]
    exact hop.append _
  | binary _ _ _ ihx _ =>
    rw [pieces, List.append_assoc]
    exact (ihx.parenthesizedIf _).append _
  | selector _ _ _ ih =>
    rw [pieces]
    exact (ih.parenthesizedIf _).append _
  | index _ _ ihx _ =>
    rw [pieces, List.append_assoc, List.append_assoc]
    exact (ihx.parenthesizedIf _).append _
  | call _ _ ih _ =>
    rw [pieces]
    exact (ih.parenthesizedIf _).append _
  | sliceType | sliceLit | paren => exact ⟨_, rfl, by decide⟩

/-! ## Expressions -/

/-- What comes behind an operator before its operand does not join it: a blank keeps signs apart. -/
theorem exists_head_operand {op : Operator} (hop : op.isUnary) {ps : List Piece} (hps : Leads ps)
    (needed : Bool) : ∃ c, (chars ((if needsSpace op ps then [space] else []) ++
      Piece.parenthesizedIf needed ps)).head? = some c ∧ op.joins c = false := by
  obtain ⟨d, hd, hne⟩ := hps
  by_cases hspace : needsSpace op ps
  · rw [if_pos hspace]
    exact ⟨' ', rfl, Word.not_joins_of_blank (.op op) (by decide)⟩
  · rw [if_neg hspace, List.nil_append]
    cases needed with
    | true =>
      refine ⟨'(', rfl, ?_⟩
      cases op <;> first | (cases hop; done) | rfl
    | false =>
      refine ⟨d, hd, ?_⟩
      unfold needsSpace at hspace
      rw [firstChar?_eq, hd, Option.any_some] at hspace
      cases op <;> first | (cases hop; done) | simp_all [Operator.joins]

/-- A name is read back. -/
theorem isRead_name {n : Ident} (h : isIdentifier n.text) : (Expr.name n).IsRead := by
  refine (Prints.name h).mono (fun _ => not_isNamePart_of_endsBefore) ?_
  rintro ts us ⟨l, hl, hliteral, rfl⟩ -
  have hname : SpellsExpr _ (l :: us) us := .name n.pos hl
  rw [hliteral] at hname
  exact .of_primary hname

/-- A literal is read back. -/
theorem isRead_literal {l : Literal} (h : l.IsProper) : (Expr.literal l).IsRead := by
  obtain ⟨pos, text, kind, bad⟩ := l
  obtain ⟨hvalid, hclean, rfl⟩ := h
  refine (Prints.word (.literal kind text hvalid) text rfl hclean).mono (fun c hc => ?_) ?_
  · unfold endsBefore isOperation isPlainInt at hc
    change (!kind.joins text.toList c) = true
    cases kind <;> simp_all [LitKind.joins]
  · rintro ts us ⟨l, rfl⟩ -
    have hliteral : SpellsExpr _ (l.withLiteral text kind false :: us) us := .literal pos rfl
    exact .of_primary hliteral

/-- A unary operation is read back: between two signs there is a blank, and an operand that binds weaker is in
parentheses. -/
theorem isRead_unary {pos : Pos} {op : Operator} (hop : op.isUnary) (hx : x.IsPrintable) (h : x.IsRead) :
    (Expr.unary pos op x).IsRead := by
  have hoperand := h.operand hx x.binding?.isSome .unary .primary fun hb _ _ hs =>
    hs.unary (Option.isSome_eq_false_iff.mp hb |> Option.isNone_iff_eq_none.mp)
  have hspaced := hoperand.spaceIf_then (needsSpace op x.pieces)
  unfold IsRead
  rw [pieces, List.append_assoc]
  obtain ⟨c, hhead, hjoins⟩ := exists_head_operand hop hx.leads x.binding?.isSome
  refine (Prints.operator op).before c (by rw [hjoins]; rfl) (hspaced.mono (fun c hc => ?_) id) hhead ?_
  · rw [endsBefore_of_isOperation rfl hc x, Bool.or_true]
  · rintro ts ms us ⟨l, hl, rfl⟩ hms hus
    have hunary := SpellsExpr.unary pos hl hop (hms hus)
    exact ⟨fun _ _ => .operand hunary, fun _ => hunary, fun hx => by cases hx⟩

/-- An operation of two operands is read back. The left operand may bind as strongly, the right one must bind
more strongly or is in parentheses; with `>` the operands have changed places. -/
theorem isRead_binary {pos : Pos} {op : Operator} (hop : op ≠ .not) (hx : x.IsPrintable) (hy : y.IsPrintable)
    (h : x.IsRead) (h' : y.IsRead) : (Expr.binary pos op x y).IsRead := by
  have hpos := Operator.precedence_pos hop
  -- Parentheses stand around the operand that binds too loosely: on the left below the operator, on the right
  -- not above it.
  have hleft := h.operand hx (x.bindsLooser op) (.binary (op.precedence - 1)) (fun h => .operand (.primary h))
    fun hb _ _ hs => hs.binary _ fun n hn => by
      unfold bindsLooser at hb
      rw [hn, Option.any_some, decide_eq_false_iff_not] at hb
      omega
  have hright := h'.operand hy (y.bindsNoTighter op) (.binary op.precedence) (fun h => .operand (.primary h))
    fun hb _ _ hs => hs.binary _ fun n hn => by
      unfold bindsNoTighter at hb
      rw [hn, Option.any_some, decide_eq_false_iff_not] at hb
      omega
  have hspace : isNamePart ' ' = false := by decide
  have hoperator : Prints ([space] ++ [.word op.spelling] ++ [space]) (fun _ => true)
      fun ts us => ∃ l : Lexeme, l.operator? = some op ∧ ts = l :: us := by
    have hblank : (!op.joins ' ') = true := by
      rw [show op.joins ' ' = false from Word.not_joins_of_blank (.op op) (by decide)]
      rfl
    exact ((Prints.operator op).space_then).then_space hblank
  -- Left operand and operator first, then the right operand, in the order of `pieces`.
  have hfront : Prints (Piece.parenthesizedIf (x.bindsLooser op) x.pieces ++
      ([space] ++ [.word op.spelling] ++ [space])) (fun _ => true)
      fun ts us => ∃ l : Lexeme, l.operator? = some op ∧ SpellsExpr (.binary (op.precedence - 1)
        (parenthesizedIf (x.bindsLooser op) x.reread)) ts (l :: us) := by
    refine hleft.before ' ' ?_ hoperator rfl ?_
    · rw [x.endsBefore_of_ne hspace (by decide), Bool.or_true]
    · rintro ts ms us hts ⟨l, hl, rfl⟩
      refine ⟨l, hl, hts ?_⟩
      rw [peek_cons]
      rcases l.token_of_operator? hl with ht | ht <;> exact ht ▸ Token.noConfusion
  unfold IsRead
  rw [pieces]
  refine hfront.append (hright.mono (fun c hc => ?_) id) (fun _ _ => rfl) ?_
  · rw [endsBefore_of_isOperation rfl hc y, Bool.or_true]
  · rintro ts ms us ⟨l, hl, hts⟩ hms hus
    constructor
    case binary => exact fun floor hfloor => .operation pos hl (hfloor _ rfl) hts (hms hus)
    case unary => exact fun hx => by cases hx
    case primary => exact fun hx => by cases hx

/-- What a selection, an index or arguments come behind. -/
theorem IsRead.primary (h : x.IsRead) (hx : x.IsPrintable) :
    Prints (Piece.parenthesizedIf x.isOperation x.pieces) (fun c => x.isOperation || x.endsBefore c)
      fun ts us => peek us ≠ .lbrace →
        SpellsExpr (.primary (parenthesizedIf x.isOperation x.reread)) ts us :=
  h.operand hx x.isOperation .primary id fun hb _ _ hs => hs.primary hb

/-- A selection is read back, unless its operand is a number that would take the point. -/
theorem isRead_selector {pos : Pos} {field : Ident} (hx : x.IsPrintable) (hint : x.isPlainInt = false)
    (hfield : isIdentifier field.text) (h : x.IsRead) : (Expr.selector pos x field).IsRead := by
  have hselection : Prints ([.word Token.dot.spelling] ++ [.word field.text]) (fun c => !isNamePart c)
      fun ts us => ∃ d f : Lexeme, d.token = .dot ∧ f.token = .name ∧ f.literal = field.text ∧
        ts = d :: f :: us := by
    obtain ⟨c, cs, htext, hstart, -⟩ := Word.exists_of_isIdentifier hfield
    have hhead : (chars [.word field.text]).head? = some c := by
      rw [chars_singleton]
      exact congrArg List.head? htext
    -- A name does not start with a digit or another point.
    have hdigit : c.isDigit = false := Bool.eq_false_iff.mpr fun hc => by
      rw [Scanner.not_isNameStart_of_isDigit hc] at hstart
      cases hstart
    have hpoint : c ≠ '.' := fun he => absurd (he ▸ hstart) (by decide)
    refine (Prints.mark .dot rfl).before c (by simp [Token.joins, hdigit, hpoint]) (Prints.name hfield) hhead ?_
    rintro ts ms us ⟨d, hd, rfl⟩ ⟨f, hf, hliteral, rfl⟩
    exact ⟨d, f, hd, hf, hliteral, rfl⟩
  have hpoint : (x.isOperation || x.endsBefore '.') = true := by
    have hname : isNamePart '.' = false := by decide
    unfold endsBefore
    cases x.isOperation <;> simp [hint, hname]
  refine (h.primary hx).before '.' hpoint (hselection.mono (fun _ => not_isNamePart_of_endsBefore) id) rfl ?_
  rintro ts ms us hts ⟨d, f, hd, hf, hliteral, rfl⟩ -
  have hselector := SpellsExpr.selector pos field.pos (hts (by rw [peek_cons, hd]; exact Token.noConfusion)) hd hf
  rw [hliteral] at hselector
  exact .of_primary hselector

/-- An index is read back. -/
theorem isRead_index {pos : Pos} {i : Expr} (hx : x.IsPrintable) (hi : i.IsPrintable) (h : x.IsRead)
    (h' : i.IsRead) : (Expr.index pos x i).IsRead := by
  have hindex : Prints ([.word Token.lbrack.spelling] ++ i.pieces ++ [.word Token.rbrack.spelling])
      (Expr.index pos x i).endsBefore fun ts us => ∃ l r ms, l.token = .lbrack ∧ ts = l :: ms ∧
        SpellsWhole i.reread ms (r :: us) ∧ r.token = .rbrack := by
    refine h'.enclosed .lbrack .rbrack rfl rfl (fun _ => rfl) (fun _ => rfl) rfl
      (i.endsBefore_of_ne (by decide) (by decide)) fun hl hts hr => ⟨_, _, _, hl, rfl, ?_, hr⟩
    exact (hts (by rw [peek_cons, hr]; exact Token.noConfusion)).whole hi
  unfold IsRead
  rw [pieces, List.append_assoc, List.append_assoc, ← List.append_assoc [_]]
  refine (h.primary hx).before '[' ?_ hindex rfl ?_
  · rw [x.endsBefore_of_ne (by decide) (by decide), Bool.or_true]
  · rintro ts ms us hts ⟨l, r, ms, hl, rfl, hms, hr⟩ -
    exact .of_primary (.index pos (hts (by rw [peek_cons, hl]; exact Token.noConfusion)) hl hms hr)

/-- Expressions with commas between them, before what closes the list. -/
theorem prints_list {xs : List Expr} (hxs : ∀ x ∈ xs, x.IsPrintable ∧ x.IsRead) :
    Prints (commaSeparated (piecesEach xs)) (fun c => !isNamePart c && c ≠ '.')
      fun ts us => peek us ≠ .lbrace → SpellsExpr (.list (rereadEach xs)) ts us := by
  have hallows {x : Expr} (c : Char) (hc : (!isNamePart c && decide (c ≠ '.')) = true) : x.endsBefore c := by
    simp only [Bool.and_eq_true, Bool.not_eq_true', decide_eq_true_eq] at hc
    exact x.endsBefore_of_ne hc.1 hc.2
  -- Along the list; a last element has no comma behind it.
  induction xs with
  | nil => exact Prints.nil.mono (fun _ hc => hc) fun hts _ => hts ▸ .nil
  | cons x xs ih =>
    obtain ⟨hx, h⟩ := hxs x List.mem_cons_self
    cases xs with
    | nil =>
      have hlast := h.mono hallows fun hts hus => SpellsExpr.last ((hts hus).whole hx)
      unfold commaSeparated
      rw [piecesEach, piecesEach, List.intercalate_singleton]
      exact hlast
    | cons y ys =>
      have hrest := ih fun z hz => hxs z (List.mem_cons_of_mem _ hz)
      have hcomma : Prints ([.word Token.comma.spelling] ++ [space]) (fun _ => true)
          fun ts us => ∃ l : Lexeme, l.token = .comma ∧ ts = l :: us :=
        (Prints.mark .comma rfl).then_space rfl
      -- The comma also tells that no block follows, which a slice type at the end would mind.
      have hfirst : Prints (x.pieces ++ ([.word Token.comma.spelling] ++ [space])) (fun _ => true)
          fun ts us => ∃ l : Lexeme, l.token = .comma ∧ SpellsWhole x.reread ts (l :: us) := by
        refine h.before ',' (x.endsBefore_of_ne (by decide) (by decide)) hcomma rfl ?_
        rintro ts ms us hts ⟨l, hl, rfl⟩
        exact ⟨l, hl, (hts (by rw [peek_cons, hl]; exact Token.noConfusion)).whole hx⟩
      unfold commaSeparated at hrest ⊢
      rw [piecesEach, piecesEach, List.intercalate_cons_cons]
      refine hfirst.append hrest (fun _ _ => rfl) ?_
      rintro ts ms us ⟨l, hl, hts⟩ hms hus
      exact .cons hts hl (hms hus)

/-- A call is read back. -/
theorem isRead_call {pos : Pos} {args : List Expr} (hx : x.IsPrintable) (h : x.IsRead)
    (hargs : ∀ arg ∈ args, arg.IsPrintable ∧ arg.IsRead) : (Expr.call pos x args).IsRead := by
  have hcall : Prints (parenthesized (commaSeparated (piecesEach args))) (Expr.call pos x args).endsBefore
      fun ts us => ∃ l r ms, l.token = .lparen ∧ ts = l :: ms ∧
        SpellsExpr (.list (rereadEach args)) ms (r :: us) ∧ r.token = .rparen := by
    refine (prints_list hargs).enclosed .lparen .rparen rfl rfl (fun _ => rfl) (fun _ => rfl) rfl
      (by decide) fun hl hts hr => ⟨_, _, _, hl, rfl, ?_, hr⟩
    exact hts (by rw [peek_cons, hr]; exact Token.noConfusion)
  unfold IsRead
  rw [pieces]
  refine (h.primary hx).before '(' ?_ hcall rfl ?_
  · rw [x.endsBefore_of_ne (by decide) (by decide), Bool.or_true]
  · rintro ts ms us hts ⟨l, r, ms, hl, rfl, hms, hr⟩ -
    exact .of_primary (.call pos (hts (by rw [peek_cons, hl]; exact Token.noConfusion)) hl hms hr)

/-! ## Types and slices -/

/-- Brackets before the type of the elements. -/
theorem prints_slice (pos : Pos) {elem : Expr} (h : Prints elem.pieces (fun c => !isNamePart c)
    (SpellsType elem.reread)) : Prints ([.word "[", .word "]"] ++ elem.pieces) (fun c => !isNamePart c)
      (SpellsType (.sliceType pos elem.reread)) := by
  have hclosed := h.bracket_then .rbrack rfl fun _ => rfl
  refine (hclosed.bracket_then .lbrack rfl fun _ => rfl).mono (fun _ hc => hc) ?_
  rintro ts us ⟨l, ms, hl, rfl, r, ms', hr, rfl, hms⟩
  exact .slice pos hl hr hms

/-- A type that can be printed is read back. -/
theorem IsPlainType.prints (h : x.IsPlainType) :
    Prints x.pieces (fun c => !isNamePart c) (SpellsType x.reread) := by
  induction h with
  | @name n hn =>
    refine (Prints.name hn).mono (fun _ hc => hc) ?_
    rintro ts us ⟨l, hl, hliteral, rfl⟩
    have hname : SpellsType _ (l :: us) us := .name n.pos hl
    rwa [hliteral] at hname
  | slice _ ih => exact prints_slice _ ih

/-- A slice type is read back, unless a brace behind it opens its elements. -/
theorem isRead_sliceType {pos : Pos} (h : x.IsPlainType) : (Expr.sliceType pos x).IsRead :=
  (prints_slice pos h.prints).mono (fun _ => not_isNamePart_of_endsBefore)
    fun hts hus => .of_primary (.sliceType hts hus)

/-- A slice with its elements is read back. -/
theorem isRead_sliceLit {pos : Pos} {elems : List Expr} (h : x.IsPlainType)
    (helems : ∀ elem ∈ elems, elem.IsPrintable ∧ elem.IsRead) : (Expr.sliceLit pos x elems).IsRead := by
  have hlist : Prints ([.word Token.lbrace.spelling] ++ commaSeparated (piecesEach elems) ++
      [.word Token.rbrace.spelling]) (Expr.sliceLit pos x elems).endsBefore
      fun ts us => ∃ l r ms, l.token = .lbrace ∧ ts = l :: ms ∧
        SpellsExpr (.list (rereadEach elems)) ms (r :: us) ∧ r.token = .rbrace := by
    refine (prints_list helems).enclosed .lbrace .rbrace rfl rfl (fun _ => rfl) (fun _ => rfl) rfl
      (by decide) fun hl hts hr => ⟨_, _, _, hl, rfl, ?_, hr⟩
    exact hts (by rw [peek_cons, hr]; exact Token.noConfusion)
  unfold IsRead
  rw [pieces, List.append_assoc, List.append_assoc, ← List.append_assoc [_]]
  refine (prints_slice pos h.prints).before '\x7b' (by decide) hlist rfl ?_
  rintro ts ms us hts ⟨l, r, ms, hl, rfl, hms, hr⟩ -
  exact .of_primary (.sliceLit hts hl hms hr)

/-- Parentheses are left out where they are not needed, and what is in them is read back. -/
theorem isRead_paren {pos : Pos} (hx : x.IsPrintable) (h : x.IsRead) : (Expr.paren pos x).IsRead := by
  refine h.enclosed .lparen .rparen rfl rfl (fun _ => rfl) (fun _ => rfl) rfl
    (x.endsBefore_of_ne (by decide) (by decide)) fun hl hts hr _ => ?_
  exact .of_primary (.paren pos hl ((hts (by rw [peek_cons, hr]; exact Token.noConfusion)).whole hx) hr)

/-- The pieces of a printable expression print what it is read back as. -/
theorem IsPrintable.isRead (h : x.IsPrintable) : x.IsRead := by
  induction h with
  | name hn => exact isRead_name hn
  | literal hl => exact isRead_literal hl
  | unary hop hx ih => exact isRead_unary hop hx ih
  | binary hop hx hy ihx ihy => exact isRead_binary hop hx hy ihx ihy
  | selector hx hint hfield ih => exact isRead_selector hx hint hfield ih
  | index hx hi ihx ihi => exact isRead_index hx hi ihx ihi
  | call hx hargs ih ihargs => exact isRead_call hx ih fun arg harg => ⟨hargs arg harg, ihargs arg harg⟩
  | sliceType helem => exact isRead_sliceType helem
  | sliceLit helem helems ih => exact isRead_sliceLit helem fun elem he => ⟨helems elem he, ih elem he⟩
  | paren hx ih => exact isRead_paren hx ih

end Expr

end FrontEnd
