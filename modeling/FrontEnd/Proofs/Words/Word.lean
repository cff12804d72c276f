import FrontEnd.Proofs.Gaps.Passages
import FrontEnd.Proofs.Lexemes
import FrontEnd.Proofs.Trees.Sound
import FrontEnd.Proofs.Words.Coming

/-!
# Words

A `Word` is a token as it may be written: a name, a keyword, a literal, an operator by itself, doubled or
before an equals sign, a mark or a semicolon. Whichever it is, an attempt at its first character finds it
and stops behind its last one, if what comes then does not join it (`Scanner.attemptAt_of_comes`): none of
the spellings that it is the start of comes next. Blanks join no word (`Word.not_joins_of_blank`).
-/

namespace FrontEnd

/-- The blanks that words are kept apart with. -/
def CharStream.gapBlanks : List Char := [' ', '\t', '\r']

/-- Whether the operator may go on with the character. -/
def Operator.joins (op : Operator) (c : Char) : Bool :=
  match op with
  | .add => c = '+' || c = '='
  | .sub => c = '-' || c = '='
  | .div => c = '/' || c = '*' || c = '='
  | .and => c = '&' || c = '^' || c = '='
  | .or => c = '|' || c = '='
  | .less => c = '<' || c = '='
  | .greater => c = '>' || c = '='
  | .not | .mul | .rem | .xor | .andNot | .shiftLeft | .shiftRight => c = '='
  | .orOr | .andAnd | .equal | .notEqual | .lessEqual | .greaterEqual => false

/-- Whether the mark may go on with the character. -/
def Token.joins (t : Token) (c : Char) : Bool :=
  match t with
  | .assign | .colon => c = '='
  | .dot => c.isDigit || c = '.'
  | _ => false

/-- Whether a literal of the kind that is written with the characters may go on with another one. -/
def LitKind.joins (kind : LitKind) (cs : List Char) (c : Char) : Bool :=
  match kind with
  | .int => isNamePart c || (c = '.' && decide (IsDigits .decimal cs))
  | .float => isNamePart c
  | .rune | .string => false

/-- A token as it is written. -/
inductive Word where
  | name (text : String) (valid : isIdentifier text)
  | keyword (k : Keyword)
  | literal (kind : LitKind) (text : String) (valid : IsLiteral kind text.toList)
  | op (op : Operator)
  | assignOp (op : Operator) (valid : op.isAssignable)
  | incOp (op : Operator) (valid : op.isStep)
  | mark (t : Token) (valid : t.isMark)
  | semi

namespace Word

/-- The characters of the word. -/
def chars : Word → List Char
  | name text _ | literal _ text _ => text.toList
  | keyword k => k.spelling.toList
  | op o => o.spelling.toList
  | assignOp o _ => o.spelling.toList ++ ['=']
  | incOp o _ => o.spelling.toList ++ o.spelling.toList
  | mark t _ => t.spelling.toList
  | semi => [';']

/-- The class of the word. -/
def token : Word → Token
  | name .. => .name
  | keyword k => .keyword k
  | literal .. => .literal
  | op .mul => .star
  | op _ => .op
  | assignOp .. => .assignOp
  | incOp .. => .incOp
  | mark t _ => t
  | semi => .semi

/-- The text of the word in a list of tokens. -/
def text : Word → String
  | name text _ | literal _ text _ => text
  | keyword k => k.spelling
  | op o => o.spelling
  | assignOp o _ => o.spelling ++ "="
  | incOp o _ => o.spelling ++ o.spelling
  | mark t _ => t.spelling
  | semi => Lexeme.semicolonReason

/-- Whether the word may go on with the character. -/
def joins (w : Word) (c : Char) : Bool :=
  match w with
  | name .. | keyword .. => isNamePart c
  | literal kind text _ => kind.joins text.toList c
  | op o => o.joins c
  | mark t _ => t.joins c
  | assignOp .. | incOp .. | semi => false

/-- A lexeme completed to the word. -/
def complete (l : Lexeme) : Word → Lexeme
  | name text _ => l.withWord text
  | keyword k => l.withWord k.spelling
  | literal kind text _ => l.withLiteral text kind false
  | op .mul => l.withOp .star .mul
  | op o => l.withOp .op o
  | assignOp o _ => l.withOp .assignOp o
  | incOp o _ => (l.withOp .incOp o).ending
  | mark t _ => l.withToken t
  | semi => l.withReason Lexeme.semicolonReason

/-- The parts of a name. -/
theorem exists_of_isIdentifier {text : String} (h : isIdentifier text) : ∃ c cs, text.toList = c :: cs ∧
    isNameStart c ∧ cs.all isNamePart ∧ Keyword.ofSpelling? text = none := by
  unfold isIdentifier at h
  split at h
  · cases h
  · next c cs htext =>
    simp only [Bool.and_eq_true, Option.isNone_iff_eq_none] at h
    exact ⟨c, cs, htext, h.1.1, h.1.2, h.2⟩

/-- The lexeme is of the class of the word. -/
theorem token_complete (w : Word) (l : Lexeme) : (w.complete l).token = w.token := by
  cases w with
  | name text valid =>
    obtain ⟨-, -, -, -, -, hkeyword⟩ := exists_of_isIdentifier valid
    change (Keyword.ofSpelling? text).elim Token.name Token.keyword = .name
    rw [hkeyword]
    rfl
  | keyword k =>
    change (Keyword.ofSpelling? k.spelling).elim Token.name Token.keyword = .keyword k
    rw [k.ofSpelling?_spelling]
    rfl
  | op o => cases o <;> rfl
  | _ => rfl

/-- The lexeme has the text of the word. -/
theorem text_complete (w : Word) (l : Lexeme) : (w.complete l).text = w.text := by
  have htoken := w.token_complete l
  unfold Lexeme.text
  rw [htoken]
  cases w with
  | op o => cases o <;> rfl
  | mark t valid => cases t <;> first | rfl | cases valid
  | _ => rfl

/-- Keywords are written like names. -/
theorem exists_of_keyword (k : Keyword) : ∃ c cs, k.spelling.toList = c :: cs ∧ isNameStart c ∧
    cs.all isNamePart := by
  cases k <;> simp only [Keyword.spelling, String.reduceToList] <;>
    exact ⟨_, _, rfl, by decide, by decide⟩

/-- Every literal starts like one. -/
theorem exists_of_isLiteral {kind : LitKind} {cs : List Char} (h : IsLiteral kind cs) :
    ∃ d ds, cs = d :: ds ∧ startsToken d := by
  have hdigit {d : Char} (hd : d.isDigit) : startsToken d := by
    unfold startsToken
    rw [hd, Bool.or_true, Bool.true_or]
  cases kind with
  | int =>
    cases h with
    | plain hc => exact ⟨_, _, rfl, hdigit hc⟩
    | marked => exact ⟨_, _, rfl, by decide⟩
  | float =>
    cases h with
    | pointed hc => exact ⟨_, _, rfl, hdigit hc⟩
    | fraction => exact ⟨_, _, rfl, by decide⟩
    | scaled hc => exact ⟨_, _, rfl, hdigit hc⟩
  | rune =>
    cases h
    exact ⟨_, _, rfl, by decide⟩
  | string => cases h <;> exact ⟨_, _, rfl, by decide⟩

/-- Every word starts like a token. -/
theorem exists_chars (w : Word) : ∃ c cs, w.chars = c :: cs ∧ startsToken c := by
  have hname {c : Char} (hc : isNameStart c) : startsToken c := by
    unfold startsToken
    rw [hc, Bool.true_or, Bool.true_or]
  have hop (o : Operator) (more : List Char) :
      ∃ c cs, o.spelling.toList ++ more = c :: cs ∧ startsToken c := by
    cases o <;> simp only [Operator.spelling, String.reduceToList] <;> exact ⟨_, _, rfl, by decide⟩
  -- Each kind of word begins with a character that starts a token.
  cases w with
  | name text valid =>
    obtain ⟨c, cs, htext, hstart, -⟩ := exists_of_isIdentifier valid
    exact ⟨c, cs, htext, hname hstart⟩
  | keyword k =>
    obtain ⟨c, cs, htext, hstart, -⟩ := exists_of_keyword k
    exact ⟨c, cs, htext, hname hstart⟩
  | literal kind text valid => exact exists_of_isLiteral valid
  | op o =>
    obtain ⟨c, cs, hchars, hc⟩ := hop o []
    rw [List.append_nil] at hchars
    exact ⟨c, cs, hchars, hc⟩
  | assignOp o => exact hop o _
  | incOp o => exact hop o _
  | mark t valid =>
    cases t <;> first | (cases valid; done) | simp only [chars, Token.spelling, String.reduceToList]
    all_goals exact ⟨_, _, rfl, by decide⟩
  | semi => exact ⟨_, _, rfl, by decide⟩

/-- No word goes on with a blank. -/
theorem not_joins_of_blank (w : Word) {c : Char} (hc : c ∈ CharStream.gapBlanks) : w.joins c = false := by
  have hname : ∀ c ∈ CharStream.gapBlanks, isNamePart c = false := by decide
  -- A blank is no part of a name or a number and stands in no operator.
  cases w with
  | name | keyword => exact hname c hc
  | literal kind text =>
    have hpoint : ∀ c ∈ CharStream.gapBlanks, decide (c = '.') = false := by decide
    cases kind with
    | int =>
      change (isNamePart c || (decide (c = '.') && _)) = false
      rw [hname c hc, hpoint c hc]
      rfl
    | float => exact hname c hc
    | rune | string => rfl
  | op o =>
    have hop : ∀ c ∈ CharStream.gapBlanks, o.joins c = false := by cases o <;> decide
    exact hop c hc
  | mark t =>
    have hmark : ∀ c ∈ CharStream.gapBlanks, t.joins c = false := by
      intro c hc
      cases t <;> first | rfl | (revert c; decide)
    exact hmark c hc
  | _ => rfl

end Word

namespace Scanner

open CharStream

variable {ω : Type} [ByteWindow ω] {s s' : CharStream ω} {l : Lexeme} {separable : Bool}

/-- An operator that may be joined with an assignment, and is or is not. -/
theorem attemptAt_assignable {op : Operator} {c : Char} {cs : List Char} (hop : op.isAssignable)
    (hmul : op ≠ .mul) (hchars : op.spelling.toList = c :: cs) (h : s.Comes op.spelling.toList s')
    (hnext : s'.Past fun d => op.joins d && d ≠ '=') :
    attemptAt separable l c s = .found (assignable l op s') := by
  -- The spelling is followed by nothing that would make a longer operator of it.
  have hne {d : Char} (hd : (op.joins d && d ≠ '=') = true) : s'.char? ≠ some d := hnext.ne hd
  -- One case for each length of the spelling and each way of looking ahead.
  cases op <;> cases hop
  case mul => exact absurd rfl hmul
  all_goals
    simp only [Operator.spelling, String.reduceToList, List.cons.injEq] at h hchars
    obtain ⟨rfl, rfl⟩ := hchars
  case add | sub | or =>
    obtain ⟨-, rfl⟩ := h
    exact congrArg Attempt.found (if_neg (hne (by decide)))
  case xor | rem =>
    obtain ⟨-, rfl⟩ := h
    rfl
  case div =>
    obtain ⟨-, rfl⟩ := h
    exact (if_neg (hne (by decide))).trans (if_neg (hne (by decide)))
  case and =>
    obtain ⟨-, rfl⟩ := h
    exact congrArg Attempt.found ((if_neg (hne (by decide))).trans (if_neg (hne (by decide))))
  case andNot =>
    obtain ⟨-, hcaret, rfl⟩ := h
    have hand : s.advance.char? ≠ some '&' := by
      rw [hcaret]
      decide
    exact congrArg Attempt.found ((if_neg hand).trans (if_pos hcaret))
  case shiftLeft =>
    obtain ⟨-, hangle, rfl⟩ := h
    have hequals : s.advance.char? ≠ some '=' := by
      rw [hangle]
      decide
    exact congrArg Attempt.found ((if_neg hequals).trans (if_pos hangle))
  case shiftRight =>
    obtain ⟨-, hangle, rfl⟩ := h
    have hequals : s.advance.char? ≠ some '=' := by
      rw [hangle]
      decide
    exact congrArg Attempt.found ((if_neg hequals).trans (if_pos hangle))

/-- Any other operator. -/
theorem attemptAt_op {op : Operator} {c : Char} {cs : List Char}
    (hop : op.isAssignable = false ∨ op = .mul) (hchars : op.spelling.toList = c :: cs)
    (h : s.Comes op.spelling.toList s') (hnext : s'.Past op.joins) :
    attemptAt separable l c s = .found ⟨s', (Word.op op).complete l⟩ := by
  have hne {d : Char} (hd : op.joins d = true) : s'.char? ≠ some d := hnext.ne hd
  cases op <;> first | (rcases hop with hop | hop <;> cases hop; done) | skip
  all_goals
    simp only [Operator.spelling, String.reduceToList, List.cons.injEq] at h hchars
    obtain ⟨rfl, rfl⟩ := hchars
  case not | mul =>
    obtain ⟨-, rfl⟩ := h
    exact congrArg Attempt.found (if_neg (hne (by decide)))
  case less | greater =>
    obtain ⟨-, rfl⟩ := h
    exact congrArg Attempt.found ((if_neg (hne (by decide))).trans (if_neg (hne (by decide))))
  case orOr | andAnd | equal | notEqual | lessEqual | greaterEqual =>
    obtain ⟨-, hsecond, rfl⟩ := h
    exact congrArg Attempt.found (if_pos hsecond)

/-- A mark. -/
theorem attemptAt_mark {t : Token} {c : Char} {cs : List Char} (ht : t.isMark)
    (hchars : t.spelling.toList = c :: cs) (h : s.Comes t.spelling.toList s') (hnext : s'.Past t.joins) :
    attemptAt separable l c s = .found ⟨s', l.withToken t⟩ := by
  have hne {d : Char} (hd : t.joins d = true) : s'.char? ≠ some d := hnext.ne hd
  -- The dot looks ahead twice, at a digit and at a second dot; the others once or not at all.
  cases t <;> first | (cases ht; done) | skip
  all_goals
    simp only [Token.spelling, String.reduceToList, List.cons.injEq] at h hchars
    obtain ⟨rfl, rfl⟩ := hchars
  case lparen | lbrack | lbrace | rparen | rbrack | rbrace | comma =>
    obtain ⟨-, rfl⟩ := h
    rfl
  case assign | colon =>
    obtain ⟨-, rfl⟩ := h
    exact congrArg Attempt.found (if_neg (hne (by decide)))
  case define =>
    obtain ⟨-, hequals, rfl⟩ := h
    exact congrArg Attempt.found (if_pos hequals)
  case dot =>
    obtain ⟨-, rfl⟩ := h
    have hdigit : s.advance.Past Char.isDigit := hnext.mono fun d hd => by
      unfold Token.joins
      rw [hd, Bool.true_or]
    exact congrArg Attempt.found ((if_neg (by rw [hdigit]; decide)).trans (if_neg (hne (by decide))))
  case dotDotDot =>
    obtain ⟨-, hsecond, hthird, rfl⟩ := h
    have hdigit : s.advance.Past Char.isDigit := past_of_char? hsecond (by decide)
    exact congrArg Attempt.found
      ((if_neg (by rw [hdigit]; decide)).trans ((if_pos hsecond).trans (if_pos hthird)))

/-- An operator before an equals sign. -/
theorem attemptAt_assignOp {op : Operator} {c : Char} {cs : List Char} (hop : op.isAssignable)
    (hchars : op.spelling.toList ++ ['='] = c :: cs) (h : s.Comes (op.spelling.toList ++ ['=']) s') :
    attemptAt separable l c s = .found ⟨s', l.withOp .assignOp op⟩ := by
  obtain ⟨t, hspelling, hequals, rfl⟩ := comes_concat.mp h
  by_cases hmul : op = .mul
  · subst hmul
    simp only [Operator.spelling, String.reduceToList, List.cons_append, List.cons.injEq] at hchars hspelling
    obtain ⟨rfl, rfl⟩ := hchars
    obtain ⟨-, rfl⟩ := hspelling
    exact congrArg Attempt.found (if_pos hequals)
  · have hnext : t.Past fun d => op.joins d && d ≠ '=' := past_of_char? hequals (by simp)
    cases hspelled : op.spelling.toList with
    | nil => cases op <;> cases hspelled
    | cons d ds =>
      rw [hspelled] at hchars
      cases hchars
      rw [attemptAt_assignable hop hmul hspelled hspelling hnext]
      exact congrArg Attempt.found (if_pos hequals)

/-- A doubled sign. -/
theorem attemptAt_incOp {op : Operator} {c : Char} {cs : List Char} (hop : op.isStep)
    (hchars : op.spelling.toList ++ op.spelling.toList = c :: cs)
    (h : s.Comes (op.spelling.toList ++ op.spelling.toList) s') :
    attemptAt separable l c s = .found ⟨s', (l.withOp .incOp op).ending⟩ := by
  cases op <;> first | (cases hop; done) | skip
  all_goals
    simp only [Operator.spelling, String.reduceToList, List.cons_append, List.cons.injEq] at h hchars
    obtain ⟨rfl, rfl⟩ := hchars
    obtain ⟨-, hsecond, rfl⟩ := h
    exact congrArg Attempt.found (if_pos hsecond)

/-! ## Names, keywords and literals -/

/-- A name or a keyword. -/
theorem attemptAt_word {c : Char} {cs : List Char} (hstart : isNameStart c) (hparts : cs.all isNamePart)
    (h : s.Comes (c :: cs) s') (hnext : s'.Past isNamePart) :
    attemptAt separable l c s = .found ⟨s', l.withWord s'.markedText⟩ := by
  have hskip : s.advance.skipWhile isNamePart = s' :=
    skipWhile_of_comes h.2 (List.all_eq_true.mp hparts) hnext
  rw [attemptAt_of_isNameStart hstart, word, hskip]

/-- No name starts with a digit. -/
theorem not_isNameStart_of_isDigit {c : Char} (h : c.isDigit) : isNameStart c = false := by
  have hall : ∀ c ∈ decimalDigits, isNameStart c = false := by decide
  exact hall c (mem_decimalDigits h)

/-- A digit starts a number. -/
theorem attemptAt_digit {c : Char} {kind : LitKind} (hc : c.isDigit)
    (h : s.number l.place = (⟨kind, false⟩, s')) :
    attemptAt separable l c s = .found ⟨s', l.withLiteral s'.markedText kind false⟩ := by
  unfold attemptAt
  rw [if_neg (by simp [not_isNameStart_of_isDigit hc]), if_pos hc, h]
  rfl

/-- A literal. -/
theorem attemptAt_literal {kind : LitKind} {c : Char} {cs : List Char} (hliteral : IsLiteral kind (c :: cs))
    (h : s.Comes (c :: cs) s') (hnext : s'.Past (kind.joins (c :: cs))) :
    attemptAt separable l c s = .found ⟨s', l.withLiteral s'.markedText kind false⟩ := by
  -- By the kind, and within it by the form that the grammar gives the literal.
  cases kind with
  | int =>
    have hname : s'.Past isNamePart := hnext.mono fun d hd => by
      unfold LitKind.joins
      rw [hd, Bool.true_or]
    generalize he : c :: cs = all at hliteral
    cases hliteral with
    | @plain d ds hc hcs =>
      cases he
      have hall : IsDigits .decimal (c :: cs) := by
        intro d hd
        rcases List.mem_cons.mp hd with rfl | hd
        · exact .inr (Radix.isDigit_decimal.mpr hc)
        · exact hcs d hd
      -- A plain run of decimal digits may not be followed by a point, which would make it a float.
      have hpoint : LitKind.int.joins (c :: cs) '.' = true := by
        unfold LitKind.joins
        rw [decide_eq_true hall]
        rfl
      rw [← List.append_nil cs] at h
      exact attemptAt_digit hc (number_of_comes l.place h hc hcs .none hname fun _ => hnext.ne hpoint)
    | marked hletter hcs =>
      cases he
      exact attemptAt_digit (by decide) (number_of_marked l.place h hletter hcs hname)
  | float =>
    have hname : s'.Past isNamePart := hnext
    generalize he : c :: cs = all at hliteral
    cases hliteral with
    | pointed hc hcs hfraction hexponent =>
      cases he
      exact attemptAt_digit hc
        (number_of_comes l.place h hc hcs (.point hfraction hexponent) hname LitKind.noConfusion)
    | @fraction d ds exponent hc hcs hexponent =>
      cases he
      have hdigit : s.advance.char?.any Char.isDigit := by
        rw [h.2.1]
        exact hc
      have hall : IsDigits .decimal (d :: ds) := by
        intro e he
        rcases List.mem_cons.mp he with rfl | he
        · exact .inr (Radix.isDigit_decimal.mpr hc)
        · exact hcs e he
      have hcomes : s.advance.Comes ((d :: ds) ++ exponent) s' := h.2
      have hrest := fraction_of_comes l.place hcomes hall hexponent hname
      change Attempt.found (dot l s) = _
      unfold dot
      dsimp only
      rw [if_pos hdigit, hrest]
      rfl
    | scaled hc hcs hexponent =>
      cases he
      exact attemptAt_digit hc
        (number_of_comes l.place h hc hcs (.exponent hexponent) hname LitKind.noConfusion)
  | rune =>
    generalize he : c :: cs = all at hliteral
    cases hliteral with
    | mk hitem =>
      cases he
      have hrest := runeRest_of_comes l.place h.2 hitem
      change Attempt.found (quoted l .rune (s.advance.runeRest l.place true 0)) = _
      rw [hrest]
      rfl
  | string =>
    generalize he : c :: cs = all at hliteral
    cases hliteral with
    | items hitems =>
      cases he
      have hrest := stringRest_of_comes l.place true h.2 hitems
      change Attempt.found (quoted l .string (s.advance.stringRest l.place true)) = _
      rw [hrest]
      rfl
    | raw hcs =>
      cases he
      have hrest := rawStringRest_of_comes l.place h.2 hcs
      change Attempt.found (quoted l .string (s.advance.rawStringRest l.place)) = _
      rw [hrest]
      rfl

/-! ## Words -/

/-- An attempt at the first character of a word finds the word, if what comes next does not join it. -/
theorem attemptAt_of_comes (w : Word) {c : Char} {cs : List Char} (hchars : w.chars = c :: cs)
    (h : s.Comes w.chars s') (hnext : s'.Past w.joins) (htext : s'.markedText = String.ofList w.chars) :
    attemptAt separable l c s = .found ⟨s', w.complete l⟩ := by
  -- Each kind of word is taken by the form of a token that starts like it.
  cases w with
  | name text valid =>
    obtain ⟨d, ds, htoList, hstart, hparts, -⟩ := Word.exists_of_isIdentifier valid
    change text.toList = c :: cs at hchars
    change s.Comes text.toList s' at h
    change s'.markedText = String.ofList text.toList at htext
    rw [String.ofList_toList] at htext
    cases htoList.symm.trans hchars
    rw [htoList] at h
    rw [attemptAt_word hstart hparts h hnext, htext]
    rfl
  | keyword k =>
    obtain ⟨d, ds, htoList, hstart, hparts⟩ := Word.exists_of_keyword k
    change k.spelling.toList = c :: cs at hchars
    change s.Comes k.spelling.toList s' at h
    change s'.markedText = String.ofList k.spelling.toList at htext
    rw [String.ofList_toList] at htext
    cases htoList.symm.trans hchars
    rw [htoList] at h
    rw [attemptAt_word hstart hparts h hnext, htext]
    rfl
  | literal kind text valid =>
    change text.toList = c :: cs at hchars
    change s.Comes text.toList s' at h
    change s'.markedText = String.ofList text.toList at htext
    rw [String.ofList_toList] at htext
    change s'.Past (kind.joins text.toList) at hnext
    rw [hchars] at valid h hnext
    rw [attemptAt_literal valid h hnext, htext]
    rfl
  | op o =>
    -- An operator that could be an assignment is followed by no `=`.
    by_cases ho : o.isAssignable = false ∨ o = .mul
    · exact attemptAt_op ho hchars h hnext
    · rw [not_or, Bool.not_eq_false] at ho
      have hothers : s'.Past fun d => o.joins d && d ≠ '=' := hnext.mono fun d hd => (Bool.and_eq_true_iff.mp hd).1
      have hequals : o.joins '=' = true := by
        cases o <;> first | rfl | cases ho.1
      rw [attemptAt_assignable ho.1 ho.2 hchars h hothers, assignable, if_neg (hnext.ne hequals)]
      cases o <;> first | rfl | exact absurd rfl ho.2
  | assignOp o valid => exact attemptAt_assignOp valid hchars h
  | incOp o valid => exact attemptAt_incOp valid hchars h
  | mark t valid => exact attemptAt_mark valid hchars h hnext
  | semi =>
    cases hchars
    obtain ⟨-, rfl⟩ := h
    rfl

end Scanner

end FrontEnd
