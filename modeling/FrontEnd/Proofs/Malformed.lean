import FrontEnd.Scanner

/-!
# Malformed literals

A literal is marked as malformed exactly if the scanner has reported an error of a literal on the way to it
(`Reader.bad_iff`). Every function that passes over something is followed for that: behind it, the stream
has such an error to tell if and only if it had one before or the function has found something wrong. What
has been reported stays reported until the lexeme has been found; that is why a fault in the middle of a
string or a rune is still known at its end.
-/

namespace FrontEnd

variable {ω : Type}

/-- Whether it is a literal that is malformed. -/
def LexFault.isOfLiteral : LexFault → Bool
  | .newlineInString | .unterminatedString | .unterminatedRawString
  | .newlineInRune | .unterminatedRune | .emptyRune | .crowdedRune
  | .unknownEscape | .badEscapeDigit .. | .escapeOutOfRange
  | .noDigits _ | .badDigit .. | .noExponentDigits => true
  | _ => false

namespace CharStream

/-- The stream has an error of a literal to tell. -/
def Faulty (s : CharStream ω) : Prop :=
  ∃ e, Report.error e ∈ s.reports.toList ∧ e.fault.isOfLiteral = true

/-- Behind a report there is an error of a literal to tell if there was one before or this is one. -/
theorem faulty_report (s : CharStream ω) (r : Report) :
    (s.report r).Faulty ↔ s.Faulty ∨ ∃ e, r = .error e ∧ e.fault.isOfLiteral = true := by
  unfold Faulty
  rw [CharStream.report, Array.toList_push]
  simp only [List.mem_append, List.mem_singleton, or_and_right, exists_or, eq_comm]

/-- Behind an error of a literal there is one to tell. -/
theorem faulty_complainAt (s : CharStream ω) (place : Place) {fault : LexFault}
    (h : fault.isOfLiteral = true) : (s.complainAt place fault).Faulty :=
  (faulty_report s _).mpr (.inr ⟨_, rfl, h⟩)

/-- Other errors do not count. -/
theorem faulty_complainAt_iff (s : CharStream ω) (place : Place) {fault : LexFault}
    (h : fault.isOfLiteral = false) : (s.complainAt place fault).Faulty ↔ s.Faulty := by
  refine (faulty_report s _).trans (or_iff_left ?_)
  rintro ⟨e, he, hfault⟩
  obtain rfl : _ = e := Report.error.inj he
  rw [h] at hfault
  cases hfault

/-- Counting a character tells nothing. -/
@[simp] theorem faulty_passChar (s : CharStream ω) : s.passChar.Faulty ↔ s.Faulty := by
  unfold Faulty
  rw [reports_passChar]

/-- What a window delivers may be no character, but is no malformed literal. -/
@[simp] theorem faulty_receive (s : CharStream ω) (fetched : Fetched × ω) :
    (s.receive fetched).Faulty ↔ s.Faulty := by
  -- The faults of decoding and reading are not those of a literal.
  have hfault {fault : LexFault} (h : s.fault? fetched.1 = some fault) : fault.isOfLiteral = false := by
    unfold fault? at h
    split at h
    · split at h
      · cases h
        rfl
      · cases h
    · cases h
      rfl
    · cases h
      rfl
    · obtain ⟨failure, -, rfl⟩ := Option.map_eq_some_iff.mp h
      rfl
  unfold receive
  dsimp only
  split
  · next h =>
    refine (faulty_complainAt_iff _ _ (hfault h)).trans ?_
    split <;> exact Iff.rfl
  · split <;> exact Iff.rfl

variable [ByteWindow ω] {s : CharStream ω}

/-- Going on to the next character tells of no literal. -/
@[simp] theorem faulty_seek (s : CharStream ω) : s.seek.Faulty ↔ s.Faulty := by
  fun_induction CharStream.seek s with
  | case1 s _ ih => simpa using ih
  | case2 s _ => exact faulty_receive s _

/-- Passing the current character tells of no literal. -/
@[simp] theorem faulty_advance (s : CharStream ω) : s.advance.Faulty ↔ s.Faulty := by
  rw [advance, faulty_seek, faulty_passChar]

/-- Setting a mark tells nothing. -/
@[simp] theorem faulty_setMark (s : CharStream ω) : s.setMark.Faulty ↔ s.Faulty := Iff.rfl

/-- Giving up a mark tells nothing. -/
@[simp] theorem faulty_clearMark (s : CharStream ω) : s.clearMark.Faulty ↔ s.Faulty := Iff.rfl

/-- Going back to the mark tells of no literal. -/
@[simp] theorem faulty_rewind (s : CharStream ω) : s.rewind.Faulty ↔ s.Faulty := faulty_advance _

/-- Skipping characters tells of no literal. -/
@[simp] theorem faulty_skipWhile (p : Char → Bool) (s : CharStream ω) :
    (s.skipWhile p).Faulty ↔ s.Faulty := by
  fun_induction CharStream.skipWhile p s with
  | case1 s _ ih => rw [ih, faulty_advance]
  | case2 => exact Iff.rfl

/-- Trying a word tells of no literal. -/
@[simp] theorem faulty_accept (word : List Char) (s : CharStream ω) :
    (s.accept word).2.Faulty ↔ s.Faulty := by
  induction word generalizing s with
  | nil => exact Iff.rfl
  | cons c word ih =>
    unfold accept
    split
    · rw [ih, faulty_advance]
    · exact Iff.rfl

/-! ## Numbers -/

/-- Passing digits tells of no literal: what is wrong with them is told behind all of them. -/
@[simp] theorem faulty_digits (radix : Radix) (run : DigitRun) (s : CharStream ω) :
    (s.digits radix run).2.Faulty ↔ s.Faulty := by
  fun_induction CharStream.digits radix run s with
  | case1 | case3 => exact Iff.rfl
  | case2 _ _ _ ih => rw [ih, faulty_advance]
  | case4 _ _ _ _ _ _ _ ih => rw [ih, faulty_advance]

/-- The exponent of a number is bad exactly if something is told about it. -/
theorem faulty_exponent (start : Place) (kind : LitKind) (s : CharStream ω) :
    (s.exponent start kind).2.Faulty ↔ s.Faulty ∨ (s.exponent start kind).1.bad = true := by
  unfold exponent
  split
  · dsimp only
    have hsign : (if s.advance.char? = some '+' ∨ s.advance.char? = some '-' then s.advance.advance
        else s.advance).Faulty ↔ s.Faulty := by
      split <;> simp
    generalize (if s.advance.char? = some '+' ∨ s.advance.char? = some '-' then s.advance.advance
      else s.advance) = t at hsign
    split
    · exact iff_of_true (faulty_complainAt _ _ rfl) (.inr rfl)
    · simp [hsign]
  · simp

/-- The fraction of a number is bad exactly if something is told about it. -/
theorem faulty_fraction (start : Place) (s : CharStream ω) :
    (s.fraction start).2.Faulty ↔ s.Faulty ∨ (s.fraction start).1.bad = true := by
  unfold fraction
  rw [faulty_exponent, faulty_digits]

/-- A decimal number is bad exactly if something is told about it. -/
theorem faulty_decimal (start : Place) (s : CharStream ω) :
    (s.decimal start).2.Faulty ↔ s.Faulty ∨ (s.decimal start).1.bad = true := by
  unfold decimal
  dsimp only
  split
  · rw [faulty_fraction, faulty_advance, faulty_digits]
  · rw [faulty_exponent, faulty_digits]

/-- A number with a prefix for its radix is bad exactly if something is told about it. -/
theorem faulty_markedInteger (start : Place) (radix : Radix) (s : CharStream ω) :
    (s.markedInteger start radix).2.Faulty ↔ s.Faulty ∨ (s.markedInteger start radix).1.bad = true := by
  unfold markedInteger
  dsimp only
  split
  · exact iff_of_true (faulty_complainAt _ _ rfl) (.inr rfl)
  · split
    · exact iff_of_true (faulty_complainAt _ _ rfl) (.inr rfl)
    · simp

/-- A number is bad exactly if something is told about it. -/
theorem faulty_number (start : Place) (s : CharStream ω) :
    (s.number start).2.Faulty ↔ s.Faulty ∨ (s.number start).1.bad = true := by
  unfold number
  split
  · split
    · rw [faulty_markedInteger, faulty_advance, faulty_advance]
    · rw [faulty_decimal, faulty_advance]
  · exact faulty_decimal start s

/-! ## Strings and runes -/

/-- The digits of an escape are bad exactly if something is told about them. -/
theorem faulty_escapeDigits (e : NumericEscape) (n value : Nat) (s : CharStream ω) :
    (s.escapeDigits e n value).2.Faulty ↔ s.Faulty ∨ (s.escapeDigits e n value).1 = false := by
  induction n generalizing value s with
  | zero =>
    unfold escapeDigits
    split
    · simp
    · exact iff_of_true (faulty_complainAt _ _ rfl) (.inr rfl)
  | succ n ih =>
    unfold escapeDigits
    split
    · simp
    · split
      · exact iff_of_true (faulty_complainAt _ _ rfl) (.inr rfl)
      · rw [ih, faulty_advance]

/-- An escape is bad exactly if something is told about it; at the end of the input it is not. -/
theorem faulty_escape (quote : Char) (s : CharStream ω) :
    (s.escape quote).2.Faulty ↔ s.Faulty ∨ (s.escape quote).1 = false := by
  cases hc : s.char? with
  | none =>
    rw [escape_of_end quote hc]
    simp
  | some c =>
    rcases escape_cases ω quote c with hplain | ⟨e, n, hdigits⟩ | ⟨e, n, hdigits⟩ | hunknown
    · rw [hplain s hc]
      simp
    · rw [hdigits s hc]
      exact faulty_escapeDigits e n 0 s
    · rw [hdigits s hc, faulty_escapeDigits, faulty_advance]
    · rw [hunknown s hc]
      exact iff_of_true (faulty_complainAt _ _ rfl) (.inr rfl)

/-- Behind an escape in a literal that was fine up to there or not. -/
theorem faulty_after_escape {quote : Char} {fine : Bool} (hfine : s.Faulty ↔ fine = false) :
    (s.advance.escape quote).2.Faulty ↔ (fine && (s.advance.escape quote).1) = false := by
  rw [faulty_escape, faulty_advance, hfine, Bool.and_eq_false_iff]

/-- In a literal that has not been fine exactly if the stream has an error of a literal to tell. -/
theorem faulty_stringRest (start : Place) (fine : Bool) (s : CharStream ω)
    (hfine : s.Faulty ↔ fine = false) :
    (s.stringRest start fine).2.Faulty ↔ (s.stringRest start fine).1 = false := by
  fun_induction stringRest start fine s with
  | case1 | case4 => exact iff_of_true (faulty_complainAt _ _ rfl) rfl
  | case2 => exact (faulty_advance _).trans hfine
  | case3 _ _ _ _ _ ih => exact ih (faulty_after_escape hfine)
  | case5 _ _ _ _ _ _ _ ih => exact ih ((faulty_advance _).trans hfine)

/-- A raw string is bad exactly if it is told that it does not end. -/
theorem faulty_rawStringRest (start : Place) (s : CharStream ω) :
    (s.rawStringRest start).2.Faulty ↔ s.Faulty ∨ (s.rawStringRest start).1 = false := by
  unfold rawStringRest
  dsimp only
  split
  · simp
  · exact iff_of_true (faulty_complainAt _ _ rfl) (.inr rfl)

omit [ByteWindow ω] in
/-- A rune of which something has been told stays one, and otherwise this is told. -/
theorem faulty_complainOnce {fine : Bool} (hfine : s.Faulty ↔ fine = false) (start : Place) {fault : LexFault}
    (h : fault.isOfLiteral = true) : (s.complainOnce start fine fault).Faulty := by
  cases fine with
  | true => exact faulty_complainAt _ _ h
  | false => exact hfine.mpr rfl

/-- A rune is bad exactly if something is told about it. -/
theorem faulty_runeRest (start : Place) (fine : Bool) (n : Nat) (s : CharStream ω)
    (hfine : s.Faulty ↔ fine = false) :
    (s.runeRest start fine n).2.Faulty ↔ (s.runeRest start fine n).1 = false := by
  fun_induction runeRest start fine n s with
  | case1 | case6 => exact iff_of_true (faulty_complainOnce hfine _ rfl) rfl
  | case2 => exact (faulty_advance _).trans hfine
  | case3 | case4 =>
    exact iff_of_true ((faulty_advance _).mpr (faulty_complainOnce hfine _ rfl)) rfl
  | case5 _ _ _ _ _ _ ih => exact ih (faulty_after_escape hfine)
  | case7 _ _ _ _ _ _ _ _ ih => exact ih ((faulty_advance _).trans hfine)

/-! ## Comments -/

/-- A directive is no error. -/
theorem faulty_reportDirective (start : Place) (s : CharStream ω) :
    (s.reportDirective start).Faulty ↔ s.Faulty := by
  refine (faulty_report s _).trans (or_iff_left ?_)
  rintro ⟨e, he, -⟩
  cases he

/-- Line comments are no literals. -/
theorem faulty_lineComment (start : Place) (s : CharStream ω) : (s.lineComment start).Faulty ↔ s.Faulty := by
  unfold lineComment
  dsimp only
  split
  · rw [faulty_reportDirective, faulty_skipWhile, faulty_accept]
  · rw [faulty_skipWhile, faulty_clearMark, faulty_accept]

/-- The rest of a block comment is no literal. -/
theorem faulty_blockCommentRest (s : CharStream ω) : s.blockCommentRest.2.Faulty ↔ s.Faulty := by
  -- Each case passes one or two characters, and none of them tells anything.
  fun_induction blockCommentRest s with
  | case1 => exact Iff.rfl
  | case2 s => rw [faulty_advance, faulty_advance]
  | case3 s _ _ _ ih => rw [ih, faulty_advance]
  | case4 s _ _ _ ih => rw [ih, faulty_advance, faulty_advance]
  | case5 s _ _ _ ih => rw [ih, faulty_advance]

/-- Block comments are no literals, nor is it an error of a literal that one does not end. -/
theorem faulty_blockComment (start : Place) (s : CharStream ω) :
    (s.blockComment start).Faulty ↔ s.Faulty := by
  have hopened : (if (s.accept directiveWord).1 then (s.accept directiveWord).2
      else (s.accept directiveWord).2.clearMark).Faulty ↔ s.Faulty := by
    split <;> simp
  unfold blockComment
  dsimp only
  generalize (if (s.accept directiveWord).1 then (s.accept directiveWord).2
    else (s.accept directiveWord).2.clearMark) = t at hopened
  split
  · rw [faulty_complainAt_iff _ _ rfl, faulty_blockCommentRest, hopened]
  · split
    · rw [faulty_reportDirective, faulty_blockCommentRest, hopened]
    · rw [faulty_blockCommentRest, hopened]

end CharStream

/-! ## Lexemes -/

namespace Scanner

open CharStream

/-- What has been found is no literal: it is as fine as the lexeme to complete, and no error of a literal has
been reported since `s`. -/
structure Spares (l : Lexeme) (s : CharStream ω) (x : Scanner ω) : Prop where
  faulty : x.stream.Faulty ↔ s.Faulty
  bad : x.lexeme.bad = l.bad

/-- The stream has an error of a literal to tell exactly if the lexeme found last is malformed. -/
def Honest (x : Scanner ω) : Prop := x.stream.Faulty ↔ x.lexeme.bad = true

variable {l : Lexeme} {s t : CharStream ω} {x y : Scanner ω}

/-- An attempt from `s` finds something that is honest, or passes over what is no literal. -/
def HonestFrom (s : CharStream ω) : Attempt ω → Prop
  | .found x => x.Honest
  | .passed t => t.Faulty ↔ s.Faulty

/-- An attempt is honest from where nothing about literals has been told in between. -/
theorem HonestFrom.of_iff {a : Attempt ω} (h : HonestFrom t a) (ht : t.Faulty ↔ s.Faulty) :
    HonestFrom s a := by
  cases a with
  | found x => exact h
  | passed u => exact Iff.trans h ht

/-- Both branches of a choice pass over what is no literal. -/
theorem Spares.ite {p : Prop} [Decidable p] (hx : Spares l s x) (hy : Spares l s y) :
    Spares l s (if p then x else y) := by
  split
  · exact hx
  · exact hy

/-- What is found is no literal from where nothing about literals has been told in between. -/
theorem Spares.of_iff (h : Spares l t x) (ht : t.Faulty ↔ s.Faulty) : Spares l s x :=
  ⟨h.faulty.trans ht, h.bad⟩

/-- What is no literal is not malformed, and nothing has been told about one. -/
theorem Spares.honest (h : Spares l s x) (hl : l.bad = false) (hs : ¬s.Faulty) : x.Honest := by
  unfold Honest
  rw [h.faulty, h.bad, hl]
  exact iff_of_false hs Bool.false_ne_true

variable [ByteWindow ω]

/-- A string or a rune is honest if it is fine exactly where nothing has been told. -/
theorem honest_quoted {kind : LitKind} {found : Bool × CharStream ω}
    (h : found.2.Faulty ↔ found.1 = false) : (quoted l kind found).Honest := by
  unfold Honest quoted literal Lexeme.withLiteral
  rw [Bool.not_eq_true']
  exact h

/-- A number is honest if it is bad exactly where something has been told. -/
theorem honest_number {found : LiteralShape × CharStream ω} (hs : ¬s.Faulty)
    (h : found.2.Faulty ↔ s.Faulty ∨ found.1.bad = true) : (number l found).Honest :=
  h.trans (or_iff_right hs)

/-- An operator that may be joined with `=` is no literal. -/
theorem spares_assignable (op : Operator) (s : CharStream ω) : Spares l s (assignable l op s) :=
  .ite ⟨faulty_advance s, rfl⟩ ⟨Iff.rfl, rfl⟩

/-- What starts with a colon is no literal. -/
theorem spares_colon : Spares l s (colon l s) := .ite ⟨by simp, rfl⟩ ⟨by simp, rfl⟩

/-- What starts with a sign is no literal. -/
theorem spares_sign (c : Char) (op : Operator) : Spares l s (sign l c op s) :=
  .ite ⟨by simp, rfl⟩ ((spares_assignable op _).of_iff (by simp))

/-- What starts with a star is no literal. -/
theorem spares_star : Spares l s (star l s) := .ite ⟨by simp, rfl⟩ ⟨by simp, rfl⟩

/-- What starts with an ampersand is no literal. -/
theorem spares_ampersand : Spares l s (ampersand l s) :=
  .ite ⟨by simp, rfl⟩ (.ite ((spares_assignable .andNot _).of_iff (by simp))
    ((spares_assignable .and _).of_iff (by simp)))

/-- What starts with a bar is no literal. -/
theorem spares_bar : Spares l s (bar l s) :=
  .ite ⟨by simp, rfl⟩ ((spares_assignable .or _).of_iff (by simp))

/-- What starts with an angle bracket is no literal. -/
theorem spares_angle (c : Char) (strict loose shift : Operator) :
    Spares l s (angle l c strict loose shift s) :=
  .ite ⟨by simp, rfl⟩ (.ite ((spares_assignable shift _).of_iff (by simp)) ⟨by simp, rfl⟩)

/-- What starts with an equals sign is no literal. -/
theorem spares_equals : Spares l s (equals l s) := .ite ⟨by simp, rfl⟩ ⟨by simp, rfl⟩

/-- What starts with an exclamation mark is no literal. -/
theorem spares_exclamation : Spares l s (exclamation l s) := .ite ⟨by simp, rfl⟩ ⟨by simp, rfl⟩

/-- A dot is no literal, but may start one. -/
theorem honest_dot (hl : l.bad = false) (hs : ¬s.Faulty) : (dot l s).Honest := by
  unfold dot
  dsimp only
  split
  · exact honest_number hs ((faulty_fraction l.place _).trans (or_congr_left (faulty_advance s)))
  · have hdots : Spares l s (if s.advance.char? = some '.' then
        if s.advance.advance.char? = some '.' then ⟨s.advance.advance.advance, l.withToken .dotDotDot⟩
        else ⟨s.advance.advance.rewind.advance, l.withToken .dot⟩
        else ⟨s.advance, l.withToken .dot⟩) :=
      .ite (.ite ⟨by simp, rfl⟩ ⟨by simp, rfl⟩) ⟨by simp, rfl⟩
    exact hdots.honest hl hs

/-- A slash starts a comment, which is passed over, or an operator. Neither is a literal. -/
theorem honestFrom_slash (separable : Bool) (hl : l.bad = false) (hs : ¬s.Faulty) :
    HonestFrom s (slash separable l s) := by
  unfold slash
  dsimp only
  have hline : (s.advance.advance.lineComment l.place).Faulty ↔ s.Faulty := by
    rw [faulty_lineComment, faulty_advance, faulty_advance]
  have hblock : (s.advance.advance.blockComment l.place).Faulty ↔ s.Faulty := by
    rw [faulty_blockComment, faulty_advance, faulty_advance]
  split
  · exact hline
  · split
    · split
      · exact Spares.honest (l := l) ⟨hblock, rfl⟩ hl hs
      · exact hblock
    · exact ((spares_assignable .div s.advance).of_iff (faulty_advance s)).honest hl hs

/-- What is found at a character is honest: the first character tells which function looks at it. -/
theorem honestFrom_attemptAt (separable : Bool) (c : Char) (hl : l.bad = false) (hs : ¬s.Faulty) :
    HonestFrom s (attemptAt separable l c s) := by
  -- Going over the first character reports no fault, so a literal starts out as fine as the stream was.
  have ha : s.advance.Faulty ↔ true = false :=
    (faulty_advance s).trans (iff_of_false hs Bool.true_eq_false.mp)
  unfold attemptAt
  -- The remaining forms, in the order of `attemptAt`: literals are honest, the others spare both the stream and
  -- the lexeme.
  split
  · have hword : Spares l s (word l s) := ⟨by simp [word], rfl⟩
    exact hword.honest hl hs
  · split
    · exact honest_number hs (faulty_number l.place s)
    · split
      case h_1 | h_2 => exact Spares.honest (l := l) (s := s) ⟨by simp, rfl⟩ hl hs
      case h_3 => exact honest_quoted (faulty_stringRest l.place true _ ha)
      case h_4 =>
        have hnone : ¬s.advance.Faulty := fun h => hs ((faulty_advance s).mp h)
        exact honest_quoted ((faulty_rawStringRest l.place _).trans (or_iff_right hnone))
      case h_5 => exact honest_quoted (faulty_runeRest l.place true 0 _ ha)
      case h_6 => exact spares_colon.honest hl hs
      case h_7 => exact honest_dot hl hs
      case h_8 | h_9 => exact (spares_sign _ _).honest hl hs
      case h_10 => exact spares_star.honest hl hs
      case h_11 => exact honestFrom_slash separable hl hs
      case h_12 | h_15 => exact ((spares_assignable _ s.advance).of_iff (faulty_advance s)).honest hl hs
      case h_13 => exact spares_ampersand.honest hl hs
      case h_14 => exact spares_bar.honest hl hs
      case h_16 | h_17 => exact (spares_angle _ _ _ _).honest hl hs
      case h_18 => exact spares_equals.honest hl hs
      case h_19 => exact spares_exclamation.honest hl hs
      case h_20 =>
        split
        · exact Spares.honest (l := l) (s := s) ⟨by simp [single], rfl⟩ hl hs
        · exact (faulty_advance _).trans (faulty_complainAt_iff _ _ rfl)

/-- What is found behind a gap is honest. -/
theorem honestFrom_attempt (separable : Bool) (hl : l.bad = false) (hs : ¬s.Faulty) :
    HonestFrom s (attempt separable l s) := by
  have htoken : (toToken separable s).Faulty ↔ s.Faulty := by simp [toToken]
  have hs' : ¬(toToken separable s).Faulty := fun h => hs (htoken.mp h)
  unfold attempt
  dsimp only
  split
  · next c _ =>
    have hat := honestFrom_attemptAt separable c (l := { l with place := (toToken separable s).place }) hl hs'
    exact hat.of_iff htoken
  · refine Spares.honest (l := l) ⟨Iff.rfl, ?_⟩ hl hs'
    dsimp only
    split <;> rfl

/-- What is found behind any number of comments is honest. -/
theorem honest_find (separable : Bool) (hl : l.bad = false) (hs : ¬s.Faulty) :
    (find separable l s).Honest := by
  have hattempt := honestFrom_attempt separable hl hs
  fun_induction find separable l s with
  | case1 s x h => rwa [h] at hattempt
  | case2 s t h ih =>
    rw [h] at hattempt
    have ht : ¬t.Faulty := fun ht => hs (hattempt.mp ht)
    exact ih ht (honestFrom_attempt separable hl ht)

/-- A lexeme is malformed exactly if an error of a literal has been reported since the one before it. -/
theorem bad_iff_of_mem_scanUpTo {x : Scanner ω} {n : Nat} {scan : Scan} (h : scan ∈ x.scanUpTo n)
    (hx : ¬x.stream.Faulty) :
    scan.lexeme.bad = true ↔ ∃ e, Report.error e ∈ scan.reports ∧ e.fault.isOfLiteral = true := by
  -- The reports of each scan are its own: none are left when the next lexeme is looked for.
  have hdrop (x : Scanner ω) : ¬x.dropReports.stream.Faulty := by
    rintro ⟨e, he, -⟩
    cases he
  induction n generalizing x with
  | zero => cases h
  | succ n ih =>
    have hnext : x.next.Honest := honest_find _ rfl hx
    by_cases heof : x.next.lexeme.token = .eof
    · rw [scanUpTo_of_eof n heof] at h
      obtain rfl := List.mem_singleton.mp h
      exact hnext.symm
    · rw [scanUpTo_of_ne n heof] at h
      rcases List.mem_cons.mp h with rfl | h
      · exact hnext.symm
      · exact ih h (hdrop _)

end Scanner

/-- A lexeme is malformed exactly if an error of a literal has been reported since the one before it. -/
theorem Reader.bad_iff (r : Reader) {scan : Scan} (h : scan ∈ r.scans) :
    scan.lexeme.bad = true ↔ ∃ e, Report.error e ∈ scan.reports ∧ e.fault.isOfLiteral = true := by
  refine Scanner.bad_iff_of_mem_scanUpTo h fun hfaulty => ?_
  obtain ⟨e, he, -⟩ := (CharStream.faulty_seek _).mp hfaulty
  cases he

/-- Where the scans of a reader report no error, no literal is malformed. -/
theorem Reader.bad_eq_false (r : Reader) {scan : Scan} (h : scan ∈ r.scans)
    (herror : ∀ e, Report.error e ∉ scan.reports) : scan.lexeme.bad = false := by
  rw [← Bool.not_eq_true, r.bad_iff h]
  rintro ⟨e, he, -⟩
  exact herror e he

end FrontEnd
