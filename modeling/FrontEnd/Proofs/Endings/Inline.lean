import FrontEnd.Proofs.Endings.Level

/-!
# Tokens on a line

A token does not go over the end of a line, unless it is a raw string or something is wrong with it. So
from streams that are level (`CharStream.Inline`), every token is found alike with newlines and with
carriage returns before them: the same kind, the same text, and level streams behind it. There is one
lemma for each function that passes over a token, in the order of the definitions; where something may be
wrong, it asks for a stream without a fault behind the token.
-/

namespace FrontEnd

namespace Radix

/-- A newline is no digit. -/
theorem digit?_newline (radix : Radix) : radix.digit? '\n' = none := by cases radix <;> decide

/-- A carriage return is no digit. -/
theorem digit?_return (radix : Radix) : radix.digit? '\r' = none := by cases radix <;> decide

/-- A digit is no newline. -/
theorem ne_newline_of_digit? (radix : Radix) {c : Char} {value : Nat} (h : radix.digit? c = some value) :
    c ≠ '\n' := by
  rintro rfl
  rw [radix.digit?_newline] at h
  cases h

end Radix

namespace CharStream

/-- The streams are level, and there is no newline since the mark. -/
def Inline (s t : CharStream Cursor) : Prop :=
  ∃ front cs rest, '\n' ∉ cs ∧ Level front cs rest s t

/-- A stream that complains has a fault. -/
theorem not_noFault_complainAt {ω : Type} (s : CharStream ω) (place : Place) (fault : LexFault) :
    ¬(s.complainAt place fault).NoFault := fun h => h _ Array.mem_push_self

/-- A fault is never taken back. -/
theorem finding_faulty {ω : Type} [ByteWindow ω] :
    Finding fun s t : CharStream ω => s = t ∧ ¬s.NoFault where
  toForward start := .of_invariant start (fun h hn => h hn.of_advance) (fun _ h hn => h hn.of_report)
    fun h hn => h hn
  setMark := by
    rintro s _ ⟨rfl, h⟩
    exact ⟨rfl, h⟩
  rewind := by
    rintro s _ ⟨rfl, h⟩
    exact ⟨rfl, fun hn => h hn.of_advance⟩

/-- A string without a fault has had none so far. -/
theorem NoFault.of_stringRest {ω : Type} [ByteWindow ω] {s : CharStream ω} {start : Place} {fine : Bool}
    (hn : (s.stringRest start fine).2.NoFault) : s.NoFault :=
  Classical.byContradiction fun hfault => ((finding_faulty.toForward start).stringRest fine ⟨rfl, hfault⟩).2.2 hn

/-- A rune without a fault has had none so far. -/
theorem NoFault.of_runeRest {ω : Type} [ByteWindow ω] {s : CharStream ω} {start : Place} {fine : Bool}
    {n : Nat} (hn : (s.runeRest start fine n).2.NoFault) : s.NoFault :=
  Classical.byContradiction fun hfault => ((finding_faulty.toForward start).runeRest fine n ⟨rfl, hfault⟩).2.2 hn

namespace Inline

variable {s t : CharStream Cursor} {c : Char}

/-- At a newline, the other stream is at the carriage return before it. -/
theorem char?_cases (h : s.Inline t) :
    t.char? = s.char? ∨ s.char? = some '\n' ∧ t.char? = some '\r' := by
  obtain ⟨front, cs, rest, -, hlevel⟩ := h
  by_cases hn : s.char? = some '\n'
  · rw [hlevel.before.char?_eq] at hn
    obtain ⟨rest, rfl⟩ := List.head?_eq_some_iff.mp hn
    exact .inr ⟨hlevel.before.char?_eq.trans hn, hlevel.advance_newline.1⟩
  · exact .inl (hlevel.char?_eq hn)

/-- Where no line ends, the other stream is at the same character. -/
theorem char?_eq_some (h : s.Inline t) (hc : s.char? = some c) (hn : c ≠ '\n') : t.char? = some c := by
  rcases h.char?_cases with he | ⟨hs, -⟩
  · rw [he, hc]
  · rw [hs] at hc
    exact absurd (Option.some.inj hc).symm hn

/-- Level streams end together. -/
theorem char?_eq_none (h : s.Inline t) (hc : s.char? = none) : t.char? = none := by
  rcases h.char?_cases with he | ⟨hs, -⟩
  · rw [he, hc]
  · rw [hs] at hc
    cases hc

/-- Both are at the same character that ends no line, or neither is. -/
theorem char?_iff (h : s.Inline t) (hn : c ≠ '\n') (hr : c ≠ '\r') :
    t.char? = some c ↔ s.char? = some c := by
  rcases h.char?_cases with he | ⟨hs, ht⟩
  · rw [he]
  · rw [hs, ht]
    exact ⟨fun he => absurd (Option.some.inj he).symm hr, fun he => absurd (Option.some.inj he).symm hn⟩

/-- What does not hold of the ends of a line holds of both or of neither. -/
theorem any_eq (h : s.Inline t) {p : Char → Bool} (hn : p '\n' = false) (hr : p '\r' = false) :
    t.char?.any p = s.char?.any p := by
  rcases h.char?_cases with he | ⟨hs, ht⟩
  · rw [he]
  · rw [hs, ht, Option.any_some, Option.any_some, hn, hr]

/-- Behind a character that is no newline, streams are level on their line. -/
theorem advance (h : s.Inline t) (hc : s.char? = some c) (hn : c ≠ '\n') : s.advance.Inline t.advance := by
  obtain ⟨front, cs, rest, hcs, hlevel⟩ := h
  rw [hlevel.before.char?_eq] at hc
  obtain ⟨rest, rfl⟩ := List.head?_eq_some_iff.mp hc
  refine ⟨front, cs ++ [c], rest, ?_, hlevel.advance hn⟩
  rw [List.mem_append, List.mem_singleton, not_or]
  exact ⟨hcs, Ne.symm hn⟩

/-- What is marked is the same. -/
theorem marked_eq (h : s.Inline t) : t.marked = s.marked := by
  obtain ⟨front, cs, rest, hcs, hlevel⟩ := h
  rcases hlevel.marked_cases with ⟨hs, ht⟩ | ⟨hs, ht⟩
  · rw [hs, ht]
  · rw [hs, ht, withReturns_eq_self hcs]

/-- What is marked is the same text. -/
theorem markedText_eq (h : s.Inline t) : t.markedText = s.markedText := by
  unfold markedText
  rw [h.marked_eq]

/-! ## Characters -/

/-- Characters that are skipped on a line are the same in both. -/
theorem skipWhile (h : s.Inline t) {p : Char → Bool} (hn : p '\n' = false) (hr : p '\r' = false) :
    (s.skipWhile p).Inline (t.skipWhile p) := by
  fun_induction CharStream.skipWhile p s generalizing t with
  | case1 s hp ih =>
    rw [CharStream.skipWhile.eq_def p t, if_pos (by rwa [h.any_eq hn hr])]
    cases hc : s.char? with
    | none =>
      rw [hc] at hp
      cases hp
    | some c =>
      rw [hc, Option.any_some] at hp
      exact ih (h.advance hc fun he => by rw [he, hn] at hp; cases hp)
  | case2 s hp =>
    rw [CharStream.skipWhile.eq_def p t, if_neg (by rwa [h.any_eq hn hr])]
    exact h

/-! ## Numbers -/

/-- The same digits are passed. -/
theorem digits (radix : Radix) (run : DigitRun) (h : s.Inline t) :
    InStep Inline (s.digits radix run) (t.digits radix run) := by
  -- By what is left; at an ending, which looks different in the two texts, the run is over in both.
  induction hn : s.remaining using Nat.strongRecOn generalizing s t run with
  | ind n ih =>
    subst hn
    rw [CharStream.digits_eq radix run s, CharStream.digits_eq radix run t]
    rcases h.char?_cases with he | ⟨hs, ht⟩
    · rw [he]
      cases hc : s.char? with
      | none => exact ⟨rfl, h⟩
      | some c =>
        have hlt := s.remaining_advance_lt (by rw [hc]; rfl)
        dsimp only
        refine Onward.ite (fun hline => ?_) fun _ => ?_
        · exact ih _ hlt run (h.advance hc (by rw [hline]; decide)) rfl
        · cases hd : radix.digit? c with
          | none => exact ⟨rfl, h⟩
          | some value => exact ih _ hlt _ (h.advance hc (radix.ne_newline_of_digit? hd)) rfl
    · rw [hs, ht]
      dsimp only
      rw [if_neg (by decide), if_neg (by decide), radix.digit?_newline, radix.digit?_return]
      exact ⟨rfl, h⟩

/-- The same exponent is passed, if nothing is wrong with it. -/
theorem exponent {start : Place} {kind : LitKind} (h : s.Inline t)
    (hn : (s.exponent start kind).2.NoFault) :
    InStep Inline (s.exponent start kind) (t.exponent start kind) := by
  unfold CharStream.exponent at hn ⊢
  dsimp only at hn ⊢
  simp only [h.char?_iff (c := 'e') (by decide) (by decide),
    h.char?_iff (c := 'E') (by decide) (by decide)]
  by_cases he : s.char? = some 'e' ∨ s.char? = some 'E'
  · rw [if_pos he] at hn ⊢
    rw [if_pos he]
    have ha : s.advance.Inline t.advance := by
      rcases he with he | he <;> exact h.advance he (by decide)
    -- The sign is optional, so the streams behind it are named before the digits are compared.
    have hsign : Inline
        (if s.advance.char? = some '+' ∨ s.advance.char? = some '-' then s.advance.advance else s.advance)
        (if t.advance.char? = some '+' ∨ t.advance.char? = some '-' then t.advance.advance
          else t.advance) := by
      simp only [ha.char?_iff (c := '+') (by decide) (by decide),
        ha.char?_iff (c := '-') (by decide) (by decide)]
      refine Onward.ite (fun hc => ?_) fun _ => ha
      rcases hc with hc | hc <;> exact ha.advance hc (by decide)
    generalize (if s.advance.char? = some '+' ∨ s.advance.char? = some '-' then s.advance.advance
      else s.advance) = s₂ at hsign hn ⊢
    generalize (if t.advance.char? = some '+' ∨ t.advance.char? = some '-' then t.advance.advance
      else t.advance) = t₂ at hsign ⊢
    obtain ⟨hrun, hrest⟩ := hsign.digits .decimal .none
    rw [← hrun]
    split at hn
    · exact absurd hn (not_noFault_complainAt _ _ _)
    · next hcount =>
      rw [if_neg hcount, if_neg hcount]
      exact ⟨rfl, hrest⟩
  · rw [if_neg he, if_neg he]
    exact ⟨rfl, h⟩

/-- The same fraction is passed, if nothing is wrong with it. -/
theorem fraction {start : Place} (h : s.Inline t) (hn : (s.fraction start).2.NoFault) :
    InStep Inline (s.fraction start) (t.fraction start) :=
  (h.digits .decimal .none).2.exponent hn

/-- The same decimal number is passed, if nothing is wrong with it. -/
theorem decimal {start : Place} (h : s.Inline t) (hn : (s.decimal start).2.NoFault) :
    InStep Inline (s.decimal start) (t.decimal start) := by
  have hd := (h.digits .decimal .none).2
  unfold CharStream.decimal at hn ⊢
  dsimp only at hn ⊢
  simp only [hd.char?_iff (c := '.') (by decide) (by decide)]
  split at hn
  · next hc =>
    rw [if_pos hc, if_pos hc]
    exact (hd.advance hc (by decide)).fraction hn
  · next hc =>
    rw [if_neg hc, if_neg hc]
    exact hd.exponent hn

/-- The same number with a prefix for its radix is passed, if nothing is wrong with it. -/
theorem markedInteger {start : Place} {radix : Radix} (h : s.Inline t)
    (hn : (s.markedInteger start radix).2.NoFault) :
    InStep Inline (s.markedInteger start radix) (t.markedInteger start radix) := by
  obtain ⟨hrun, hrest⟩ := h.digits radix .none
  unfold CharStream.markedInteger at hn ⊢
  dsimp only at hn ⊢
  rw [← hrun]
  split at hn
  · exact absurd hn (not_noFault_complainAt _ _ _)
  · next hcount =>
    rw [if_neg hcount, if_neg hcount]
    cases hstray : (s.digits radix .none).1.stray? with
    | none => exact ⟨rfl, hrest⟩
    | some c =>
      rw [hstray] at hn
      exact absurd hn (not_noFault_complainAt _ _ _)

/-- The same number is passed, if nothing is wrong with it. -/
theorem number {start : Place} (h : s.Inline t) (hn : (s.number start).2.NoFault) :
    InStep Inline (s.number start) (t.number start) := by
  unfold CharStream.number at hn ⊢
  simp only [h.char?_iff (c := '0') (by decide) (by decide)]
  by_cases hzero : s.char? = some '0'
  · rw [if_pos hzero] at hn ⊢
    rw [if_pos hzero]
    have ha := h.advance hzero (by decide)
    -- Where the texts differ at the second character it is an ending, which is no radix letter in either.
    have hletter : t.advance.char?.bind Radix.ofLetter? = s.advance.char?.bind Radix.ofLetter? := by
      rcases ha.char?_cases with he | ⟨hs, ht⟩
      · rw [he]
      · rw [hs, ht]
        rfl
    rw [hletter]
    cases hradix : s.advance.char?.bind Radix.ofLetter? with
    | none =>
      rw [hradix] at hn
      exact ha.decimal hn
    | some radix =>
      rw [hradix] at hn
      obtain ⟨c, hc, hof⟩ := Option.bind_eq_some_iff.mp hradix
      exact (ha.advance hc fun hline => by rw [hline] at hof; cases hof).markedInteger hn
  · rw [if_neg hzero] at hn ⊢
    rw [if_neg hzero]
    exact h.decimal hn

/-! ## Strings and runes -/

/-- An escape that nothing is wrong with counts as fine. -/
theorem escapeDigits {e : NumericEscape} {n value : Nat} (h : s.Inline t)
    (hn : (s.escapeDigits e n value).2.NoFault) :
    InStep Inline (s.escapeDigits e n value) (t.escapeDigits e n value) ∧
      (s.escapeDigits e n value).1 = true := by
  induction n generalizing value s t with
  | zero =>
    unfold CharStream.escapeDigits at hn ⊢
    split at hn
    · next hadmits =>
      rw [if_pos hadmits, if_pos hadmits]
      exact ⟨⟨rfl, h⟩, rfl⟩
    · exact absurd hn (not_noFault_complainAt _ _ _)
  | succ n ih =>
    unfold CharStream.escapeDigits at hn ⊢
    cases hc : s.char? with
    | none =>
      rw [h.char?_eq_none hc]
      exact ⟨⟨rfl, h⟩, rfl⟩
    | some c =>
      rw [hc] at hn
      dsimp only at hn
      cases hd : e.digit? c with
      | none =>
        rw [hd] at hn
        exact absurd hn (not_noFault_complainAt _ _ _)
      | some d =>
        -- A digit is no newline, so both texts have the same character here.
        have hline : c ≠ '\n' := by
          rintro rfl
          cases hd
        rw [hd] at hn
        rw [h.char?_eq_some hc hline]
        dsimp only
        rw [hd]
        exact ih (h.advance hc hline) hn

/-- A backslash at the end of a line escapes nothing. -/
theorem ne_newline_of_escape {quote : Char} (hquote : quote ≠ '\n') (hc : s.char? = some c)
    (hn : (s.escape quote).2.NoFault) : c ≠ '\n' := by
  rintro rfl
  have hplain : isPlainEscape quote '\n' = false := by
    unfold isPlainEscape
    rw [decide_eq_false (Ne.symm hquote)]
    rfl
  unfold CharStream.escape at hn
  rw [hc] at hn
  dsimp only at hn
  rw [hplain] at hn
  exact absurd hn (not_noFault_complainAt _ _ _)

/-- The same escape is passed, if nothing is wrong with it. -/
theorem escape {quote : Char} (hquote : quote ≠ '\n') (h : s.Inline t)
    (hn : (s.escape quote).2.NoFault) :
    InStep Inline (s.escape quote) (t.escape quote) ∧ (s.escape quote).1 = true := by
  cases hc : s.char? with
  | none =>
    rw [escape_of_end quote hc, escape_of_end quote (h.char?_eq_none hc)]
    exact ⟨⟨rfl, h⟩, rfl⟩
  | some c =>
    -- A newline is no escape, so both texts have the same character here.
    have hline := ne_newline_of_escape hquote hc hn
    have ht := h.char?_eq_some hc hline
    have ha := h.advance hc hline
    rcases escape_cases Cursor quote c with hplain | ⟨e, n, hdigits⟩ | ⟨e, n, hdigits⟩ | hunknown
    · rw [hplain s hc, hplain t ht]
      exact ⟨⟨rfl, ha⟩, rfl⟩
    · rw [hdigits s hc] at hn ⊢
      rw [hdigits t ht]
      exact h.escapeDigits hn
    · rw [hdigits s hc] at hn ⊢
      rw [hdigits t ht]
      exact ha.escapeDigits hn
    · rw [hunknown s hc] at hn
      exact absurd hn (not_noFault_complainAt _ _ _)

/-- The rest of the same string is passed, if it ends on its line. -/
theorem stringRest {start : Place} {fine : Bool} (h : s.Inline t)
    (hn : (s.stringRest start fine).2.NoFault) :
    InStep Inline (s.stringRest start fine) (t.stringRest start fine) := by
  -- By what is left of the first text; a newline inside the literal is a fault, the only place where the texts
  -- could differ.
  induction hr : s.remaining using Nat.strongRecOn generalizing s t fine with
  | ind n ih =>
    subst hr
    rw [CharStream.stringRest_eq] at hn
    rw [CharStream.stringRest_eq start fine s, CharStream.stringRest_eq start fine t]
    cases hc : s.char? with
    | none =>
      rw [hc] at hn
      exact absurd hn (not_noFault_complainAt _ _ _)
    | some c =>
      have hs : s.char?.isSome := by rw [hc]; rfl
      rw [hc] at hn
      dsimp only at hn
      have hline : c ≠ '\n' := by
        rintro rfl
        exact absurd hn (not_noFault_complainAt _ _ _)
      have ha := h.advance hc hline
      rw [h.char?_eq_some hc hline]
      dsimp only
      by_cases hquote : c = '"'
      · rw [if_pos hquote, if_pos hquote]
        exact ⟨rfl, ha⟩
      · rw [if_neg hquote] at hn ⊢
        rw [if_neg hquote]
        by_cases hback : c = '\\'
        · rw [if_pos hback] at hn ⊢
          rw [if_pos hback]
          obtain ⟨⟨hsame, hrest⟩, -⟩ := ha.escape (by decide) hn.of_stringRest
          rw [← hsame]
          exact ih _ (s.remaining_escape_advance_lt _ hs) hrest hn rfl
        · rw [if_neg hback, if_neg hline] at hn ⊢
          rw [if_neg hback, if_neg hline]
          exact ih _ (s.remaining_advance_lt hs) ha hn rfl

/-- The rest of the same rune is passed, if it ends on its line. -/
theorem runeRest {start : Place} {n : Nat} (h : s.Inline t) (hn : (s.runeRest start true n).2.NoFault) :
    InStep Inline (s.runeRest start true n) (t.runeRest start true n) := by
  -- By what is left, as for strings; the count of characters matters only at the closing quote.
  induction hr : s.remaining using Nat.strongRecOn generalizing s t n with
  | ind m ih =>
    subst hr
    rw [CharStream.runeRest_eq] at hn
    rw [CharStream.runeRest_eq start true n s, CharStream.runeRest_eq start true n t]
    cases hc : s.char? with
    | none =>
      rw [hc] at hn
      exact absurd hn (not_noFault_complainAt _ _ _)
    | some c =>
      have hs : s.char?.isSome := by rw [hc]; rfl
      rw [hc] at hn
      dsimp only at hn
      have hline : c ≠ '\n' := by
        rintro rfl
        exact absurd hn (not_noFault_complainAt _ _ _)
      have ha := h.advance hc hline
      rw [h.char?_eq_some hc hline]
      dsimp only
      by_cases hquote : c = '\''
      · rw [if_pos hquote] at hn ⊢
        rw [if_pos hquote]
        by_cases hone : n = 1
        · rw [if_pos hone, if_pos hone]
          exact ⟨rfl, ha⟩
        · rw [if_neg hone] at hn
          split at hn <;> exact absurd hn.of_advance (not_noFault_complainAt _ _ _)
      · rw [if_neg hquote] at hn ⊢
        rw [if_neg hquote]
        by_cases hback : c = '\\'
        · rw [if_pos hback] at hn ⊢
          rw [if_pos hback]
          obtain ⟨⟨hsame, hrest⟩, hfine⟩ := ha.escape (by decide) hn.of_runeRest
          rw [← hsame, hfine]
          rw [hfine] at hn
          exact ih _ (s.remaining_escape_advance_lt _ hs) hrest hn rfl
        · rw [if_neg hback, if_neg hline] at hn ⊢
          rw [if_neg hback, if_neg hline]
          exact ih _ (s.remaining_advance_lt hs) ha hn rfl

end Inline

end CharStream

/-! ## Tokens -/

namespace Scanner

open CharStream (Inline not_noFault_complainAt)

variable {s t : CharStream Cursor} {l : Lexeme} {c : Char}

/-- The same word is found. -/
theorem inline_word (h : s.Inline t) (hc : s.char? = some c) (hn : c ≠ '\n') :
    (word l s).InStep Inline (word l t) := by
  have hw := (h.advance hc hn).skipWhile (p := isNamePart) (by decide) (by decide)
  refine ⟨?_, hw⟩
  unfold word
  dsimp only
  rw [hw.markedText_eq]

/-- The same literal is found, since its text is what is marked. -/
theorem inline_literal {kind : LitKind} {bad : Bool} (h : s.Inline t) :
    (literal l kind bad s).InStep Inline (literal l kind bad t) := by
  refine ⟨?_, h⟩
  unfold literal
  rw [h.markedText_eq]

/-- The same number is found once both have passed it. -/
theorem inline_number {x y : LiteralShape × CharStream Cursor} (h : FrontEnd.InStep Inline x y) :
    (number l x).InStep Inline (number l y) := by
  unfold number
  rw [h.1]
  exact inline_literal h.2

/-- The same string or rune is found once both have passed it. -/
theorem inline_quoted {kind : LitKind} {x y : Bool × CharStream Cursor} (h : FrontEnd.InStep Inline x y) :
    (quoted l kind x).InStep Inline (quoted l kind y) := by
  unfold quoted
  rw [h.1]
  exact inline_literal h.2

/-- What one more character makes of a token, if it comes next. -/
theorem inline_ite {x x' y y' : Scanner Cursor} (h : s.Inline t) (hn : c ≠ '\n') (hr : c ≠ '\r')
    (hthen : s.char? = some c → s.advance.Inline t.advance → x.InStep Inline y)
    (helse : x'.InStep Inline y') :
    (if s.char? = some c then x else x').InStep Inline (if t.char? = some c then y else y') := by
  simp only [h.char?_iff hn hr]
  exact Onward.ite (fun hc => hthen hc (h.advance hc hn)) fun _ => helse

/-- The same operator is found, joined with `=` or not. -/
theorem inline_assignable {op : Operator} (h : s.Inline t) :
    (assignable l op s).InStep Inline (assignable l op t) :=
  inline_ite h (by decide) (by decide) (fun _ ha => ⟨rfl, ha⟩) ⟨rfl, h⟩

/-- What starts with a colon is the same token. -/
theorem inline_colon (h : s.advance.Inline t.advance) : (colon l s).InStep Inline (colon l t) :=
  inline_ite h (by decide) (by decide) (fun _ ha => ⟨rfl, ha⟩) ⟨rfl, h⟩

/-- What starts with a sign is the same token. -/
theorem inline_sign {op : Operator} (h : s.advance.Inline t.advance) (hn : c ≠ '\n') (hr : c ≠ '\r') :
    (sign l c op s).InStep Inline (sign l c op t) :=
  inline_ite h hn hr (fun _ ha => ⟨rfl, ha⟩) (inline_assignable h)

/-- What starts with a star is the same token. -/
theorem inline_star (h : s.advance.Inline t.advance) : (star l s).InStep Inline (star l t) :=
  inline_ite h (by decide) (by decide) (fun _ ha => ⟨rfl, ha⟩) ⟨rfl, h⟩

/-- What starts with an ampersand is the same token. -/
theorem inline_ampersand (h : s.advance.Inline t.advance) :
    (ampersand l s).InStep Inline (ampersand l t) :=
  inline_ite h (by decide) (by decide) (fun _ ha => ⟨rfl, ha⟩) <|
    inline_ite h (by decide) (by decide) (fun _ ha => inline_assignable ha) (inline_assignable h)

/-- What starts with a bar is the same token. -/
theorem inline_bar (h : s.advance.Inline t.advance) : (bar l s).InStep Inline (bar l t) :=
  inline_ite h (by decide) (by decide) (fun _ ha => ⟨rfl, ha⟩) (inline_assignable h)

/-- What starts with an angle bracket is the same token. -/
theorem inline_angle {strict loose shift : Operator} (h : s.advance.Inline t.advance) (hn : c ≠ '\n')
    (hr : c ≠ '\r') :
    (angle l c strict loose shift s).InStep Inline (angle l c strict loose shift t) :=
  inline_ite h (by decide) (by decide) (fun _ ha => ⟨rfl, ha⟩) <|
    inline_ite h hn hr (fun _ ha => inline_assignable ha) ⟨rfl, h⟩

/-- What starts with an equals sign is the same token. -/
theorem inline_equals (h : s.advance.Inline t.advance) : (equals l s).InStep Inline (equals l t) :=
  inline_ite h (by decide) (by decide) (fun _ ha => ⟨rfl, ha⟩) ⟨rfl, h⟩

/-- What starts with an exclamation mark is the same token. -/
theorem inline_exclamation (h : s.advance.Inline t.advance) :
    (exclamation l s).InStep Inline (exclamation l t) :=
  inline_ite h (by decide) (by decide) (fun _ ha => ⟨rfl, ha⟩) ⟨rfl, h⟩

/-- The attempt finds something with a fault, or both find the same. -/
inductive FoundAlike : Attempt Cursor → Attempt Cursor → Prop
  | found {x y : Scanner Cursor} : (x.stream.NoFault → x.InStep Inline y) →
      FoundAlike (.found x) (.found y)
  | rejected {u : CharStream Cursor} {b : Attempt Cursor} : ¬u.NoFault → FoundAlike (.passed u) b

/-- Any token but a dot, a raw string or what starts with a slash is found alike. -/
theorem inline_attemptAt {separable : Bool} (h : s.Inline t) (hc : s.char? = some c) (hn : c ≠ '\n')
    (hdot : c ≠ '.') (hslash : c ≠ '/') (hraw : c ≠ '\x60') :
    FoundAlike (attemptAt separable l c s) (attemptAt separable l c t) := by
  have ha := h.advance hc hn
  -- One line a form of token, in the order of `attemptAt`; newlines, dots, slashes and raw strings are excluded
  -- by the premises.
  unfold attemptAt
  refine Onward.ite (fun _ => .found fun _ => inline_word h hc hn) fun _ =>
    Onward.ite (fun _ => .found fun hfine => inline_number (h.number hfine)) fun _ => ?_
  split
  · exact absurd rfl hn
  · exact .found fun _ => ⟨rfl, ha⟩
  · exact .found fun hfine => inline_quoted (ha.stringRest hfine)
  · exact absurd rfl hraw
  · exact .found fun hfine => inline_quoted (ha.runeRest hfine)
  · exact .found fun _ => inline_colon ha
  · exact absurd rfl hdot
  · exact .found fun _ => inline_sign ha (by decide) (by decide)
  · exact .found fun _ => inline_sign ha (by decide) (by decide)
  · exact .found fun _ => inline_star ha
  · exact absurd rfl hslash
  · exact .found fun _ => inline_assignable ha
  · exact .found fun _ => inline_ampersand ha
  · exact .found fun _ => inline_bar ha
  · exact .found fun _ => inline_assignable ha
  · exact .found fun _ => inline_angle ha (by decide) (by decide)
  · exact .found fun _ => inline_angle ha (by decide) (by decide)
  · exact .found fun _ => inline_equals ha
  · exact .found fun _ => inline_exclamation ha
  · split
    · exact .found fun _ => ⟨rfl, ha⟩
    · exact .rejected fun hfine => not_noFault_complainAt _ _ _ hfine.of_advance

end Scanner

end FrontEnd
