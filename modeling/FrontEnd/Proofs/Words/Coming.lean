import FrontEnd.Lexeme
import FrontEnd.Lexeme.Comment
import FrontEnd.Proofs.Words.Literal

/-!
# Passing over what comes next

`Comes` says which characters come next in a stream, and what the stream is behind them. When the characters
of a literal or of a comment come next, and then something that does not go on with it, the function that
passes over it stops exactly there and finds nothing wrong. This holds of any window.
-/

namespace FrontEnd

/-! ## Digits -/

/-- The value of a decimal digit. -/
theorem hexDigit?_of_isDigit {c : Char} (h : c.isDigit) : hexDigit? c = some (c.toNat - '0'.toNat) := if_pos h

/-- The decimal digits. -/
def decimalDigits : List Char := ['0', '1', '2', '3', '4', '5', '6', '7', '8', '9']

/-- There are ten of them, so what holds of a digit can be tried out. -/
theorem mem_decimalDigits {c : Char} (h : c.isDigit) : c ∈ decimalDigits := by
  simp only [Char.isDigit, Bool.and_eq_true, decide_eq_true_eq, ge_iff_le, UInt32.le_iff_toNat_le] at h
  have hle : 48 ≤ c.toNat ∧ c.toNat ≤ 57 := h
  have hall : ∀ k < 10, Char.ofNat (48 + k) ∈ decimalDigits := by decide
  have hmem := hall (c.toNat - 48) (by omega)
  rwa [Nat.add_sub_cancel' hle.1, Char.ofNat_toNat] at hmem

/-- A decimal digit has a value below ten. -/
theorem lt_ten_of_isDigit {c : Char} (h : c.isDigit) : c.toNat - '0'.toNat < 10 := by
  have hall : ∀ c ∈ decimalDigits, c.toNat - '0'.toNat < 10 := by decide
  exact hall c (mem_decimalDigits h)

/-- A digit with a value below ten is a decimal one. -/
theorem isDigit_of_hexDigit?_lt {c : Char} {value : Nat} (h : hexDigit? c = some value) (hlt : value < 10) :
    c.isDigit := by
  unfold hexDigit? at h
  split at h
  · assumption
  · split at h
    · cases h
      omega
    · split at h
      · cases h
        omega
      · cases h

/-- A digit of a radix has a value below its base. -/
theorem Radix.isDigit_iff {radix : Radix} {c : Char} :
    radix.isDigit c ↔ ∃ value, hexDigit? c = some value ∧ value < radix.base := by
  unfold isDigit
  cases hexDigit? c <;> simp

/-- The digits of decimal numbers. -/
theorem Radix.isDigit_decimal {c : Char} : Radix.decimal.isDigit c ↔ c.isDigit := by
  rw [isDigit_iff]
  constructor
  · rintro ⟨value, hvalue, hlt⟩
    exact isDigit_of_hexDigit?_lt hvalue hlt
  · exact fun h => ⟨_, hexDigit?_of_isDigit h, lt_ten_of_isDigit h⟩

/-- A digit of a notation is taken as one. -/
theorem Radix.exists_digit? {radix : Radix} {c : Char} (h : radix.isDigit c) :
    ∃ value, radix.digit? c = some value ∧ value < radix.base := by
  obtain ⟨value, hvalue, hlt⟩ := isDigit_iff.mp h
  refine ⟨value, ?_, hlt⟩
  unfold Radix.digit?
  split
  · next hbase =>
    have hdigit := isDigit_of_hexDigit?_lt hvalue (by omega)
    rw [hexDigit?_of_isDigit hdigit] at hvalue
    unfold decimalDigit?
    rw [if_pos hdigit, hvalue]
  · exact hvalue

namespace CharStream

section

variable {ω : Type} {s : CharStream ω} {p : Char → Bool} {c : Char}

/-- What comes next is not in `p`. -/
def Past (p : Char → Bool) (s : CharStream ω) : Prop := s.char?.any p = false

/-- What comes next is the current character. -/
theorem past_of_char? (hc : s.char? = some c) (h : p c = false) : s.Past p := by
  unfold Past
  rw [hc]
  exact h

/-- What is in fewer characters is in more. -/
theorem Past.mono {q : Char → Bool} (h : s.Past p) (hq : ∀ c, q c → p c) : s.Past q := by
  unfold Past at *
  cases hc : s.char? with
  | none => rfl
  | some c =>
    rw [hc] at h
    exact Bool.eq_false_iff.mpr fun hqc => Bool.eq_false_iff.mp h (hq c hqc)

/-- What comes next is none of the characters. -/
theorem Past.ne (h : s.Past p) (hc : p c = true) : s.char? ≠ some c := by
  intro he
  unfold Past at h
  rw [he, Option.any_some, hc] at h
  cases h

/-- Whether a run of digits in the notation takes the character. -/
def goesOn (radix : Radix) (c : Char) : Bool := c = '_' || (radix.digit? c).isSome

/-- What goes on with a number could stand in a name. -/
theorem isNamePart_of_goesOn {radix : Radix} (h : goesOn radix c) : isNamePart c := by
  have hdigit (hc : c.isDigit) : isNamePart c := by simp [isNamePart, hc]
  -- A hexadecimal digit is a decimal one or a letter, both of which a name may have.
  have hhex {v : Nat} (hv : hexDigit? c = some v) : isNamePart c := by
    unfold hexDigit? at hv
    split at hv
    · exact hdigit ‹_›
    · have halpha : c.isAlpha := by
        split at hv
        · next hc =>
          simp only [Bool.and_eq_true, decide_eq_true_eq] at hc
          have hle : c ≤ 'z' := Std.le_trans hc.2 (by decide)
          have hlower : c.isLower := Bool.and_eq_true_iff.mpr ⟨decide_eq_true hc.1, decide_eq_true hle⟩
          exact Bool.or_eq_true_iff.mpr (.inr hlower)
        · split at hv
          · next hc =>
            simp only [Bool.and_eq_true, decide_eq_true_eq] at hc
            have hle : c ≤ 'Z' := Std.le_trans hc.2 (by decide)
            have hupper : c.isUpper := decide_eq_true ⟨hc.1, hle⟩
            exact Bool.or_eq_true_iff.mpr (.inl hupper)
          · cases hv
      simp [isNamePart, halpha]
  unfold goesOn Radix.digit? at h
  simp only [Bool.or_eq_true, decide_eq_true_eq] at h
  rcases h with rfl | h
  · decide
  · obtain ⟨v, hv⟩ := Option.isSome_iff_exists.mp h
    split at hv
    · unfold decimalDigit? at hv
      split at hv
      · exact hdigit ‹_›
      · cases hv
    · exact hhex hv

/-- Behind a number there is no more of it unless there could be more of a name. -/
theorem Past.goesOn (h : s.Past isNamePart) (radix : Radix) : s.Past (goesOn radix) :=
  h.mono fun _ => isNamePart_of_goesOn

end

variable {ω : Type} [ByteWindow ω] {s s' t : CharStream ω} {cs ds : List Char}

/-- The characters come next in the stream, and behind them it is the other one. -/
def Comes : CharStream ω → List Char → CharStream ω → Prop
  | s, [], s' => s' = s
  | s, c :: cs, s' => s.char? = some c ∧ Comes s.advance cs s'

/-- Some characters come next, and then others. -/
theorem comes_append : s.Comes (cs ++ ds) s' ↔ ∃ t, s.Comes cs t ∧ t.Comes ds s' := by
  induction cs generalizing s with
  | nil =>
    constructor
    · exact fun h => ⟨s, rfl, h⟩
    · rintro ⟨t, rfl, h⟩
      exact h
  | cons c cs ih =>
    constructor
    · rintro ⟨hc, h⟩
      obtain ⟨t, ht, h⟩ := ih.mp h
      exact ⟨t, ⟨hc, ht⟩, h⟩
    · rintro ⟨t, ⟨hc, ht⟩, h⟩
      exact ⟨hc, ih.mpr ⟨t, ht, h⟩⟩

/-- The last character comes after the others. -/
theorem comes_concat {c : Char} : s.Comes (cs ++ [c]) s' ↔
    ∃ t, s.Comes cs t ∧ t.char? = some c ∧ s' = t.advance := comes_append

/-- Skipping stops where a character comes that is not skipped. -/
theorem skipWhile_of_comes {p : Char → Bool} (h : s.Comes cs s') (hall : ∀ c ∈ cs, p c) (hpast : s'.Past p) :
    s.skipWhile p = s' := by
  induction cs generalizing s with
  | nil =>
    cases h
    rw [skipWhile, if_neg (by rw [hpast]; exact Bool.noConfusion)]
  | cons c cs ih =>
    have hc : p c = true := hall c List.mem_cons_self
    rw [skipWhile, if_pos (by rw [h.1]; exact hc)]
    exact ih h.2 fun d hd => hall d (List.mem_cons_of_mem _ hd)

/-! ## Numbers -/

/-- Where no digit comes next, none is taken. -/
theorem digits_of_past {radix : Radix} (run : DigitRun) (h : s.Past (goesOn radix)) :
    s.digits radix run = (run, s) := by
  rw [digits_eq]
  split
  · rfl
  · next c hc =>
    unfold Past goesOn at h
    rw [hc, Option.any_some, Bool.or_eq_false_iff, decide_eq_false_iff_not, Option.isSome_eq_false_iff,
      Option.isNone_iff_eq_none] at h
    rw [if_neg h.1, h.2]

/-- Digits are counted, and none of them is a stray one. -/
theorem digits_of_comes {radix : Radix} (run : DigitRun) (h : s.Comes cs s') (hcs : IsDigits radix cs)
    (hpast : s'.Past (goesOn radix)) :
    s.digits radix run = (⟨run.count + cs.countP radix.isDigit, run.stray?⟩, s') := by
  -- Digit by digit, underscores counting for nothing; no digit is stray, so `stray?` stays as it was.
  induction cs generalizing s run with
  | nil =>
    cases h
    exact digits_of_past run hpast
  | cons c cs ih =>
    obtain ⟨hc, h⟩ := h
    have hrest : IsDigits radix cs := fun d hd => hcs d (List.mem_cons_of_mem _ hd)
    rw [digits_eq, hc]
    dsimp only
    by_cases hmark : c = '_'
    · have hno : radix.isDigit c = false := by
        rw [hmark]
        cases radix <;> decide
      rw [if_pos hmark, ih run h hrest, List.countP_cons_of_neg (by simp [hno])]
    · have hdigit := (hcs c List.mem_cons_self).resolve_left hmark
      obtain ⟨value, hvalue, hlt⟩ := Radix.exists_digit? hdigit
      rw [if_neg hmark, hvalue, List.countP_cons_of_pos hdigit]
      dsimp only
      rw [ih _ h hrest]
      unfold DigitRun.push
      rw [if_neg (by omega), Option.or_none, Nat.add_assoc, Nat.add_comm 1]

/-- What may come behind the first digits of a number in plain notation. -/
inductive DecimalTail : LitKind → List Char → Prop
  | none : DecimalTail .int []
  | point {fraction exponent : List Char} : IsDigits .decimal fraction →
      exponent = [] ∨ IsExponent exponent → DecimalTail .float ('.' :: (fraction ++ exponent))
  | exponent {exponent : List Char} : IsExponent exponent → DecimalTail .float exponent

/-- Where an exponent comes next, nothing else does. -/
theorem past_of_exponent {p : Char → Bool} (h : s.Comes cs s') (hcs : IsExponent cs)
    (hp : ∀ c ∈ ['e', 'E'], p c = false) : s.Past p := by
  obtain ⟨hletter, -, -⟩ := hcs
  refine past_of_char? h.1 (hp _ ?_)
  rcases hletter with rfl | rfl
  · exact List.mem_cons_self
  · exact List.mem_cons_of_mem _ List.mem_cons_self

/-- Where digits come next, nothing else does. -/
theorem past_of_digits {radix : Radix} {p : Char → Bool} (h : s.Comes (cs ++ ds) s')
    (hcs : IsDigits radix cs) (hne : cs ≠ []) (hp : ∀ c, p c → c ≠ '_' ∧ radix.isDigit c = false) :
    s.Past p := by
  cases cs with
  | nil => exact absurd rfl hne
  | cons c cs =>
    refine past_of_char? h.1 (Bool.eq_false_iff.mpr fun hc => ?_)
    obtain ⟨hmark, hdigit⟩ := hp c hc
    rcases hcs c List.mem_cons_self with he | he
    · exact hmark he
    · rw [hdigit] at he
      cases he

/-- Where no letter comes next, there is no exponent. -/
theorem exponent_of_past (start : Place) (kind : LitKind) (h : s.Past isNamePart) :
    s.exponent start kind = (⟨kind, false⟩, s) := by
  have hpast : s.Past (fun c => c = 'e' || c = 'E') := h.mono fun c hc => by
    simp only [Bool.or_eq_true, decide_eq_true_eq] at hc
    rcases hc with rfl | rfl <;> decide
  unfold exponent
  rw [if_neg]
  rintro (he | he)
  · exact hpast.ne (by decide) he
  · exact hpast.ne (by decide) he

/-- An exponent that comes next is taken, and nothing is wrong with it. -/
theorem exponent_of_comes (start : Place) (kind : LitKind) (h : s.Comes cs s') (hcs : IsExponent cs)
    (hnext : s'.Past isNamePart) : s.exponent start kind = (⟨.float, false⟩, s') := by
  obtain @⟨letter, sign, digits, hletter, hsign, hdigits⟩ := hcs
  obtain ⟨hc, h⟩ := h
  obtain ⟨t, hsigned, h⟩ := comes_append.mp h
  have hrun := digits_of_comes .none h hdigits.1 (hnext.goesOn _)
  have hcount := List.countP_pos_iff.mpr hdigits.2
  -- Behind the sign, if there is one, come the digits.
  have hskip : (if s.advance.char? = some '+' ∨ s.advance.char? = some '-' then s.advance.advance
      else s.advance) = t := by
    simp only [exponentSigns, List.mem_cons, List.not_mem_nil, or_false] at hsign
    rcases hsign with rfl | rfl | rfl
    · cases hsigned
      have hpast : s.advance.Past (fun c => c = '+' || c = '-') := by
        obtain ⟨d, hd, -⟩ := hdigits.2
        rw [← List.append_nil digits] at h
        refine past_of_digits h hdigits.1 (List.ne_nil_of_mem hd) ?_
        simp only [Bool.or_eq_true, decide_eq_true_eq]
        rintro c (rfl | rfl) <;> decide
      rw [if_neg]
      rintro (he | he)
      · exact hpast.ne (by decide) he
      · exact hpast.ne (by decide) he
    · rw [if_pos (.inl hsigned.1), hsigned.2]
    · rw [if_pos (.inr hsigned.1), hsigned.2]
  unfold exponent
  rw [if_pos (by rw [hc]; exact hletter.imp (congrArg some) (congrArg some))]
  dsimp only
  rw [hskip, hrun]
  dsimp only
  rw [if_neg (by unfold DigitRun.none; omega)]

/-- Behind a point a number is floating-point, with an exponent or without. -/
theorem fraction_of_comes (start : Place) (h : s.Comes (cs ++ ds) s') (hcs : IsDigits .decimal cs)
    (hds : ds = [] ∨ IsExponent ds) (hnext : s'.Past isNamePart) :
    s.fraction start = (⟨.float, false⟩, s') := by
  obtain ⟨t, hdigits, h⟩ := comes_append.mp h
  unfold fraction
  rcases hds with rfl | hds
  · cases h
    rw [digits_of_comes .none hdigits hcs (hnext.goesOn _)]
    exact exponent_of_past start .float hnext
  · rw [digits_of_comes .none hdigits hcs (past_of_exponent h hds (by decide))]
    exact exponent_of_comes start .float h hds hnext

/-- A decimal number that comes next is taken, and nothing is wrong with it. -/
theorem decimal_of_comes (start : Place) {kind : LitKind} (h : s.Comes (cs ++ ds) s')
    (hcs : IsDigits .decimal cs) (hds : DecimalTail kind ds) (hnext : s'.Past isNamePart)
    (hpoint : kind = .int → s'.char? ≠ some '.') : s.decimal start = (⟨kind, false⟩, s') := by
  obtain ⟨t, hdigits, h⟩ := comes_append.mp h
  unfold decimal
  -- By what stands behind the digits: nothing, a point, or an exponent.
  cases hds with
  | none =>
    cases h
    rw [digits_of_comes .none hdigits hcs (hnext.goesOn _)]
    dsimp only
    rw [if_neg (hpoint rfl)]
    exact exponent_of_past start .int hnext
  | point hfraction hexponent =>
    obtain ⟨hc, h⟩ := h
    rw [digits_of_comes .none hdigits hcs (past_of_char? hc (by decide))]
    dsimp only
    rw [if_pos hc]
    exact fraction_of_comes start h hfraction hexponent hnext
  | exponent hexponent =>
    have hnone : t.Past (· = '.') := past_of_exponent h hexponent (by decide)
    rw [digits_of_comes .none hdigits hcs (past_of_exponent h hexponent (by decide))]
    dsimp only
    rw [if_neg (hnone.ne (by decide))]
    exact exponent_of_comes start .int h hexponent hnext

/-- The letters that ask for a notation are no digits. -/
theorem not_isDigit_of_ofLetter? {c : Char} (h : (Radix.ofLetter? c).isSome) :
    c ≠ '_' ∧ Radix.decimal.isDigit c = false ∧ isNamePart c := by
  unfold Radix.ofLetter? at h
  simp only [Bool.or_eq_true, decide_eq_true_eq] at h
  split at h
  · next he => rcases he with rfl | rfl <;> decide
  · split at h
    · next he => rcases he with rfl | rfl <;> decide
    · split at h
      · next he => rcases he with rfl | rfl <;> decide
      · cases h

/-- A number in plain notation. -/
theorem number_of_comes (start : Place) {c : Char} {kind : LitKind} (h : s.Comes (c :: (cs ++ ds)) s')
    (hc : c.isDigit) (hcs : IsDigits .decimal cs) (hds : DecimalTail kind ds) (hnext : s'.Past isNamePart)
    (hpoint : kind = .int → s'.char? ≠ some '.') : s.number start = (⟨kind, false⟩, s') := by
  unfold number
  split
  · -- A zero is followed by no letter that asks for a notation, and the rest is read as without it.
    have hpast : s.advance.Past (fun c => (Radix.ofLetter? c).isSome) := by
      by_cases hne : cs = []
      · rw [hne] at h
        cases hds with
        | none => exact Past.mono (h.2 ▸ hnext) fun _ hletter => (not_isDigit_of_ofLetter? hletter).2.2
        | point => exact past_of_char? h.2.1 (by decide)
        | exponent hexponent => exact past_of_exponent h.2 hexponent (by decide)
      · refine past_of_digits h.2 hcs hne fun _ hletter => ?_
        exact ⟨(not_isDigit_of_ofLetter? hletter).1, (not_isDigit_of_ofLetter? hletter).2.1⟩
    have hnone : s.advance.char?.bind Radix.ofLetter? = none := by
      unfold Past at hpast
      cases hchar : s.advance.char? with
      | none => rfl
      | some c =>
        rw [hchar, Option.any_some, Option.isSome_eq_false_iff, Option.isNone_iff_eq_none] at hpast
        exact hpast
    rw [hnone]
    exact decimal_of_comes start h.2 hcs hds hnext hpoint
  · have hall : IsDigits .decimal (c :: cs) := fun d hd => by
      rcases List.mem_cons.mp hd with rfl | hd
      · exact .inr (Radix.isDigit_decimal.mpr hc)
      · exact hcs d hd
    exact decimal_of_comes start h hall hds hnext hpoint

/-- An integer in a marked notation. -/
theorem number_of_marked (start : Place) {letter : Char} {radix : Radix}
    (h : s.Comes ('0' :: letter :: cs) s') (hletter : Radix.ofLetter? letter = some radix)
    (hcs : HasDigits radix cs) (hnext : s'.Past isNamePart) : s.number start = (⟨.int, false⟩, s') := by
  obtain ⟨hzero, hc, h⟩ := h
  have hcount := List.countP_pos_iff.mpr hcs.2
  unfold number
  rw [if_pos hzero, hc, Option.bind_some, hletter]
  dsimp only
  unfold markedInteger
  rw [digits_of_comes .none h hcs.1 (hnext.goesOn _)]
  dsimp only
  rw [if_neg (by unfold DigitRun.none; omega)]
  rfl

/-! ## Strings and runes -/

/-- The value of digits, one by one. -/
theorem digitsValue_cons (base value : Nat) (d : Char) (ds : List Char) :
    digitsValue base value (d :: ds) = digitsValue base (value * base + (hexDigit? d).getD 0) ds := rfl

/-- The digits of an escape, all of them. -/
theorem escapeDigits_of_comes {e : NumericEscape} {n value : Nat} (h : s.Comes ds s') (hlength : ds.length = n)
    (hds : ∀ d ∈ ds, ∃ v, hexDigit? d = some v ∧ v < e.base) (hadmits : e.admits (digitsValue e.base value ds)) :
    escapeDigits e n value s = (true, s') := by
  induction ds generalizing s n value with
  | nil =>
    cases h
    rw [← hlength, List.length_nil, escapeDigits]
    exact if_pos hadmits
  | cons d ds ih =>
    obtain ⟨v, hv, hlt⟩ := hds d List.mem_cons_self
    have hdigit : e.digit? d = some v := by
      unfold NumericEscape.digit?
      rw [hv, Option.filter_some, if_pos (by simpa using hlt)]
    rw [digitsValue_cons, hv, Option.getD_some] at hadmits
    rw [← hlength, List.length_cons, escapeDigits, h.1]
    dsimp only
    rw [hdigit]
    exact ih h.2 rfl (fun d hd => hds d (List.mem_cons_of_mem _ hd)) hadmits

/-- The quotes of strings with escapes and of runes. -/
def escapeQuotes : List Char := ['"', '\'']

/-- An octal digit is one from zero to seven. -/
theorem isOctal_bounds {c : Char} (h : Radix.octal.isDigit c) : c.isDigit ∧ ('0' ≤ c && c ≤ '7') = true := by
  obtain ⟨value, hvalue, hlt⟩ := Radix.isDigit_iff.mp h
  change value < 8 at hlt
  have hdigit := isDigit_of_hexDigit?_lt hvalue (by omega)
  have hall : ∀ c ∈ decimalDigits, c.toNat - '0'.toNat < 8 → ('0' ≤ c && c ≤ '7') = true := by decide
  rw [hexDigit?_of_isDigit hdigit] at hvalue
  cases hvalue
  exact ⟨hdigit, hall c (mem_decimalDigits hdigit) hlt⟩

/-- No digit is escaped by itself. -/
theorem not_isPlainEscape_of_isDigit {quote c : Char} (hquote : quote ∈ escapeQuotes) (h : c.isDigit) :
    isPlainEscape quote c = false := by
  have hall : ∀ quote ∈ escapeQuotes, ∀ c ∈ decimalDigits, isPlainEscape quote c = false := by decide
  exact hall quote hquote c (mem_decimalDigits h)

/-- An escape for a character may be that of any character. -/
theorem admits_of_isValidChar {value : Nat} (h : value.isValidChar) : NumericEscape.unicode.admits value := by
  have hbase : NumericEscape.unicode.base = 16 := rfl
  have hlargest : NumericEscape.unicode.largest = 0x10ffff := rfl
  unfold NumericEscape.admits
  unfold Nat.isValidChar at h
  simp only [hbase, Bool.and_eq_true, decide_eq_true_eq, Bool.not_eq_true', Bool.and_eq_false_iff,
    decide_eq_false_iff_not]
  omega

/-- Every escape may have a value that fits a byte. -/
theorem admits_of_le {e : NumericEscape} {value : Nat} (h : value ≤ 255) : e.admits value := by
  unfold NumericEscape.admits
  have hlargest : 255 ≤ e.largest := by cases e <;> decide
  simp only [Bool.and_eq_true, decide_eq_true_eq, Bool.not_eq_true', Bool.and_eq_false_iff,
    decide_eq_false_iff_not]
  omega

/-- Two digits come to a byte. -/
theorem digitsValue_le_of_length_eq_two (hlength : ds.length = 2)
    (hds : ∀ d ∈ ds, Radix.hexadecimal.isDigit d) : digitsValue 16 0 ds ≤ 255 := by
  match ds, hlength with
  | [a, b], _ =>
  obtain ⟨x, hx, hx16⟩ := Radix.isDigit_iff.mp (hds a (by simp))
  obtain ⟨y, hy, hy16⟩ := Radix.isDigit_iff.mp (hds b (by simp))
  change x < 16 at hx16
  change y < 16 at hy16
  simp only [digitsValue, List.foldl_cons, List.foldl_nil, hx, hy, Option.getD_some]
  omega

/-- The digits that an escape has. -/
theorem exists_of_isDigit (radix : Radix) (e : NumericEscape) (h : radix.base = e.base)
    (hds : ∀ d ∈ ds, radix.isDigit d) : ∀ d ∈ ds, ∃ v, hexDigit? d = some v ∧ v < e.base :=
  fun d hd => h ▸ Radix.isDigit_iff.mp (hds d hd)

/-- An escape whose backslash has been passed. -/
theorem escape_of_comes {quote : Char} (hquote : quote ∈ escapeQuotes) (h : s.Comes ('\\' :: cs) s')
    (hcs : IsEscape quote ('\\' :: cs)) : s.advance.escape quote = (true, s') := by
  obtain ⟨-, h⟩ := h
  generalize s.advance = s at h
  -- By the form of the escape; each must be shown not to be taken for a form that `escape` tries before it.
  cases hcs with
  | @plain c hc =>
    obtain ⟨hchar, rfl⟩ := h
    have hplain : isPlainEscape quote c := by
      unfold isPlainEscape
      rw [Bool.or_eq_true, decide_eq_true_eq, List.contains_iff_mem]
      exact hc
    unfold escape
    rw [hchar]
    exact if_pos hplain
  | octal hlength hds hvalue =>
    cases cs with
    | nil => cases hlength
    | cons c cs =>
      obtain ⟨hdigit, hbounds⟩ := isOctal_bounds (hds c List.mem_cons_self)
      have hall := escapeDigits_of_comes h hlength
        (exists_of_isDigit .octal .octal rfl hds) (admits_of_le hvalue)
      unfold escape
      rw [h.1]
      dsimp only
      rw [if_neg (by simp [not_isPlainEscape_of_isDigit hquote hdigit]), if_pos hbounds]
      exact hall
  | hexadecimal hlength hds =>
    obtain ⟨hchar, h⟩ := h
    have hplain : isPlainEscape quote 'x' = false := by
      revert quote
      decide
    have hall := escapeDigits_of_comes h hlength
      (exists_of_isDigit .hexadecimal .hexadecimal rfl hds)
      (admits_of_le (digitsValue_le_of_length_eq_two hlength hds))
    unfold escape
    rw [hchar]
    dsimp only
    rw [if_neg (by simp [hplain]), if_neg (by decide), if_pos rfl]
    exact hall
  | @unicode letter ds hletter hds hvalue =>
    obtain ⟨hchar, h⟩ := h
    have hplain : isPlainEscape quote letter = false := by
      have hnone : ∀ quote ∈ escapeQuotes, isPlainEscape quote 'u' = false ∧ isPlainEscape quote 'U' = false := by
        decide
      rcases hletter with ⟨rfl, -⟩ | ⟨rfl, -⟩
      · exact (hnone quote hquote).1
      · exact (hnone quote hquote).2
    have hall {n : Nat} (hlength : ds.length = n) := escapeDigits_of_comes h hlength
      (exists_of_isDigit .hexadecimal .unicode rfl hds) (admits_of_isValidChar hvalue)
    unfold escape
    rw [hchar]
    dsimp only
    rw [if_neg (by simp [hplain])]
    rcases hletter with ⟨rfl, hlength⟩ | ⟨rfl, hlength⟩
    · rw [if_neg (by decide), if_neg (by decide), if_pos rfl]
      exact hall hlength
    · rw [if_neg (by decide), if_neg (by decide), if_neg (by decide), if_pos rfl]
      exact hall hlength

/-- An escape starts with a backslash. -/
theorem IsEscape.exists_cons {quote : Char} (h : IsEscape quote cs) : ∃ ds, cs = '\\' :: ds := by
  cases h <;> exact ⟨_, rfl⟩

/-- The rest of a string, up to its closing quote. -/
theorem stringRest_of_comes (start : Place) (fine : Bool) {items : List (List Char)}
    (h : s.Comes (items.flatten ++ ['"']) s') (hitems : ∀ item ∈ items, IsItem '"' item) :
    s.stringRest start fine = (fine, s') := by
  -- Item by item up to the closing quote.
  induction items generalizing s with
  | nil =>
    obtain ⟨hquote, rfl⟩ := h
    rw [stringRest_eq, hquote]
    rfl
  | cons item items ih =>
    have hrest := fun item hmem => hitems item (List.mem_cons_of_mem _ hmem)
    rw [List.flatten_cons, List.append_assoc] at h
    obtain ⟨t, hitem, hmore⟩ := comes_append.mp h
    rw [stringRest_eq]
    cases hitems item List.mem_cons_self with
    | char hquote hbackslash hnewline =>
      obtain ⟨hc, rfl⟩ := hitem
      rw [hc]
      dsimp only
      rw [if_neg hquote, if_neg hbackslash, if_neg hnewline]
      exact ih hmore hrest
    | escape hescape =>
      obtain ⟨ds, rfl⟩ := IsEscape.exists_cons hescape
      rw [hitem.1]
      dsimp only
      rw [if_neg (by decide), if_pos rfl, escape_of_comes (by decide) hitem hescape, Bool.and_true]
      exact ih hmore hrest

/-- A raw string that comes next is taken up to its quote, and nothing is wrong with it. -/
theorem rawStringRest_of_comes (start : Place) (h : s.Comes (cs ++ ['\x60']) s') (hcs : '\x60' ∉ cs) :
    s.rawStringRest start = (true, s') := by
  obtain ⟨t, hskip, hquote, rfl⟩ := comes_append.mp h
  have hskip := skipWhile_of_comes (p := (· ≠ '\x60')) hskip
    (fun c hc => decide_eq_true fun he => hcs (he ▸ hc)) (past_of_char? hquote (by decide))
  unfold rawStringRest
  rw [hskip]
  dsimp only
  rw [hquote]
  rfl

/-- The rest of a rune, of one item. -/
theorem runeRest_of_comes (start : Place) (h : s.Comes (cs ++ ['\'']) s') (hcs : IsItem '\'' cs) :
    s.runeRest start true 0 = (true, s') := by
  obtain ⟨t, hitem, hquote, rfl⟩ := comes_append.mp h
  -- Behind the one item stands the closing quote.
  have hclose : t.runeRest start true 1 = (true, t.advance) := by
    rw [runeRest_eq, hquote]
    rfl
  rw [runeRest_eq]
  cases hcs with
  | char hne hbackslash hnewline =>
    obtain ⟨hc, rfl⟩ := hitem
    rw [hc]
    dsimp only
    rw [if_neg hne, if_neg hbackslash, if_neg hnewline]
    exact hclose
  | escape hescape =>
    obtain ⟨ds, rfl⟩ := IsEscape.exists_cons hescape
    rw [hitem.1]
    dsimp only
    rw [if_neg (by decide), if_pos rfl, escape_of_comes (by decide) hitem hescape]
    exact hclose

/-! ## Comments -/

/-- What closes a block comment. -/
def closingMarker : List Char := ['*', '/']

/-- The rest of a block comment, through the first closing marker. -/
theorem blockCommentRest_of_comes (h : s.Comes (cs ++ closingMarker) s') (hcs : ¬closingMarker <:+: cs) :
    s.blockCommentRest = (true, s') := by
  induction hn : cs.length using Nat.strongRecOn generalizing s cs with
  | ind n ih =>
    have hsuffix {ds : List Char} (hds : ds <:+ cs) (hlt : ds.length < cs.length) {t : CharStream ω}
        (ht : t.Comes (ds ++ closingMarker) s') : t.blockCommentRest = (true, s') :=
      ih ds.length (hn ▸ hlt) ht (fun hwithin => hcs (hwithin.trans hds.isInfix)) rfl
    rw [blockCommentRest_eq]
    match cs with
    | [] =>
      obtain ⟨hstar, hslash, rfl⟩ := h
      rw [hstar]
      dsimp only
      rw [if_pos rfl, if_pos hslash]
    | c :: cs =>
      obtain ⟨hc, hmore⟩ := h
      rw [hc]
      dsimp only
      by_cases hstar : c = '*'
      · subst hstar
        rw [if_pos rfl]
        -- The star may belong to the marker only if nothing else comes before that.
        match cs with
        | [] =>
          have hnext : s.advance.char? = some '*' := hmore.1
          rw [if_neg (by rw [hnext]; decide), if_pos hnext]
          exact hsuffix (List.suffix_cons '*' []) Nat.one_pos hmore
        | d :: cs =>
          obtain ⟨hnext, hrest⟩ := hmore
          have hslash : d ≠ '/' := by
            rintro rfl
            exact hcs ⟨[], cs, rfl⟩
          rw [if_neg (by rw [hnext]; exact fun he => hslash (Option.some.inj he))]
          split
          · exact hsuffix (List.suffix_cons '*' _) (Nat.lt_succ_self _) ⟨hnext, hrest⟩
          · exact hsuffix ⟨['*', d], rfl⟩ (Nat.lt_succ_of_lt (Nat.lt_succ_self _)) hrest
      · rw [if_neg hstar]
        exact hsuffix (List.suffix_cons c cs) (Nat.lt_succ_self _) hmore

/-- A word that does not hold a star is accepted within a comment, as far as it comes. -/
theorem accept_of_comes {word : List Char} (hword : '*' ∉ word) (h : s.Comes (cs ++ closingMarker) s') :
    ∃ taken rest, cs = taken ++ rest ∧ s.Comes taken (s.accept word).2 ∧
      (s.accept word).2.Comes (rest ++ closingMarker) s' := by
  induction word generalizing s cs with
  | nil => exact ⟨[], cs, rfl, rfl, h⟩
  | cons c word ih =>
    unfold accept
    split
    · next hc =>
      cases cs with
      | nil =>
        have he : c = '*' := Option.some.inj (hc.symm.trans h.1)
        exact absurd (he ▸ List.mem_cons_self) hword
      | cons d cs =>
        obtain ⟨taken, rest, rfl, htaken, hrest⟩ := ih (fun hw => hword (List.mem_cons_of_mem _ hw)) h.2
        exact ⟨d :: taken, rest, rfl, ⟨h.1, htaken⟩, hrest⟩
    · exact ⟨[], cs, rfl, rfl, h⟩

end CharStream

end FrontEnd
