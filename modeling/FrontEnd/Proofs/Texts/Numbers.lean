import FrontEnd.Proofs.Texts.Given

/-!
# Numbers by their grammar

What is passed over for a number is written as one exactly if nothing is found wrong with it
(`CharStream.exists_number`, `CharStream.exists_pointed`). This is also so where something comes behind it
that could not come behind a number, such as a letter: what is judged is the text up to there.

An exponent is what the text of a floating-point number ends in from the first `e` on, since there is no
such letter before it (`IsFloat.exponent`).
-/

namespace FrontEnd

variable {cs ds : List Char} {c : Char} {radix : Radix}

/-! ## Digits -/

/-- An underscore is no digit. -/
theorem Radix.isDigit_underscore (radix : Radix) : radix.isDigit '_' = false := by cases radix <;> decide

/-- A character taken for a digit of the notation is one if its value is small enough. -/
theorem Radix.isDigit_iff_lt {value : Nat} (h : radix.digit? c = some value) :
    radix.isDigit c ↔ value < radix.base := by
  have hvalue : hexDigit? c = some value := by
    unfold Radix.digit? at h
    split at h
    · unfold decimalDigit? at h
      split at h
      · next hdigit => rw [hexDigit?_of_isDigit hdigit, ← h]
      · cases h
    · exact h
  rw [Radix.isDigit, hvalue, Option.any_some, decide_eq_true_eq]

/-- Among digits and underscores, what is no underscore is a digit. -/
theorem hasDigits_iff (h : IsDigits radix cs) : HasDigits radix cs ↔ cs.countP (· ≠ '_') ≠ 0 := by
  rw [← Nat.pos_iff_ne_zero, List.countP_pos_iff]
  refine (and_iff_right h).trans (exists_congr fun c => and_congr_right fun hc => ?_)
  rw [decide_eq_true_eq]
  constructor
  · rintro hdigit rfl
    rw [radix.isDigit_underscore] at hdigit
    cases hdigit
  · exact fun hne => (h c hc).resolve_left hne

/-! ## Exponents -/

/-- Among the characters there is no letter of an exponent. -/
def NoExponent (cs : List Char) : Prop := ∀ c ∈ cs, c ≠ 'e' ∧ c ≠ 'E'

/-- There are no characters, or the first is the letter of an exponent. -/
def MayBeExponent (cs : List Char) : Prop := ∀ c ∈ cs.head?, c = 'e' ∨ c = 'E'

/-- The characters from the first letter of an exponent on. -/
def exponentPart (cs : List Char) : List Char := cs.dropWhile fun c => c ≠ 'e' && c ≠ 'E'

/-- The exponent is what is behind characters without its letter. -/
theorem exponentPart_append (hcs : NoExponent cs) (hds : MayBeExponent ds) : exponentPart (cs ++ ds) = ds := by
  unfold exponentPart
  rw [List.dropWhile_append_of_pos fun c hc => by simpa using hcs c hc]
  cases ds with
  | nil => rfl
  | cons d ds =>
    refine List.dropWhile_cons_of_neg ?_
    rcases hds d rfl with rfl | rfl <;> decide

/-- Among digits there is no letter of an exponent. -/
theorem noExponent_of_isDigits (h : IsDigits .decimal cs) : NoExponent cs := by
  have hall : ∀ c ∈ decimalDigits, c ≠ 'e' ∧ c ≠ 'E' := by decide
  intro c hc
  rcases h c hc with rfl | hdigit
  · decide
  · exact hall c (mem_decimalDigits (Radix.isDigit_decimal.mp hdigit))

/-- Digits with one before them. -/
theorem isDigits_cons (hc : c.isDigit) (hcs : IsDigits .decimal cs) : IsDigits .decimal (c :: cs) :=
  List.forall_mem_cons.mpr ⟨.inr (Radix.isDigit_decimal.mpr hc), hcs⟩

/-- Digits with a point behind them have no letter of an exponent. -/
theorem noExponent_point (hcs : IsDigits .decimal cs) (hds : IsDigits .decimal ds) :
    NoExponent (cs ++ '.' :: ds) :=
  List.forall_mem_append.mpr ⟨noExponent_of_isDigits hcs,
    List.forall_mem_cons.mpr ⟨by decide, noExponent_of_isDigits hds⟩⟩

/-- An exponent may be one. -/
theorem IsExponent.mayBe (h : IsExponent cs) : MayBeExponent cs := by
  obtain ⟨hletter, -, -⟩ := h
  rintro c ⟨⟩
  exact hletter

/-- There may be no exponent. -/
theorem mayBeExponent_nil : MayBeExponent [] := nofun

/-- A floating-point number has an exponent or no letter of one. -/
theorem IsFloat.exponent (h : IsFloat (cs ++ ds)) (hcs : NoExponent cs) (hds : MayBeExponent ds) :
    ds = [] ∨ IsExponent ds := by
  -- A text has one place where its exponent can begin, so the two ways to cut it agree.
  have hpart {front part : List Char} (hfront : NoExponent front) (hpart : part = [] ∨ IsExponent part)
      (he : front ++ part = cs ++ ds) : ds = [] ∨ IsExponent ds := by
    have hmay : MayBeExponent part := by
      rcases hpart with rfl | hpart
      · exact mayBeExponent_nil
      · exact hpart.mayBe
    obtain rfl : part = ds := by rw [← exponentPart_append hfront hmay, he, exponentPart_append hcs hds]
    exact hpart
  generalize hw : cs ++ ds = text at h
  cases h with
  | @pointed c cs fraction exponent hc hcs hfraction hexponent =>
    refine hpart (noExponent_point (isDigits_cons hc hcs) hfraction) hexponent ?_
    simp [hw]
  | @fraction c cs exponent hc hcs hexponent =>
    have hnone : IsDigits .decimal [] := nofun
    refine hpart (noExponent_point hnone (isDigits_cons hc hcs)) hexponent ?_
    simp [hw]
  | @scaled c cs exponent hc hcs hexponent =>
    refine hpart (noExponent_of_isDigits (isDigits_cons hc hcs)) (.inr hexponent) ?_
    simp [hw]

/-- What looks like an exponent is one if there are digits. -/
theorem isExponent_iff {letter : Char} {sign : List Char} (hletter : letter = 'e' ∨ letter = 'E')
    (hsign : sign ∈ exponentSigns) (hds : IsDigits .decimal ds) :
    IsExponent (letter :: (sign ++ ds)) ↔ HasDigits .decimal ds := by
  refine ⟨fun h => ?_, .mk hletter hsign⟩
  generalize htext : letter :: (sign ++ ds) = text at h
  obtain ⟨-, hsign', hdigits⟩ := h
  obtain ⟨c, hc, hdigit⟩ := hdigits.2
  obtain ⟨-, hrest⟩ := List.cons_eq_cons.mp htext
  have hmem : c ∈ sign ++ ds := hrest ▸ List.mem_append_right _ hc
  refine ⟨hds, c, (List.mem_append.mp hmem).resolve_left fun hc => ?_, hdigit⟩
  -- No sign is a digit.
  have hall : ∀ sign ∈ exponentSigns, ∀ c ∈ sign, Radix.decimal.isDigit c = false := by decide
  rw [hall sign hsign c hc] at hdigit
  cases hdigit

namespace CharStream

variable {ω : Type} [ByteWindow ω] {s : CharStream ω}

/-! ## What is passed over -/

/-- The digits that are passed over are counted, and there is a stray one unless all are digits of the
notation. -/
theorem exists_digits (radix : Radix) (run : DigitRun) (s : CharStream ω) :
    ∃ cs, s.Comes cs (s.digits radix run).2 ∧ (∀ c ∈ cs, goesOn radix c) ∧
      (s.digits radix run).1.count = run.count + cs.countP (· ≠ '_') ∧
      ((s.digits radix run).1.stray? = none ↔ run.stray? = none ∧ IsDigits radix cs) := by
  fun_induction digits radix run s with
  | case1 | case3 => exact ⟨[], rfl, nofun, rfl, (and_iff_left nofun).symm⟩
  | case2 run s hc ih =>
    obtain ⟨cs, hcomes, hall, hcount, hstray⟩ := ih
    refine ⟨'_' :: cs, ⟨hc, hcomes⟩, List.forall_mem_cons.mpr ⟨rfl, hall⟩, ?_, ?_⟩
    · rw [hcount, List.countP_cons_of_neg (by decide)]
    · rw [hstray, IsDigits, IsDigits, List.forall_mem_cons]
      simp
  -- A digit of a greater radix is counted as well, and noted as stray unless one was before.
  | case4 run s c hc hne value hvalue ih =>
    obtain ⟨cs, hcomes, hall, hcount, hstray⟩ := ih
    refine ⟨c :: cs, ⟨hc, hcomes⟩, List.forall_mem_cons.mpr ⟨?_, hall⟩, ?_, ?_⟩
    · simp [goesOn, hvalue]
    · have hpush : (run.push radix c value).count = run.count + 1 := rfl
      rw [hcount, hpush, List.countP_cons_of_pos (by simpa using hne), Nat.add_assoc, Nat.add_comm 1]
    · rw [hstray, IsDigits, IsDigits, List.forall_mem_cons, Radix.isDigit_iff_lt hvalue]
      unfold DigitRun.push
      simp only [hne, false_or]
      by_cases hlt : value < radix.base <;> cases run.stray? <;> simp [hlt, Nat.not_le.mpr, Nat.le_of_not_lt]

/-- In plain notation there are no stray digits. -/
theorem isDigits_decimal (h : ∀ c ∈ cs, goesOn .decimal c) : IsDigits .decimal cs := by
  intro c hc
  have hgoes := h c hc
  unfold goesOn at hgoes
  rw [Bool.or_eq_true, decide_eq_true_eq] at hgoes
  refine hgoes.imp_right fun hdigit => Radix.isDigit_decimal.mpr ?_
  change (decimalDigit? c).isSome = true at hdigit
  unfold decimalDigit? at hdigit
  split at hdigit
  · assumption
  · cases hdigit

/-- Where the digits end does not depend on what came before. -/
theorem snd_digits (radix : Radix) (run run' : DigitRun) (s : CharStream ω) :
    (s.digits radix run).2 = (s.digits radix run').2 := by
  induction hn : s.remaining using Nat.strongRecOn generalizing s run run' with
  | ind n ih =>
    subst hn
    rw [digits_eq radix run, digits_eq radix run']
    cases hc : s.char? with
    | none => rfl
    | some c =>
      have hlt := s.remaining_advance_lt (Option.isSome_of_eq_some hc)
      dsimp only
      split
      · exact ih _ hlt _ _ _ rfl
      · split
        · rfl
        · exact ih _ hlt _ _ _ rfl

/-- A first digit is passed over like any other. -/
theorem snd_digits_advance (hc : s.char? = some c) (hdigit : c.isDigit) :
    (s.digits .decimal .none).2 = (s.advance.digits .decimal .none).2 := by
  have hne : c ≠ '_' := by
    rintro rfl
    exact absurd hdigit (by decide)
  have hvalue : Radix.decimal.digit? c = some (c.toNat - '0'.toNat) := if_pos hdigit
  rw [digits_eq, hc]
  dsimp only
  rw [if_neg hne, hvalue]
  exact snd_digits ..

/-- What is passed over for an exponent is one exactly if nothing is wrong, unless it is nothing at all. -/
theorem exists_exponent (start : Place) (kind : LitKind) (s : CharStream ω) :
    ∃ cs, s.Gives cs (s.exponent start kind).2 ∧ MayBeExponent cs ∧
      (s.exponent start kind).1.kind = (if cs = [] then kind else .float) ∧
      ((s.exponent start kind).1.bad = false ↔ cs = [] ∨ IsExponent cs) := by
  unfold exponent
  split
  · next hletter =>
    obtain ⟨letter, hc, he⟩ : ∃ letter, s.char? = some letter ∧ (letter = 'e' ∨ letter = 'E') := by
      rcases hletter with h | h
      · exact ⟨'e', h, .inl rfl⟩
      · exact ⟨'E', h, .inr rfl⟩
    -- The sign may be missing, then nothing is taken.
    obtain ⟨sign, t, hsign, hsigned, ht⟩ : ∃ sign t, sign ∈ exponentSigns ∧ s.advance.Comes sign t ∧
        (if s.advance.char? = some '+' ∨ s.advance.char? = some '-' then s.advance.advance
          else s.advance) = t := by
      split
      · next h =>
        rcases h with h | h
        · exact ⟨['+'], _, by decide, ⟨h, rfl⟩, rfl⟩
        · exact ⟨['-'], _, by decide, ⟨h, rfl⟩, rfl⟩
      · exact ⟨[], _, by decide, rfl, rfl⟩
    obtain ⟨ds, hds, hall, hcount, -⟩ := exists_digits .decimal .none t
    have hgiven : s.Comes (letter :: (sign ++ ds)) (t.digits .decimal .none).2 :=
      ⟨hc, comes_append.mpr ⟨t, hsigned, hds⟩⟩
    have hdigits := isDigits_decimal hall
    -- What has been taken is an exponent exactly when a digit was counted.
    have hexponent := (isExponent_iff he hsign hdigits).trans (hasDigits_iff hdigits)
    rw [← Nat.zero_add (List.countP _ ds), show 0 = DigitRun.none.count from rfl, ← hcount] at hexponent
    have hfirst : MayBeExponent (letter :: (sign ++ ds)) := by
      rintro c ⟨⟩
      exact he
    dsimp only
    rw [ht]
    split
    · next hzero =>
      refine ⟨_, hgiven.gives.complainAt _ _, hfirst, rfl, iff_of_false nofun ?_⟩
      rintro (hnil | h)
      · cases hnil
      · exact hexponent.mp h hzero
    · next hzero => exact ⟨_, hgiven.gives, hfirst, rfl, iff_of_true rfl (.inr (hexponent.mpr hzero))⟩
  · exact ⟨[], .refl s, mayBeExponent_nil, rfl, iff_of_true rfl (.inl rfl)⟩

/-- Behind a point there are digits, and then perhaps an exponent. -/
theorem exists_fraction (start : Place) (s : CharStream ω) :
    ∃ cs ds, s.Gives (cs ++ ds) (s.fraction start).2 ∧ IsDigits .decimal cs ∧ MayBeExponent ds ∧
      (s.fraction start).1.kind = .float ∧
      ((s.fraction start).1.bad = false ↔ ds = [] ∨ IsExponent ds) := by
  obtain ⟨cs, hcs, hall, -⟩ := exists_digits .decimal .none s
  obtain ⟨ds, hds, hfirst, hkind, hbad⟩ := (s.digits .decimal .none).2.exists_exponent start .float
  exact ⟨cs, ds, hcs.gives_append hds, isDigits_decimal hall, hfirst, hkind.trans (ite_self _), hbad⟩

/-! ## Numbers -/

/-- Behind a first digit, a number in plain notation goes on. -/
theorem exists_decimal (start : Place) (hc : c.isDigit) (s : CharStream ω) :
    ∃ cs, s.Gives cs (s.decimal start).2 ∧
      ((s.decimal start).1.bad = false ↔ IsLiteral (s.decimal start).1.kind (c :: cs)) := by
  obtain ⟨cs, hcs, hall, -⟩ := exists_digits .decimal .none s
  have hdigits := isDigits_decimal hall
  unfold decimal
  dsimp only
  -- With a point the literal is a float whatever follows; without one an exponent makes it a float.
  split
  · next hpoint =>
    obtain ⟨fraction, exponent, hgiven, hfraction, hfirst, hkind, hbad⟩ :=
      (s.digits .decimal .none).2.advance.exists_fraction start
    have hpointed : (s.digits .decimal .none).2.Comes ['.'] (s.digits .decimal .none).2.advance :=
      ⟨hpoint, rfl⟩
    refine ⟨cs ++ (['.'] ++ (fraction ++ exponent)), hcs.gives_append (hpointed.gives_append hgiven), ?_⟩
    rw [hkind, hbad]
    refine ⟨.pointed hc hdigits hfraction, fun h => ?_⟩
    have hnone := noExponent_point (isDigits_cons hc hdigits) hfraction
    refine IsFloat.exponent ?_ hnone hfirst
    simpa [IsLiteral] using h
  · obtain ⟨exponent, hgiven, hfirst, hkind, hbad⟩ := (s.digits .decimal .none).2.exists_exponent start .int
    refine ⟨cs ++ exponent, hcs.gives_append hgiven, ?_⟩
    rw [hkind, hbad]
    by_cases hnil : exponent = []
    · rw [if_pos hnil, hnil, List.append_nil]
      exact iff_of_true (.inl rfl) (.plain hc hdigits)
    · rw [if_neg hnil, or_iff_right hnil]
      refine ⟨.scaled hc hdigits, fun h => ?_⟩
      have hnone := noExponent_of_isDigits (isDigits_cons hc hdigits)
      refine (IsFloat.exponent ?_ hnone hfirst).resolve_left hnil
      exact h

/-- The letter of a notation is behind a zero that is no number by itself. -/
theorem isInt_marked_iff {letter : Char} (hletter : Radix.ofLetter? letter = some radix) :
    IsInt ('0' :: letter :: cs) ↔ HasDigits radix cs := by
  refine ⟨fun h => ?_, .marked hletter⟩
  cases h with
  | plain _ hdigits =>
    -- The letter would be a digit of a number in plain notation.
    obtain ⟨hne, hno, -⟩ := not_isDigit_of_ofLetter? (Option.isSome_of_eq_some hletter)
    have hdigit := (hdigits letter List.mem_cons_self).resolve_left hne
    rw [hno] at hdigit
    cases hdigit
  | marked hletter' hdigits =>
    obtain rfl := Option.some.inj (hletter.symm.trans hletter')
    exact hdigits

/-- Behind the letter of a notation, an integer goes on. -/
theorem exists_markedInteger (start : Place) {letter : Char} (hletter : Radix.ofLetter? letter = some radix)
    (s : CharStream ω) : ∃ cs, s.Gives cs (s.markedInteger start radix).2 ∧
      ((s.markedInteger start radix).1.bad = false ↔
        IsLiteral (s.markedInteger start radix).1.kind ('0' :: letter :: cs)) := by
  obtain ⟨cs, hcs, hall, hcount, hstray⟩ := exists_digits radix .none s
  have hint : IsInt ('0' :: letter :: cs) ↔ HasDigits radix cs := isInt_marked_iff hletter
  have hdigits : (s.digits radix .none).1.stray? = none ↔ IsDigits radix cs :=
    hstray.trans (and_iff_right rfl)
  rw [show DigitRun.none.count = 0 from rfl, Nat.zero_add] at hcount
  have hbad : ¬true = false := fun h => Bool.noConfusion h
  unfold markedInteger
  dsimp only
  -- A missing digit and a stray one are the two complaints; without either all digits count and there is one.
  split
  · next hzero =>
    refine ⟨cs, hcs.gives.complainAt _ _, iff_of_false hbad fun h => ?_⟩
    have hhas := hint.mp h
    exact (hasDigits_iff hhas.1).mp hhas (hcount ▸ hzero)
  · next hzero =>
    split
    · next hsome =>
      refine ⟨cs, hcs.gives.complainAt _ _, iff_of_false hbad fun h => ?_⟩
      rw [hdigits.mpr (hint.mp h).1] at hsome
      cases hsome
    · next hnone =>
      have hall := hdigits.mp hnone
      exact ⟨cs, hcs.gives, iff_of_true rfl (hint.mpr ((hasDigits_iff hall).mpr (hcount ▸ hzero)))⟩

/-- Where a number without a point at its start is passed over, it is one exactly if nothing is wrong. -/
theorem exists_number (start : Place) (hc : s.char? = some c) (hdigit : c.isDigit) :
    ∃ cs, s.Gives cs (s.number start).2 ∧
      ((s.number start).1.bad = false ↔ IsLiteral (s.number start).1.kind cs) := by
  have hfirst : s.Comes [c] s.advance := ⟨hc, rfl⟩
  obtain ⟨cs, hgiven, hbad⟩ := s.advance.exists_decimal start hdigit
  -- A decimal literal is read the same with its first digit taken or not.
  have hdecimal : s.decimal start = s.advance.decimal start := by
    unfold decimal
    rw [snd_digits_advance hc hdigit]
  unfold number
  split
  · next hzero =>
    obtain rfl : c = '0' := Option.some.inj (hc.symm.trans hzero)
    split
    · next radix hradix =>
      obtain ⟨letter, hletter, hofLetter⟩ := Option.bind_eq_some_iff.mp hradix
      obtain ⟨cs, hgiven, hbad⟩ := s.advance.advance.exists_markedInteger start hofLetter
      have hmarked : s.Comes ['0', letter] s.advance.advance := ⟨hc, hletter, rfl⟩
      exact ⟨_, hmarked.gives_append hgiven, hbad⟩
    · exact ⟨_, hfirst.gives_append hgiven, hbad⟩
  · rw [hdecimal]
    exact ⟨_, hfirst.gives_append hgiven, hbad⟩

/-- Where a number with a point at its start is passed over, it is one exactly if nothing is wrong. -/
theorem exists_pointed (start : Place) (hpoint : s.char? = some '.') (hc : s.advance.char? = some c)
    (hdigit : c.isDigit) : ∃ cs, s.Gives cs (s.advance.fraction start).2 ∧
      ((s.advance.fraction start).1.bad = false ↔ IsLiteral (s.advance.fraction start).1.kind cs) := by
  have hfirst : s.Comes ['.', c] s.advance.advance := ⟨hpoint, hc, rfl⟩
  have hfraction : s.advance.fraction start = s.advance.advance.fraction start := by
    unfold fraction
    rw [snd_digits_advance hc hdigit]
  obtain ⟨cs, exponent, hgiven, hdigits, hmay, hkind, hbad⟩ := s.advance.advance.exists_fraction start
  rw [hfraction]
  refine ⟨_, hfirst.gives_append hgiven, ?_⟩
  rw [hkind, hbad]
  refine ⟨.fraction hdigit hdigits, fun h => ?_⟩
  have hnone : IsDigits .decimal [] := nofun
  refine IsFloat.exponent ?_ (noExponent_point hnone (isDigits_cons hdigit hdigits)) hmay
  exact h

end CharStream

end FrontEnd
