import FrontEnd.Proofs.Texts.Given

/-!
# Strings and runes by their grammar

What is passed over for a string or a rune is written as one exactly if nothing is found wrong with it
(`CharStream.exists_string`, `CharStream.exists_rawString`, `CharStream.exists_rune`).

If nothing is wrong, nothing has been told on the way, and the items can be read off the way that the loop has
taken (`CharStream.comes_of_stringRest`, `CharStream.comes_of_runeRest`). The other way round, where the
characters of a string or a rune come, the loop finds nothing wrong; so if it has found something wrong, what
it has passed over is none.
-/

namespace FrontEnd

namespace CharStream

variable {ω : Type} [ByteWindow ω] {s t : CharStream ω} {cs : List Char} {quote : Char}

/-! ## Escapes -/

/-- Digits with which nothing is wrong are all there, unless the input has ended. -/
theorem comes_of_escapeDigits {e : NumericEscape} {n value : Nat}
    (h : (escapeDigits e n value s).1 = true) : (escapeDigits e n value s).2.char? = none ∨
      ∃ ds, s.Comes ds (escapeDigits e n value s).2 ∧ ds.length = n ∧
        (∀ d ∈ ds, ∃ v, hexDigit? d = some v ∧ v < e.base) ∧ e.admits (digitsValue e.base value ds) := by
  -- By the digits still expected; at the end of the input nothing is said, the literal itself is then open.
  induction n generalizing value s with
  | zero =>
    unfold escapeDigits at h ⊢
    split at h
    · next hadmits =>
      rw [if_pos hadmits]
      exact .inr ⟨[], rfl, rfl, fun _ hd => (List.not_mem_nil hd).elim, hadmits⟩
    · cases h
  | succ n ih =>
    unfold escapeDigits at h ⊢
    cases hc : s.char? with
    | none => exact .inl hc
    | some c =>
      rw [hc] at h
      dsimp only at h ⊢
      cases hd : e.digit? c with
      | none =>
        rw [hd] at h
        cases h
      | some d =>
        rw [hd] at h
        obtain ⟨hvalue, hlt⟩ := Option.filter_eq_some_iff.mp hd
        refine (ih h).imp_right ?_
        rintro ⟨ds, hds, hlength, hall, hadmits⟩
        refine ⟨c :: ds, ⟨hc, hds⟩, congrArg (· + 1) hlength,
          List.forall_mem_cons.mpr ⟨⟨d, hvalue, of_decide_eq_true hlt⟩, hall⟩, ?_⟩
        rwa [digitsValue_cons, hvalue]

/-- An escape for a character has the value of one. -/
theorem isValidChar_of_admits {value : Nat} (h : NumericEscape.unicode.admits value) : value.isValidChar := by
  have hbase : NumericEscape.unicode.base = 16 := rfl
  have hlargest : NumericEscape.unicode.largest = 0x10ffff := rfl
  unfold NumericEscape.admits at h
  unfold Nat.isValidChar
  simp only [hbase, Bool.and_eq_true, decide_eq_true_eq, Bool.not_eq_true', Bool.and_eq_false_iff,
    decide_eq_false_iff_not, not_true_eq_false, false_or] at h
  omega

/-- The value of an escape is not too large. -/
theorem le_largest_of_admits {e : NumericEscape} {value : Nat} (h : e.admits value) : value ≤ e.largest := by
  unfold NumericEscape.admits at h
  simp only [Bool.and_eq_true, decide_eq_true_eq] at h
  exact h.1

/-- An escape with which nothing is wrong is one, unless the input has ended. -/
theorem comes_of_escape (h : (s.escape quote).1 = true) : (s.escape quote).2.char? = none ∨
    ∃ cs, s.Comes cs (s.escape quote).2 ∧ IsEscape quote ('\\' :: cs) := by
  unfold escape at h ⊢
  cases hc : s.char? with
  | none => exact .inl hc
  | some c =>
    rw [hc] at h
    dsimp only at h ⊢
    split
    · next hplain =>
      unfold isPlainEscape at hplain
      rw [Bool.or_eq_true, decide_eq_true_eq, List.contains_iff_mem] at hplain
      exact .inr ⟨[c], ⟨hc, rfl⟩, .plain hplain⟩
    · next hplain =>
      rw [if_neg hplain] at h
      have hdigits {e : NumericEscape} {radix : Radix} {ds : List Char} (he : e.base = radix.base)
          (hall : ∀ d ∈ ds, ∃ v, hexDigit? d = some v ∧ v < e.base) : ∀ d ∈ ds, radix.isDigit d :=
        fun d hd => Radix.isDigit_iff.mpr (he ▸ hall d hd)
      -- An escape of digits has them from its first character on or behind that.
      split
      · next hoctal =>
        rw [if_pos hoctal] at h
        refine (comes_of_escapeDigits h).imp_right ?_
        rintro ⟨ds, hds, hlength, hall, hadmits⟩
        exact ⟨ds, hds, .octal hlength (hdigits rfl hall) (le_largest_of_admits hadmits)⟩
      · next hoctal =>
        rw [if_neg hoctal] at h
        split
        · next hx =>
          rw [if_pos hx] at h
          refine (comes_of_escapeDigits h).imp_right ?_
          rintro ⟨ds, hds, hlength, hall, -⟩
          exact ⟨c :: ds, ⟨hc, hds⟩, hx ▸ .hexadecimal hlength (hdigits rfl hall)⟩
        · next hx =>
          rw [if_neg hx] at h
          split
          · next hu =>
            rw [if_pos hu] at h
            refine (comes_of_escapeDigits h).imp_right ?_
            rintro ⟨ds, hds, hlength, hall, hadmits⟩
            exact ⟨c :: ds, ⟨hc, hds⟩, .unicode (.inl ⟨hu, hlength⟩) (hdigits rfl hall)
              (isValidChar_of_admits hadmits)⟩
          · next hu =>
            rw [if_neg hu] at h
            split
            · next hU =>
              rw [if_pos hU] at h
              refine (comes_of_escapeDigits h).imp_right ?_
              rintro ⟨ds, hds, hlength, hall, hadmits⟩
              exact ⟨c :: ds, ⟨hc, hds⟩, .unicode (.inr ⟨hU, hlength⟩) (hdigits rfl hall)
                (isValidChar_of_admits hadmits)⟩
            · next hU =>
              rw [if_neg hU] at h
              cases h

/-- Behind an escape with which nothing is wrong something must come, or it is not all there. -/
theorem comes_of_item {ds : List Char} (hc : s.char? = some '\\') (h : (s.advance.escape quote).1 = true)
    (hds : (s.advance.escape quote).2.Comes ds t) (hne : ds ≠ []) :
    ∃ item, IsItem quote item ∧ s.Comes (item ++ ds) t := by
  have hmore : (s.advance.escape quote).2.char? ≠ none := by
    obtain ⟨d, ds, rfl⟩ := List.exists_cons_of_ne_nil hne
    rw [hds.1]
    exact nofun
  obtain ⟨cs, hcs, hescape⟩ := (comes_of_escape h).resolve_left hmore
  exact ⟨'\\' :: cs, .escape hescape, hc, comes_append.mpr ⟨_, hcs, hds⟩⟩

/-! ## Strings and runes -/

/-- A string with which nothing is wrong has items up to its closing quote. -/
theorem comes_of_stringRest {start : Place} {fine : Bool} (h : (s.stringRest start fine).1 = true) :
    fine = true ∧ ∃ items : List (List Char), (∀ item ∈ items, IsItem '"' item) ∧
      s.Comes (items.flatten ++ ['"']) (s.stringRest start fine).2 := by
  fun_induction stringRest start fine s with
  | case1 | case4 => cases h
  | case2 fine s hc => exact ⟨h, [], nofun, hc, rfl⟩
  | case3 fine s escaped hc hne ih =>
    obtain ⟨hboth, items, hitems, hcomes⟩ := ih h
    obtain ⟨hfine, hescaped⟩ := (Bool.and_eq_true_iff ..).mp hboth
    obtain ⟨item, hitem, hall⟩ := comes_of_item hc hescaped hcomes (by simp)
    refine ⟨hfine, item :: items, List.forall_mem_cons.mpr ⟨hitem, hitems⟩, ?_⟩
    rwa [List.flatten_cons, List.append_assoc]
  | case5 fine s c hc hquote hbackslash hline ih =>
    obtain ⟨hfine, items, hitems, hcomes⟩ := ih h
    refine ⟨hfine, [c] :: items, List.forall_mem_cons.mpr ⟨?_, hitems⟩, hc, hcomes⟩
    exact .char hquote hbackslash hline

/-- What is passed over in a run comes. -/
theorem comes_skipWhile (p : Char → Bool) (s : CharStream ω) :
    ∃ cs, (∀ c ∈ cs, p c) ∧ s.Comes cs (s.skipWhile p) ∧ (s.skipWhile p).Past p := by
  fun_induction skipWhile p s with
  | case1 s hp ih =>
    obtain ⟨c, hc, hpc⟩ := (Option.any_eq_true _ _).mp hp
    obtain ⟨cs, hall, hcomes, hpast⟩ := ih
    exact ⟨c :: cs, List.forall_mem_cons.mpr ⟨hpc, hall⟩, ⟨hc, hcomes⟩, hpast⟩
  | case2 s hp => exact ⟨[], fun _ hc => (List.not_mem_nil hc).elim, rfl, Bool.eq_false_iff.mpr hp⟩

/-- A raw string with which nothing is wrong has its closing quote. -/
theorem comes_of_rawStringRest {start : Place} (h : (s.rawStringRest start).1 = true) :
    ∃ cs, '\x60' ∉ cs ∧ s.Comes (cs ++ ['\x60']) (s.rawStringRest start).2 := by
  obtain ⟨cs, hall, hcomes, hpast⟩ := comes_skipWhile (· ≠ '\x60') s
  unfold rawStringRest at h ⊢
  dsimp only at h ⊢
  split
  · next hmore =>
    obtain ⟨c, hc⟩ := Option.isSome_iff_exists.mp hmore
    have hquote : c = '\x60' := by
      unfold Past at hpast
      rw [hc] at hpast
      simpa using hpast
    refine ⟨cs, fun hmem => ?_, comes_append.mpr ⟨_, hcomes, hquote ▸ hc, rfl⟩⟩
    exact absurd (hall _ hmem) (by decide)
  · next hmore =>
    rw [if_neg hmore] at h
    cases h

/-- A rune with which nothing is wrong has one item up to its closing quote. -/
theorem comes_of_runeRest {start : Place} {fine : Bool} {n : Nat} (h : (s.runeRest start fine n).1 = true) :
    fine = true ∧ ∃ items : List (List Char), n + items.length = 1 ∧ (∀ item ∈ items, IsItem '\'' item) ∧
      s.Comes (items.flatten ++ ['\'']) (s.runeRest start fine n).2 := by
  -- Along the loop; `n` items have been read before, and one in all is what makes a rune.
  fun_induction runeRest start fine n s with
  | case1 | case3 | case4 | case6 => cases h
  | case2 fine s hc => exact ⟨h, [], rfl, nofun, hc, rfl⟩
  | case5 fine n s escaped hc hne ih =>
    obtain ⟨hboth, items, hlength, hitems, hcomes⟩ := ih h
    obtain ⟨hfine, hescaped⟩ := (Bool.and_eq_true_iff ..).mp hboth
    obtain ⟨item, hitem, hall⟩ := comes_of_item hc hescaped hcomes (by simp)
    refine ⟨hfine, item :: items, ?_, List.forall_mem_cons.mpr ⟨hitem, hitems⟩, ?_⟩
    · rw [List.length_cons]
      omega
    · rwa [List.flatten_cons, List.append_assoc]
  | case7 fine n s c hc hquote hbackslash hline ih =>
    obtain ⟨hfine, items, hlength, hitems, hcomes⟩ := ih h
    refine ⟨hfine, [c] :: items, ?_, List.forall_mem_cons.mpr ⟨?_, hitems⟩, hc, hcomes⟩
    · rw [List.length_cons]
      omega
    · exact .char hquote hbackslash hline

/-! ## Exactly by the grammar -/

/-- What is passed over is a literal exactly if nothing is found wrong, when it is one if nothing is found wrong
and nothing is found wrong where one comes. -/
theorem exists_judged {kind : LitKind} {found : Bool × CharStream ω} (hgiven : ∃ cs, s.Gives cs found.2)
    (hsound : found.1 = true → ∃ cs, s.Comes cs found.2 ∧ IsLiteral kind cs)
    (hcomplete : ∀ cs t, s.Comes cs t → IsLiteral kind cs → found.1 = true) :
    ∃ cs, s.Gives cs found.2 ∧ (found.1 = true ↔ IsLiteral kind cs) := by
  cases hfound : found.1 with
  | true =>
    obtain ⟨cs, hcs, hliteral⟩ := hsound hfound
    exact ⟨cs, hcs.gives, iff_of_true rfl hliteral⟩
  | false =>
    obtain ⟨cs, t, hcs, hsame⟩ := hgiven
    refine ⟨cs, ⟨t, hcs, hsame⟩, iff_of_false nofun fun hliteral => ?_⟩
    rw [hcomplete cs t hcs hliteral] at hfound
    cases hfound

/-- Where it goes on, some characters have been given. -/
theorem exists_gives_advance {c : Char} (hc : s.char? = some c) : ∃ cs, s.Gives cs s.advance :=
  ⟨[c], (Gives.refl s).advance hc⟩

/-- What is passed over for a string is written as one exactly if nothing is found wrong. -/
theorem exists_string (start : Place) (hc : s.char? = some '"') :
    ∃ cs, s.Gives cs (s.advance.stringRest start true).2 ∧
      ((s.advance.stringRest start true).1 = true ↔ IsLiteral .string cs) := by
  refine exists_judged ?_ (fun h => ?_) fun cs t hcs hliteral => ?_
  · exact ((onward_gives s start).stringRest true ⟨rfl, exists_gives_advance hc⟩).2.2
  · obtain ⟨-, items, hitems, hcomes⟩ := comes_of_stringRest h
    exact ⟨'"' :: _, ⟨hc, hcomes⟩, .items hitems⟩
  · cases hliteral with
    | items hitems => rw [stringRest_of_comes start true hcs.2 hitems]
    | raw => cases hc.symm.trans hcs.1

/-- What is passed over for a raw string is written as one exactly if nothing is found wrong. -/
theorem exists_rawString (start : Place) (hc : s.char? = some '\x60') :
    ∃ cs, s.Gives cs (s.advance.rawStringRest start).2 ∧
      ((s.advance.rawStringRest start).1 = true ↔ IsLiteral .string cs) := by
  refine exists_judged ?_ (fun h => ?_) fun cs t hcs hliteral => ?_
  · exact ((onward_gives s start).rawStringRest ⟨rfl, exists_gives_advance hc⟩).2.2
  · obtain ⟨cs, hquote, hcomes⟩ := comes_of_rawStringRest h
    exact ⟨'\x60' :: _, ⟨hc, hcomes⟩, .raw hquote⟩
  · cases hliteral with
    | items => cases hc.symm.trans hcs.1
    | raw hquote => rw [rawStringRest_of_comes start hcs.2 hquote]

/-- What is passed over for a rune is written as one exactly if nothing is found wrong. -/
theorem exists_rune (start : Place) (hc : s.char? = some '\'') :
    ∃ cs, s.Gives cs (s.advance.runeRest start true 0).2 ∧
      ((s.advance.runeRest start true 0).1 = true ↔ IsLiteral .rune cs) := by
  refine exists_judged ?_ (fun h => ?_) fun cs t hcs hliteral => ?_
  · exact ((onward_gives s start).runeRest true 0 ⟨rfl, exists_gives_advance hc⟩).2.2
  · obtain ⟨-, items, hlength, hitems, hcomes⟩ := comes_of_runeRest h
    rw [Nat.zero_add] at hlength
    obtain ⟨item, rfl⟩ := List.length_eq_one_iff.mp hlength
    rw [List.flatten_singleton] at hcomes
    exact ⟨'\'' :: _, ⟨hc, hcomes⟩, .mk (hitems item (List.mem_singleton.mpr rfl))⟩
  · obtain ⟨hitem⟩ := hliteral
    rw [runeRest_of_comes start hcs.2 hitem]

end CharStream

end FrontEnd
