import FrontEnd.Proofs.Trees.Sound
import FrontEnd.Proofs.Whole.Scans

/-!
# Names without a fault

As long as nothing is wrong, going on passes over exactly one character, so the text since the mark is
made of the characters that were passed (`CharStream.Since`). The text of a name is therefore a letter
and what may follow one (`isIdentifier_of_mem_scans`).
-/

namespace FrontEnd

namespace CharStream

variable {bytes : ByteArray} {total : Nat} {outcome : Option ReadFailure} {c : Cursor}
  {s : CharStream Buffer}

/-- Behind the first byte nothing is passed over without a complaint. -/
theorem Clear.seek_of_pos (h : s.Clear bytes total outcome c) (hpos : 0 < c.offset)
    (hn : s.seek.NoFault) : s.seek.Clean bytes total outcome
      { c with offset := c.offset + s.seek.width } := by
  rw [CharStream.seek.eq_def] at hn ⊢
  split
  · next hp =>
    rw [if_pos hp] at hn
    have hpass := hn.of_seek
    unfold NoFault at hpass
    rw [reports_passChar] at hpass
    have hpassed : passedOver s.window.fetch.1 := hp
    obtain ⟨hstands, -⟩ := h.reached.views.fetch.resolve_right fun ⟨failure, _, hf⟩ => by
      rw [hf] at hpassed
      cases hpassed
    -- What is passed over without a fault is a mark at the start, and this is not the start.
    have := (h.stands_mark hp (NoFault.of_receive hpass).1 hstands).1
    omega
  · next hp =>
    rw [if_neg hp] at hn
    have hclean := h.receive hp hn
    rwa [← width_receive s s.window.fetch] at hclean

/-- Where no fault is reported after skipping, none has been before. -/
theorem NoFault.of_skipWhile {p : Char → Bool} (h : (s.skipWhile p).NoFault) : s.NoFault := by
  fun_induction CharStream.skipWhile p s with
  | case1 s _ ih => exact (ih h).of_advance
  | case2 => exact h

/-- Nothing is wrong, and the characters since the mark are `word`. -/
structure Since (bytes : ByteArray) (total : Nat) (outcome : Option ReadFailure) (word : List Char)
    (c : Cursor) (s : CharStream Buffer) : Prop extends s.Clean bytes total outcome c where
  since : ∃ m, c.mark? = some m ∧ bytes.extract m (c.offset - s.width) = word.utf8Encode

variable {word : List Char}

/-- Right at the mark there are none. -/
theorem Clean.since_setMark (h : s.Clean bytes total outcome c) :
    s.setMark.Since bytes total outcome [] (ByteWindow.setMark s.width c) where
  placed := h.placed.setMark
  before := h.before
  through := h.through
  mark m hm := by
    cases hm
    exact ⟨Nat.le_refl _, h.before⟩
  since := ⟨_, rfl, ByteArray.extract_same⟩

/-- Going on adds the current character. -/
theorem Since.advance (h : s.Since bytes total outcome word c) {ch : Char} (hc : s.char? = some ch)
    (hn : s.advance.NoFault) : ∃ c', s.advance.Since bytes total outcome (word ++ [ch]) c' := by
  have hcurrent : s.current = .char ch := by
    unfold current
    rw [hc]
    rfl
  have hwidth : s.width = ch.utf8Size := by
    rw [h.placed.width_eq, hcurrent]
    rfl
  have hstands := h.placed.stands
  rw [hcurrent, hwidth] at hstands
  have hle : ch.utf8Size ≤ c.offset :=
    hwidth ▸ Nat.le_trans h.placed.width_le h.placed.views.next_le
  have hpos := ch.utf8Size_pos
  have hclean := h.toClean.passChar.seek_of_pos (by omega) hn
  refine ⟨_, hclean, ?_⟩
  obtain ⟨m, hm, hsince⟩ := h.since
  have hmark := (h.mark m hm).1
  refine ⟨m, hm, ?_⟩
  rw [hwidth] at hsince hmark
  have hback : c.offset + s.passChar.seek.width - s.advance.width = c.offset := Nat.add_sub_cancel ..
  cases hstands with
  | char hd =>
    -- The bytes of the character just passed, which the segment grows by.
    have hlast := Utf8.extract_of_utf8DecodeChar? hd
    rw [Nat.sub_add_cancel hle] at hlast
    dsimp only
    rw [hback, ByteArray.extract_eq_extract_append_extract (c.offset - ch.utf8Size) hmark
      (Nat.sub_le ..), hsince, hlast, List.utf8Encode_append, List.utf8Encode_singleton]

/-- Skipping adds what is skipped. -/
theorem Since.skipWhile {p : Char → Bool} (h : s.Since bytes total outcome word c)
    (hn : (s.skipWhile p).NoFault) : ∃ more c', (∀ ch ∈ more, p ch) ∧
      (s.skipWhile p).Since bytes total outcome (word ++ more) c' := by
  fun_induction CharStream.skipWhile p s generalizing word c with
  | case1 s hp ih =>
    obtain ⟨ch, hc⟩ := Option.isSome_iff_exists.mp (Option.isSome_of_any hp)
    have hch : p ch := by rwa [hc] at hp
    obtain ⟨c', h'⟩ := h.advance hc (NoFault.of_skipWhile hn)
    obtain ⟨more, c'', hmore, h''⟩ := ih h' hn
    rw [List.append_assoc] at h''
    refine ⟨ch :: more, c'', fun d hd => ?_, h''⟩
    rcases List.mem_cons.mp hd with rfl | hd
    · exact hch
    · exact hmore d hd
  | case2 s hp =>
    refine ⟨[], c, ?_, by rwa [List.append_nil]⟩
    intro d hd
    cases hd

/-- What is marked reads as the word since the mark, without NUL characters. -/
theorem Since.markedText_eq (h : s.Since bytes total outcome word c) :
    s.markedText = String.ofList (word.filter (· ≠ '\x00')) := by
  obtain ⟨m, hm, hsince⟩ := h.since
  have hmarked := h.placed.marked_eq
  rw [hm] at hmarked
  unfold markedText
  rw [hmarked]
  dsimp only
  rw [hsince, Utf8.lossyChars_utf8Encode]

end CharStream

/-- A NUL character starts no name. -/
theorem isNameStart_nul : isNameStart '\x00' = false := by decide

/-- A NUL character is no part of a name. -/
theorem isNamePart_nul : isNamePart '\x00' = false := by decide

namespace Scanner

variable {bytes : ByteArray} {total : Nat} {outcome : Option ReadFailure} {s : CharStream Buffer}

/-- A word that is no keyword is an identifier. -/
theorem isIdentifier_word {c : Cursor} {ch : Char} {l : Lexeme}
    (h : s.Since bytes total outcome [] c) (hc : s.char? = some ch) (hstart : isNameStart ch = true)
    (hn : (word l s).stream.NoFault) (hname : (word l s).lexeme.token = .name) :
    isIdentifier (word l s).lexeme.literal := by
  obtain ⟨_, hfirst⟩ := h.advance hc (CharStream.NoFault.of_skipWhile hn)
  obtain ⟨more, _, hmore, hword⟩ := hfirst.skipWhile hn
  -- Name characters contain no NUL, so the text is the characters as they were heard.
  have htext : (word l s).lexeme.literal = String.ofList (ch :: more) := by
    refine hword.markedText_eq.trans (congrArg String.ofList (List.filter_eq_self.mpr ?_))
    intro d hd
    rw [decide_eq_true_eq]
    rintro rfl
    rcases List.mem_cons.mp hd with rfl | hd
    · rw [isNameStart_nul] at hstart
      cases hstart
    · have := hmore _ hd
      rw [isNamePart_nul] at this
      cases this
  have hkeyword : Keyword.ofSpelling? (word l s).lexeme.literal = none := by
    change (Keyword.ofSpelling? _).elim Token.name Token.keyword = _ at hname
    cases hk : Keyword.ofSpelling? (word l s).lexeme.literal with
    | none => rfl
    | some k =>
      change Keyword.ofSpelling? (s.advance.skipWhile isNamePart).markedText = some k at hk
      rw [hk] at hname
      cases hname
  unfold isIdentifier
  rw [hkeyword, htext, String.toList_ofList]
  simp [hstart, List.all_eq_true.mpr hmore]

/-- A name that is found among text without a fault is an identifier. -/
theorem isIdentifier_find {separable : Bool} {l : Lexeme}
    (h : s.CleanIf bytes total outcome True) (hn : (find separable l s).stream.NoFault)
    (hname : (find separable l s).lexeme.token = .name) :
    isIdentifier (find separable l s).lexeme.literal := by
  have hclean := CharStream.finding_clean bytes total outcome True
  have hforward := hclean.toForward s.place
  have hpassed {s s' : CharStream Buffer} (h : s.CleanIf bytes total outcome True)
      (ha : attempt separable l s = .passed s') : s'.CleanIf bytes total outcome True := by
    have hstep := hclean.attempt separable l (s := s) ⟨rfl, h⟩
    rw [ha] at hstep
    cases hstep with
    | passed h => exact h.2
  -- The attempt that finds the token, reached by passing over what is no token.
  obtain ⟨s', h', ha⟩ := exists_attempt_eq_found
    (P := CharStream.CleanIf bytes total outcome True) hpassed h
  generalize find separable l s = found at ha hn hname
  unfold attempt at ha
  dsimp only at ha
  split at ha
  · next ch hc =>
    cases hstart : isNameStart ch with
    | true =>
      rw [attemptAt_of_isNameStart hstart] at ha
      cases ha
      have hblank : (s'.clearMark.skipWhile (isBlank separable)).CleanIf bytes total outcome True :=
        (hforward.skipWhile _ (hforward.clearMark ⟨rfl, h'⟩)).2
      obtain ⟨_, hmark⟩ := hblank trivial (CharStream.NoFault.of_skipWhile hn).of_advance
      exact isIdentifier_word hmark.since_setMark hc hstart hn hname
    -- Any other first character gives a token that is no name.
    | false => exact absurd hname (shaped_attemptAt hstart ha).token_ne_name
  · cases ha
    split at hname <;> cases hname

end Scanner

/-- If nothing is wrong with what a reader hands out, its names are identifiers. -/
theorem Reader.isIdentifier_of_mem_scans {r : Reader}
    (h : ∀ scan ∈ r.scans, ∀ e, .error e ∉ scan.reports) {scan : Scan} (hscan : scan ∈ r.scans)
    (hname : scan.lexeme.token = .name) : isIdentifier scan.lexeme.literal := by
  obtain ⟨bytes, outcome, hr⟩ := r.exists_hands
  obtain ⟨n, hn⟩ := List.getElem?_of_mem hscan
  obtain ⟨hclean, hfault⟩ := Scanner.cleanIf_after (Scanner.cleanIf_ofWindow hr) hn h
  rw [Scanner.lexeme_of_scanUpTo hn] at hname ⊢
  exact Scanner.isIdentifier_find hclean hfault hname

end FrontEnd
