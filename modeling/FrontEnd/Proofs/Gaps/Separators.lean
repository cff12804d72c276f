import FrontEnd.Proofs.Gaps.Calls

/-!
# Where separators stand

A separator that is not written stands exactly where the token before may end a statement and the gap
behind it holds a newline, or is the last thing before the end (`Scanner.separators_next`). The gap is
what `passages` finds at the front of the characters that remain (`CharStream.Remains`): blanks,
comments, and characters that no token starts with.
-/

namespace FrontEnd

/-- The tokens that may end a statement. -/
def Token.statementEnds : List Token :=
  [.name, .literal, .keyword .breakWord, .keyword .returnWord, .rparen, .rbrack, .rbrace, .incOp]

/-- A statement may end with the tokens that are listed. -/
theorem Token.endsStatement_iff {token : Token} : token.endsStatement ↔ token ∈ statementEnds := by
  cases token with
  | keyword k => cases k <;> decide
  | _ => decide

/-- The lexeme is a separator for the given reason. -/
def Lexeme.Separates (l : Lexeme) (reason : String) : Prop := l.token = .semi ∧ l.literal = reason

instance (l : Lexeme) (reason : String) : Decidable (l.Separates reason) :=
  inferInstanceAs (Decidable (_ ∧ _))

/-- A separator is there for one reason only. -/
theorem Lexeme.Separates.reason_eq {l : Lexeme} {a b : String} (h : l.Separates a)
    (h' : l.Separates b) : a = b := h.2.symm.trans h'.2

/-- The lexeme is a separator that is not written. -/
def Lexeme.IsInserted (l : Lexeme) : Prop := l.Separates newlineReason ∨ l.Separates endReason

/-- The characters of the gap at the front of some characters. -/
def gapOf (cs : List Char) : List Char := (passages cs).1.flatMap Passage.chars

/-- The characters behind the gap at their front. -/
def afterGap (cs : List Char) : List Char := (passages cs).2

namespace CharStream

variable {r : Reader} {bytes : ByteArray} {exact : Prop} {mark? : Option Nat} {s t : CharStream Buffer}
  {fs : List Fetched} {cs : List Char} {ps : List Crossing} {told : List Remark} {separable : Bool}
  {l : Lexeme} {x : Scanner Buffer}

/-- The characters that remain, the current one included, are `cs`. -/
def Remains (r : Reader) (bytes : ByteArray) (s : CharStream Buffer) (cs : List Char) : Prop :=
  s.char? = cs.head? ∧
    ∃ fs, Decodes r bytes (s.offset r.bytesLeft) fs bytes.size ∧ heard fs = cs

/-- If all NUL bytes are noticed, the characters that remain are those that can be decoded. -/
theorem Remains.eq_heard (h : s.Remains r bytes cs) (hn : r.NoticesNuls bytes) :
    cs = heard (itemsFrom bytes (s.offset r.bytesLeft)) := by
  obtain ⟨-, fs, hdecodes, hheard⟩ := h
  rw [← hheard, hdecodes.eq_itemsFrom hn]

/-- What stands before is heard before. -/
theorem Stretch.remains (h : Stretch r bytes exact s t fs told) (ht : t.Remains r bytes cs) :
    s.Remains r bytes (heard fs ++ cs) := by
  obtain ⟨hchar, gs, hdecodes, hheard⟩ := ht
  refine ⟨?_, fs ++ gs, h.account.decodes.append hdecodes, by rw [heard_append, hheard]⟩
  rw [h.char?_eq, hchar, List.head?_append]

/-- What remains before something is passed is that and what remains behind it. -/
theorem Passing.remains (h : Passing r bytes exact s t ps told) (ht : t.Remains r bytes cs) :
    s.Remains r bytes (Crossing.charsOf ps ++ cs) := by
  obtain ⟨fs, hstretch, hheard⟩ := h.stretch
  rw [← hheard]
  exact hstretch.remains ht

/-- Some characters remain. -/
theorem Sited.exists_remains (h : s.Sited r bytes exact mark?) : ∃ cs, s.Remains r bytes cs := by
  induction hn : s.remaining using Nat.strongRecOn generalizing s with
  | ind n ih =>
    subst hn
    cases hc : s.char? with
    | none =>
      refine ⟨[], hc, [], ?_, rfl⟩
      rw [h.offset_of_end hc]
      exact .nil (Nat.le_refl _)
    | some c =>
      obtain ⟨fs, told, hsited, hrun, -⟩ := h.advance
      obtain ⟨cs, hcs⟩ := ih _ (s.remaining_advance_lt (by rw [hc]; rfl)) hsited rfl
      exact ⟨_, hrun.toStretch.remains hcs⟩

/-- Where passages have been passed over, they belong to the gap. -/
theorem Passing.gap_append (h : Passing r bytes exact s t ps told) (ht : t.Remains r bytes cs) :
    gapOf (Crossing.charsOf ps ++ cs) = Crossing.charsOf ps ++ gapOf cs ∧
      afterGap (Crossing.charsOf ps ++ cs) = afterGap cs := by
  have hgap := h.gap
  rw [ht.1] at hgap
  unfold gapOf afterGap
  rw [show Crossing.charsOf ps = (ps.map Crossing.passage).flatMap Passage.chars from rfl,
    hgap.passages_append]
  exact ⟨List.flatMap_append, rfl⟩

/-- What is found before some characters: the end, a newline that separates, or a token. -/
inductive Meets (separable : Bool) (cs : List Char) (l : Lexeme) : Prop
  | ended : cs = [] → (if separable then l.Separates Lexeme.endReason else l.token = .eof) →
      Meets separable cs l
  | newline : separable → '\n' ∈ gapOf cs → l.Separates Lexeme.newlineReason → Meets separable cs l
  | token {c rest} : cs = c :: rest → startsToken c → gapOf cs = [] → afterGap cs = cs →
      l.token ≠ .eof → (l.token = .semi → c = ';') → (c = ';' → l.Separates Lexeme.semicolonReason) →
      Meets separable cs l

/-- At the end there is no gap. -/
theorem gapOf_nil : gapOf [] = [] := by
  unfold gapOf
  rw [passages]
  rfl

/-- At the end there is nothing behind a gap. -/
theorem afterGap_nil : afterGap [] = [] := by
  unfold afterGap
  rw [passages]

namespace Meets

/-- A newline separates where a statement may end and the gap holds one. -/
theorem separates_newline_iff (h : Meets separable cs l) :
    l.Separates Lexeme.newlineReason ↔ separable ∧ '\n' ∈ gapOf cs := by
  cases h with
  | ended hcs hl =>
    subst hcs
    rw [gapOf_nil]
    refine ⟨fun hn => ?_, fun ⟨_, hm⟩ => by cases hm⟩
    split at hl
    · exact absurd (hn.reason_eq hl) (by decide)
    · exact Token.noConfusion (hl.symm.trans hn.1)
  | newline hsep hmem hl => exact ⟨fun _ => ⟨hsep, hmem⟩, fun _ => hl⟩
  | token hcs _ hgap _ _ hsemi hreason =>
    rw [hgap]
    refine ⟨fun hn => ?_, fun ⟨_, hm⟩ => by cases hm⟩
    exact absurd (hn.reason_eq (hreason (hsemi hn.1))) (by decide)

/-- The end separates where a statement may end and the gap without a newline is last. -/
theorem separates_end_iff (h : Meets separable cs l) :
    l.Separates Lexeme.endReason ↔ separable ∧ '\n' ∉ gapOf cs ∧ afterGap cs = [] := by
  cases h with
  | ended hcs hl =>
    subst hcs
    rw [gapOf_nil, afterGap_nil]
    cases separable with
    | true => exact ⟨fun _ => ⟨rfl, List.not_mem_nil, rfl⟩, fun _ => hl⟩
    | false =>
      refine ⟨fun hn => ?_, fun ⟨he, _⟩ => by cases he⟩
      exact Token.noConfusion (hl.symm.trans hn.1)
  | newline _ hmem hl =>
    refine ⟨fun hn => absurd (hl.reason_eq hn) (by decide), fun ⟨_, hnot, _⟩ => absurd hmem hnot⟩
  | token hcs _ _ hafter _ hsemi hreason =>
    rw [hafter, hcs]
    refine ⟨fun hn => ?_, fun ⟨_, _, he⟩ => by cases he⟩
    exact absurd (hn.reason_eq (hreason (hsemi hn.1))) (by decide)

/-- A semicolon separates where no newline does before it. -/
theorem separates_semicolon_iff (h : Meets separable cs l) :
    l.Separates Lexeme.semicolonReason ↔
      ¬(separable ∧ '\n' ∈ gapOf cs) ∧ (afterGap cs).head? = some ';' := by
  cases h with
  | ended hcs hl =>
    subst hcs
    rw [afterGap_nil]
    refine ⟨fun hn => ?_, fun ⟨_, hm⟩ => by cases hm⟩
    split at hl
    · exact absurd (hn.reason_eq hl) (by decide)
    · exact Token.noConfusion (hl.symm.trans hn.1)
  | newline hsep hmem hl =>
    exact ⟨fun hn => absurd (hl.reason_eq hn) (by decide), fun ⟨hnot, _⟩ => absurd ⟨hsep, hmem⟩ hnot⟩
  | token hcs _ hgap hafter _ hsemi hreason =>
    rw [hafter, hgap, hcs]
    refine ⟨fun hn => ⟨fun ⟨_, hm⟩ => (by cases hm), ?_⟩, fun ⟨_, hc⟩ => hreason (Option.some.inj hc)⟩
    rw [hsemi hn.1]
    rfl

/-- A separator has one of three reasons. -/
theorem literal_mem (h : Meets separable cs l) (hl : l.token = .semi) :
    l.literal ∈ [Lexeme.newlineReason, Lexeme.endReason, Lexeme.semicolonReason] := by
  cases h with
  | ended _ hreason =>
    split at hreason
    · rw [hreason.2]
      decide
    · exact Token.noConfusion (hreason.symm.trans hl)
  | newline _ _ hreason =>
    rw [hreason.2]
    decide
  | token _ _ _ _ _ hsemi hreason =>
    rw [(hreason (hsemi hl)).2]
    decide

/-- Where no newline separates, what is found is right there. -/
theorem afterGap_eq (h : Meets separable cs l) (hnot : ¬(separable ∧ '\n' ∈ gapOf cs)) :
    afterGap cs = cs ∧ ∀ c, cs.head? = some c → startsToken c := by
  cases h with
  | ended hcs =>
    subst hcs
    exact ⟨afterGap_nil, fun _ hc => by cases hc⟩
  | newline hsep hmem => exact absurd ⟨hsep, hmem⟩ hnot
  | token hcs hstarts _ hafter =>
    refine ⟨hafter, fun c hc => ?_⟩
    rw [hcs] at hc
    rwa [← Option.some.inj hc]

end Meets

/-- What a scanner finds is what stands before the characters that remain. -/
theorem Finds.meets (h : Finds r bytes exact separable l s x)
    (hs : s.Sited r bytes exact (some (s.offset r.bytesLeft))) :
    ∃ cs, s.Remains r bytes cs ∧ Meets separable cs x.lexeme := by
  -- By the way the search ended: each says what the characters that remain begin with.
  cases h with
  | ended hc =>
    have hend : s.Remains r bytes [] := by
      refine ⟨hc, [], ?_, rfl⟩
      rw [hs.offset_of_end hc]
      exact .nil (Nat.le_refl _)
    refine ⟨_, hend, .ended rfl ?_⟩
    cases separable
    · exact rfl
    · exact ⟨rfl, rfl⟩
  | newline hsep hc =>
    obtain ⟨fs, told, hsited, hrun, hheard⟩ := hs.advance
    obtain ⟨cs, hcs⟩ := hsited.exists_remains
    have hremains := hrun.toStretch.remains hcs
    rw [hheard, hc] at hremains
    have hfits : (Passage.blank '\n').Fits cs.head? := show Scanner.isBlank false '\n' by decide
    refine ⟨_, hremains, .newline hsep ?_ ⟨rfl, rfl⟩⟩
    unfold gapOf
    rw [show (some '\n').toList ++ cs = (Passage.blank '\n').chars ++ cs from rfl, hfits.passages_append]
    exact List.mem_cons_self
  | comment hsep hsited _ hpassing hline =>
    obtain ⟨cs, hcs⟩ := hsited.exists_remains
    refine ⟨_, hpassing.remains hcs, .newline hsep ?_ ⟨rfl, rfl⟩⟩
    rw [(hpassing.gap_append hcs).1]
    exact List.mem_append_left _ hline
  | @token x c hc hstarts hslash hx =>
    obtain ⟨fs, told, hsited, hrun, hheard⟩ := hs.advance
    obtain ⟨cs, hcs⟩ := hsited.exists_remains
    have hremains := hrun.toStretch.remains hcs
    rw [hheard, hc] at hremains
    have hnone : passages (c :: cs) = ([], c :: cs) :=
      passages_token (isBlank_of_startsToken hstarts) hstarts (by rwa [hcs.1] at hslash)
    have hgap : gapOf (c :: cs) = [] := by
      unfold gapOf
      rw [hnone]
      rfl
    have hafter : afterGap (c :: cs) = c :: cs := by
      unfold afterGap
      rw [hnone]
    have hne : c ≠ '\n' := by
      rintro rfl
      cases hstarts
    refine ⟨_, hremains, .token rfl hstarts hgap hafter ?_ (fun hsemi => ?_) fun hsemi => ?_⟩
    · exact (Scanner.found_attemptAt hx).token_ne_eof
    · -- Only a semicolon is a separator that starts like a token.
      apply Decidable.byContradiction
      intro hother
      by_cases hc' : c = '/'
      · subst hc'
        obtain ⟨hslash, hstar⟩ := hslash rfl
        rw [show Scanner.attemptAt separable l '/' s = Scanner.slash separable l s from rfl,
          Scanner.slash_eq_found hslash hstar] at hx
        cases hx
        exact Scanner.ne_semi_assignable _ _ _ hsemi
      · exact Scanner.token_attemptAt_ne_semi hx hne hother hc' hsemi
    · subst hsemi
      cases hx
      exact ⟨rfl, rfl⟩

end CharStream

namespace Scanner

/-- What is found behind a gap is what is found before all of its characters. -/
theorem exists_meets {r : Reader} {bytes : ByteArray} {exact : Prop} {mark? : Option Nat}
    {s : Scanner Buffer} (h : s.stream.Sited r bytes exact mark?) : ∃ ps cs,
    s.stream.Remains r bytes (Crossing.charsOf ps ++ cs) ∧ s.start.Remains r bytes cs ∧
      gapOf (Crossing.charsOf ps ++ cs) = Crossing.charsOf ps ++ gapOf cs ∧
      afterGap (Crossing.charsOf ps ++ cs) = afterGap cs ∧
      (s.lexeme.endsStatement → '\n' ∉ Crossing.charsOf ps) ∧
      CharStream.Meets s.lexeme.endsStatement cs s.next.lexeme := by
  obtain ⟨ps, told, happroach, hfinds⟩ := call h
  obtain ⟨cs, hcs, hmeets⟩ := hfinds.meets happroach.sited
  obtain ⟨hgap, hafter⟩ := happroach.passing.gap_append hcs
  exact ⟨ps, cs, happroach.passing.remains hcs, hcs, hgap, hafter, happroach.line, hmeets⟩

/-- Wherever a scanner is, the next token is a separator as what the token before allows and the
characters that remain say. A newline separates if a statement may end before the gap that holds it, and
the end of the input if there is none. A semicolon separates where there is no such newline before it.
In every other case the next token starts behind the gap, with a character that starts one. -/
theorem separators_next {r : Reader} {bytes : ByteArray} (hr : r.Hands bytes none) (n : Nat) :
    let s := (ofWindow (Buffer.ofReader r)).after n
    let ends := s.lexeme.token ∈ Token.statementEnds
    (∀ m scan, n = m + 1 → r.scans[m]? = some scan → scan.lexeme = s.lexeme) ∧
    (∀ scan, r.scans[n]? = some scan → scan.lexeme = s.next.lexeme) ∧
    ∃ cs, s.stream.Remains r bytes cs ∧
      (r.NoticesNuls bytes → cs = heard (itemsFrom bytes (s.stream.offset r.bytesLeft))) ∧
      (s.next.lexeme.Separates Lexeme.newlineReason ↔ ends ∧ '\n' ∈ gapOf cs) ∧
      (s.next.lexeme.Separates Lexeme.endReason ↔ ends ∧ '\n' ∉ gapOf cs ∧ afterGap cs = []) ∧
      (s.next.lexeme.Separates Lexeme.semicolonReason ↔
        ¬(ends ∧ '\n' ∈ gapOf cs) ∧ (afterGap cs).head? = some ';') ∧
      (s.next.lexeme.token = .semi → s.next.lexeme.literal ∈
        [Lexeme.newlineReason, Lexeme.endReason, Lexeme.semicolonReason]) ∧
      (¬(ends ∧ '\n' ∈ gapOf cs) → s.start.Remains r bytes (afterGap cs) ∧
        ∀ c, (afterGap cs).head? = some c → startsToken c) ∧
      ¬(s.lexeme.IsInserted ∧ s.next.lexeme.IsInserted) := by
  intro s ends
  obtain ⟨fs, told, hstart, -⟩ := opening hr
  obtain ⟨mark?, hsited⟩ := sited_after hstart n
  obtain ⟨ps, cs, hremains, hbehind, hgap, hafter, hline, hmeets⟩ := exists_meets hsited
  have hflag : s.lexeme.endsStatement = s.lexeme.token.endsStatement := endsStatement_after rfl n
  have hends : ends ↔ s.lexeme.endsStatement := hflag ▸ Token.endsStatement_iff.symm
  refine ⟨?_, fun scan => lexeme_of_scanUpTo, _, hremains, hremains.eq_heard, ?_⟩
  · rintro m scan rfl hscan
    rw [lexeme_of_scanUpTo hscan, show s = (after m _).next.dropReports from after_succ _ m]
    rfl
  -- What was passed over on the way to the token holds no newline where one would end a statement.
  have hgaps : ends ∧ '\n' ∈ gapOf (Crossing.charsOf ps ++ cs) ↔
      s.lexeme.endsStatement ∧ '\n' ∈ gapOf cs := by
    rw [hgap, hends, List.mem_append]
    exact and_congr_right fun he => or_iff_right (hline he)
  have hnone : ends ∧ '\n' ∉ gapOf (Crossing.charsOf ps ++ cs) ∧
        afterGap (Crossing.charsOf ps ++ cs) = [] ↔
      s.lexeme.endsStatement ∧ '\n' ∉ gapOf cs ∧ afterGap cs = [] := by
    rw [hgap, hafter, hends, List.mem_append]
    exact and_congr_right fun he => and_congr_left' (not_congr (or_iff_right (hline he)))
  rw [hgaps, hnone, hafter]
  refine ⟨hmeets.separates_newline_iff, hmeets.separates_end_iff, hmeets.separates_semicolon_iff,
    hmeets.literal_mem, fun hnot => ?_, ?_⟩
  · obtain ⟨hsame, hstarts⟩ := hmeets.afterGap_eq hnot
    rw [hsame]
    exact ⟨hbehind, hstarts⟩
  · -- A separator does not end a statement.
    rintro ⟨hfirst, hsecond⟩
    have hsemi : s.lexeme.token = .semi := hfirst.elim And.left And.left
    have hseparable : s.lexeme.endsStatement :=
      hsecond.elim (fun hn => (hmeets.separates_newline_iff.mp hn).1)
        fun hn => (hmeets.separates_end_iff.mp hn).1
    rw [hflag, hsemi] at hseparable
    cases hseparable

/-- A comment that does not end takes in the newline behind a name. -/
theorem separators_next_comment :
    let bytes := "x/*\n".toUTF8
    let r := Reader.ofBytes bytes
    let s := (ofWindow (Buffer.ofReader r)).after 1
    r.Hands bytes none ∧ s.lexeme.token = .name ∧ s.next.lexeme.Separates Lexeme.newlineReason ∧
      ∃ cs, s.stream.Remains r bytes cs ∧ '\n' ∈ gapOf cs := by
  intro bytes r s
  have hr : r.Hands bytes none := (Reader.delivers_ofBytes bytes).hands
  obtain ⟨-, -, cs, hremains, -, hnewline, -⟩ := separators_next hr 1
  have hfound : s.next.lexeme.Separates Lexeme.newlineReason := by decide +kernel
  exact ⟨hr, by decide +kernel, hfound, cs, hremains, (hnewline.mp hfound).2⟩

end Scanner

end FrontEnd
