import FrontEnd.Proofs.Reworded.Alike

/-!
# Attempts up to the start of a comment

What a scanner does to a stream that is not past the marker of a comment, it does alike on a source that
goes on in another way behind the marker, as long as it does not get past the marker itself
(`Upto`). Most tokens have no slash in them, so that nothing can go wrong with them. What is
quoted and other comments may, and then there are fewer bytes left than there are from the marker on.
-/

namespace FrontEnd

/-- Both come to the same, unless the first gets so far that fewer than `k` characters remain. -/
def Upto {ω ω' α : Type} [ByteWindow ω] (k : Nat) (R : CharStream ω → CharStream ω' → Prop)
    (x : α × CharStream ω) (y : α × CharStream ω') : Prop :=
  k ≤ x.2.remaining → InStep R x y

/-- The same for attempts. -/
def Attempt.Upto {ω ω' : Type} [ByteWindow ω] (k : Nat) (R : CharStream ω → CharStream ω' → Prop)
    (x : Attempt ω) (y : Attempt ω') : Prop :=
  k ≤ x.stream.remaining → x.InStep R y

namespace CharStream.Alike

variable {front rest rest' : ByteArray} {x : Char} {s t : CharStream Cursor}
  (hx : x ∈ markerSeconds) (h : Alike front x rest rest' s t) {start : Place}

include h in
/-- What is wrong with a token is told on both sources, or on neither. -/
theorem complainOnce (start : Place) (fine : Bool) (fault : LexFault) :
    Alike front x rest rest' (s.complainOnce start fine fault) (t.complainOnce start fine fault) :=
  Onward.ite (fun _ => h.report _) fun _ => h

include hx h

/-- Characters are skipped alike, if the marker is not reached. -/
theorem skipWhile (p : Char → Bool) (hk : fromMarker front x rest ≤ (s.skipWhile p).remaining) :
    Alike front x rest rest' (s.skipWhile p) (t.skipWhile p) := by
  fun_induction CharStream.skipWhile p s generalizing t with
  | case1 s hp ih =>
    have hle := Nat.le_trans hk (s.advance.remaining_skipWhile_le p)
    rw [CharStream.skipWhile.eq_def p t, if_pos (by rwa [← h.char?_eq])]
    exact ih (h.advance hx hle) hk
  | case2 s hp =>
    rw [CharStream.skipWhile.eq_def p t, if_neg (by rwa [← h.char?_eq])]
    exact h

/-! ## What is quoted -/

/-- The rest of a string is passed alike, unless it takes in the marker. -/
theorem stringRest (fine : Bool) : Upto (fromMarker front x rest) (Alike front x rest rest')
    (s.stringRest start fine) (t.stringRest start fine) := by
  induction hn : s.remaining using Nat.strongRecOn generalizing s t fine with
  | ind n ih =>
    subst hn
    rw [CharStream.stringRest_eq start fine s, CharStream.stringRest_eq start fine t, ← h.char?_eq]
    cases hc : s.char? with
    | none => exact fun _ => ⟨rfl, h.report _⟩
    | some c =>
      have hsome : s.char?.isSome := Option.isSome_of_eq_some hc
      dsimp only
      refine Onward.ite (fun _ hk => ⟨rfl, h.advance hx hk⟩) fun _ =>
        Onward.ite (fun hback => ?_) fun _ => Onward.ite (fun _ _ => ⟨rfl, h.report _⟩) fun _ hk => ?_
      · -- There is no slash in an escape.
        have ha := h.pass hx hc (by rw [hback]; decide)
        obtain ⟨hfine, hescape⟩ := (along_alike front rest rest' hx start).escape '"' (by decide) ha
        rw [← hfine]
        exact ih _ (s.remaining_escape_advance_lt _ hsome) hescape _ rfl
      · -- Any other character may be a slash: as many bytes remain at the end of the string, so behind it too.
        have hle : (s.advance.stringRest start fine).2.remaining ≤ s.advance.remaining :=
          ((forward_remaining_le start _).stringRest fine ⟨rfl, Nat.le_refl _⟩).2.2
        exact ih _ (s.remaining_advance_lt hsome) (h.advance hx (Nat.le_trans hk hle)) _ rfl hk

/-- The rest of a raw string is passed alike, unless it takes in the marker. -/
theorem rawStringRest : Upto (fromMarker front x rest) (Alike front x rest rest')
    (s.rawStringRest start) (t.rawStringRest start) := by
  intro hk
  have hle : (s.rawStringRest start).2.remaining ≤ (s.skipWhile (· ≠ '\x60')).remaining := by
    unfold CharStream.rawStringRest
    dsimp only
    split
    · exact remaining_advance_le _
    · exact Nat.le_refl _
  have hskip := h.skipWhile hx (· ≠ '\x60') (Nat.le_trans hk hle)
  revert hk
  unfold CharStream.rawStringRest
  dsimp only
  rw [← hskip.char?_eq]
  exact Onward.ite (Q := Upto (fromMarker front x rest) (Alike front x rest rest'))
    (fun _ hk => ⟨rfl, hskip.advance hx hk⟩) fun _ _ => ⟨rfl, hskip.report _⟩

/-- The rest of a rune is passed alike, unless it takes in the marker. -/
theorem runeRest (fine : Bool) (n : Nat) : Upto (fromMarker front x rest) (Alike front x rest rest')
    (s.runeRest start fine n) (t.runeRest start fine n) := by
  -- By what is left; the claim is only made while more than the marker is ahead, and no call takes from ahead
  -- of it.
  induction hn : s.remaining using Nat.strongRecOn generalizing s t fine n with
  | ind m ih =>
    subst hn
    rw [CharStream.runeRest_eq start fine n s, CharStream.runeRest_eq start fine n t, ← h.char?_eq]
    cases hc : s.char? with
    | none => exact fun _ => ⟨rfl, h.complainOnce ..⟩
    | some c =>
      have hsome : s.char?.isSome := Option.isSome_of_eq_some hc
      dsimp only
      refine Onward.ite (fun hquote => ?_) fun _ => Onward.ite (fun hback => ?_) fun _ =>
        Onward.ite (fun _ _ => ⟨rfl, h.complainOnce ..⟩) fun _ hk => ?_
      · have hpast (fault : LexFault) : Alike front x rest rest'
            (s.complainOnce start fine fault).advance (t.complainOnce start fine fault).advance :=
          (h.complainOnce start fine fault).pass hx ((char?_complainOnce ..).trans hc)
            (by rw [hquote]; decide)
        exact Onward.ite (fun _ hk => ⟨rfl, h.advance hx hk⟩) fun _ =>
          Onward.ite (fun _ _ => ⟨rfl, hpast _⟩) fun _ _ => ⟨rfl, hpast _⟩
      · have ha := h.pass hx hc (by rw [hback]; decide)
        obtain ⟨hfine, hescape⟩ := (along_alike front rest rest' hx start).escape '\'' (by decide) ha
        rw [← hfine]
        exact ih _ (s.remaining_escape_advance_lt _ hsome) hescape _ _ rfl
      · -- What is left after the whole rest bounds what is left after one step.
        have hle : (s.advance.runeRest start fine (n + 1)).2.remaining ≤ s.advance.remaining :=
          ((forward_remaining_le start _).runeRest fine (n + 1) ⟨rfl, Nat.le_refl _⟩).2.2
        exact ih _ (s.remaining_advance_lt hsome) (h.advance hx (Nat.le_trans hk hle)) _ _ rfl hk

/-! ## Comments -/

/-- The same directive is reported, since what is marked is the same. -/
theorem reportDirective (start : Place) :
    Alike front x rest rest' (s.reportDirective start) (t.reportDirective start) := by
  unfold CharStream.reportDirective
  rw [h.marked_eq hx]
  exact h.report _

/-- A line comment is passed alike, if it ends before the marker. -/
theorem lineComment (hk : fromMarker front x rest ≤ (s.lineComment start).remaining) :
    Alike front x rest rest' (s.lineComment start) (t.lineComment start) := by
  obtain ⟨hsame, hword⟩ :=
    (along_alike front rest rest' hx start).accept directiveWord (by decide) h
  revert hk
  unfold CharStream.lineComment
  dsimp only
  rw [← hsame]
  split
  · exact fun hk => (hword.skipWhile hx _ hk).reportDirective hx start
  · exact fun hk => hword.clearMark.skipWhile hx _ hk

/-- The rest of a block comment is passed alike, unless it takes in the marker. -/
theorem blockCommentRest : Upto (fromMarker front x rest) (Alike front x rest rest')
    s.blockCommentRest t.blockCommentRest := by
  induction hn : s.remaining using Nat.strongRecOn generalizing s t with
  | ind n ih =>
    subst hn
    have hlt := s.remaining_advance_lt h.found
    rw [s.blockCommentRest_eq, t.blockCommentRest_eq, ← h.char?_eq]
    cases hc : s.char? with
    | none => exact fun _ => ⟨rfl, h⟩
    | some c =>
      dsimp only
      refine Onward.ite (fun hstar => ?_) fun _ hk => ?_
      · have ha := h.pass hx hc (by rw [hstar]; decide)
        have hlt' := s.advance.remaining_advance_lt ha.found
        rw [← ha.char?_eq]
        refine Onward.ite (fun _ hk => ⟨rfl, ha.advance hx hk⟩) fun _ =>
          Onward.ite (fun _ => ih _ hlt ha rfl) fun _ hk => ?_
        -- The rest of the comment takes nothing back, which keeps the bound for the steps inside.
        have hle := s.advance.advance.remaining_blockCommentRest_le
        exact ih _ (Nat.lt_trans hlt' hlt) (ha.advance hx (Nat.le_trans hk hle)) rfl hk
      · have hle := s.advance.remaining_blockCommentRest_le
        exact ih _ hlt (h.advance hx (Nat.le_trans hk hle)) rfl hk

/-- A block comment is passed alike, if it ends before the marker. -/
theorem blockComment (hk : fromMarker front x rest ≤ (s.blockComment start).remaining) :
    Alike front x rest rest' (s.blockComment start) (t.blockComment start) := by
  obtain ⟨hsame, hword⟩ :=
    (along_alike front rest rest' hx start).accept directiveWord (by decide) h
  revert hk
  unfold CharStream.blockComment
  dsimp only
  rw [← hsame]
  -- Whether the word is accepted is the same in both texts, so both branches start alike.
  generalize (CharStream.accept directiveWord s).1 = isDirective
  have hopen : Alike front x rest rest'
      (if isDirective then (CharStream.accept directiveWord s).2
        else (CharStream.accept directiveWord s).2.clearMark)
      (if isDirective then (CharStream.accept directiveWord t).2
        else (CharStream.accept directiveWord t).2.clearMark) :=
    Onward.ite (fun _ => hword) fun _ => hword.clearMark
  generalize (if isDirective then (CharStream.accept directiveWord s).2
    else (CharStream.accept directiveWord s).2.clearMark) = s' at hopen ⊢
  generalize (if isDirective then (CharStream.accept directiveWord t).2
    else (CharStream.accept directiveWord t).2.clearMark) = t' at hopen ⊢
  have hrest := hopen.blockCommentRest hx
  intro hk
  obtain ⟨hclosed, hbehind⟩ := hrest (by split at hk <;> (try split at hk) <;> exact hk)
  rw [← hclosed]
  exact Onward.ite (fun _ => hbehind.report _) fun _ =>
    Onward.ite (fun _ => hbehind.reportDirective hx start) fun _ => hbehind

end CharStream.Alike

namespace Scanner

open CharStream

variable {front rest rest' : ByteArray} {x : Char} {s t : CharStream Cursor}
  (hx : x ∈ markerSeconds) (h : Alike front x rest rest' s t)

/-- A slash takes a character at least. -/
theorem remaining_slash_le {ω : Type} [ByteWindow ω] (separable : Bool) (l : Lexeme) (s : CharStream ω) :
    (slash separable l s).stream.remaining ≤ s.advance.remaining := by
  have hnext := s.advance.remaining_advance_le
  unfold slash
  dsimp only
  split
  · exact Nat.le_trans (remaining_lineComment_le ..) hnext
  · split
    · have hle := Nat.le_trans (remaining_blockComment_le l.place s.advance.advance) hnext
      split <;> exact hle
    · exact remaining_assignable_le l .div s.advance

include hx h

/-- What starts with a slash comes to the same, unless it takes in the marker. -/
theorem upto_slash (separable : Bool) (l : Lexeme) :
    Attempt.Upto (fromMarker front x rest) (Alike front x rest rest') (slash separable l s)
      (slash separable l t) := by
  intro hk
  have ha := h.advance hx (Nat.le_trans hk (remaining_slash_le separable l s))
  revert hk
  unfold slash
  dsimp only
  rw [← ha.char?_eq]
  refine Onward.ite (Q := Attempt.Upto (fromMarker front x rest) (Alike front x rest rest')) (fun _ hk => ?_)
    fun _ => Onward.ite (Q := Attempt.Upto (fromMarker front x rest) (Alike front x rest rest'))
      (fun _ hk => ?_) fun _ _ => ?_
  · have haa := ha.advance hx (Nat.le_trans hk (remaining_lineComment_le ..))
    exact .passed (haa.lineComment hx hk)
  · -- Whether the comment counts as a newline or not, as many bytes remain behind it.
    have hle : fromMarker front x rest ≤ (s.advance.advance.blockComment l.place).remaining := by
      split at hk <;> exact hk
    have haa := ha.advance hx (Nat.le_trans hle (remaining_blockComment_le ..))
    have hb := haa.blockComment hx hle
    rw [← hb.place_eq]
    exact Onward.ite (fun _ => .found ⟨rfl, hb⟩) fun _ => .passed hb
  · exact .found ((along_alike front rest rest' hx l.place).assignable l .div ha)

/-- What starts with a dot comes to the same: where the scanner goes back, it has not got to the marker. -/
theorem upto_dot (l : Lexeme) (hc : s.char? = some '.')
    (hk : fromMarker front x rest ≤ (dot l s).stream.remaining) :
    (dot l s).InStep (Alike front x rest rest') (dot l t) := by
  have halong := along_alike front rest rest' hx l.place
  have ha := h.pass hx hc (by decide)
  revert hk
  unfold dot
  dsimp only
  rw [← ha.char?_eq]
  split
  · exact fun _ => halong.foundNumber l (halong.fraction ha)
  · split
    · next hdot =>
      have haa := ha.pass hx hdot (by decide)
      rw [← haa.char?_eq]
      split
      · next hthird => exact fun _ => ⟨rfl, haa.pass hx hthird (by decide)⟩
      · -- Of two dots, the stream is behind the first again.
        intro hk
        have hback := haa.rewind hx (Nat.le_trans hk (remaining_advance_le _))
        exact ⟨rfl, hback.advance hx hk⟩
    · exact fun _ => ⟨rfl, ha⟩

/-- An attempt comes to the same, unless it takes in the marker. -/
theorem upto_attemptAt (separable : Bool) (l : Lexeme) {c : Char} (hc : s.char? = some c) :
    Attempt.Upto (fromMarker front x rest) (Alike front x rest rest') (attemptAt separable l c s)
      (attemptAt separable l c t) := by
  have halong := along_alike front rest rest' hx l.place
  apply halong.attemptAt (Q := Attempt.Upto (fromMarker front x rest) (Alike front x rest rest')) separable hc h
  · exact fun hfound _ => .found hfound
  · exact fun hslash _ => .passed ((h.report _).pass hx hc hslash)
  · rintro rfl hk
    exact .found (halong.quoted l .string ((h.pass hx hc (by decide)).stringRest hx true hk))
  · rintro rfl hk
    exact .found (halong.quoted l .string ((h.pass hx hc (by decide)).rawStringRest hx hk))
  · rintro rfl hk
    exact .found (halong.quoted l .rune ((h.pass hx hc (by decide)).runeRest hx true 0 hk))
  · rintro rfl hk
    exact .found (upto_dot hx h l hc hk)
  · rintro rfl
    exact upto_slash hx h separable l
  · rfl

/-- Blanks are skipped alike: a slash is none. -/
theorem alike_toToken (separable : Bool) :
    Alike front x rest rest' (toToken separable s) (toToken separable t) :=
  ((along_alike front rest rest' hx s.place).skipWhile (isBlank separable) (by cases separable <;> rfl)
    h.clearMark).setMark

/-- An attempt that does not get past the marker comes to the same on both sources. -/
theorem upto_attempt (separable : Bool) (l : Lexeme) :
    Attempt.Upto (fromMarker front x rest) (Alike front x rest rest') (attempt separable l s)
      (attempt separable l t) := by
  have ht := alike_toToken hx h separable
  unfold attempt
  dsimp only
  rw [← ht.place_eq, ← ht.char?_eq]
  cases hc : (toToken separable s).char? with
  | some c => exact upto_attemptAt hx ht separable _ hc
  | none => exact fun _ => .found ⟨rfl, ht⟩

end Scanner

end FrontEnd
