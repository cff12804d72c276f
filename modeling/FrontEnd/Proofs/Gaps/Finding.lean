import FrontEnd.Proofs.Gaps.Passing
import FrontEnd.Proofs.Places.Tokens

/-!
# Finding the next token

On the way to the next token a scanner passes over passages, and over no newline if a token that may
end a statement came before. It comes to a character that starts a token and no comment, or to the end;
but after a token that may end a statement it stops at a newline and at a block comment with a newline
in it, which are separators then (`Finds`). All of this is said of one attempt (`Sited.attempt`) and
then of all that are made (`Sited.find`).
-/

namespace FrontEnd

namespace Scanner

variable {ω : Type} {l : Lexeme}

/-- What starts no token is no punctuation. -/
theorem ofPunctuation?_eq_none {c : Char} (h : startsToken c = false) : Token.ofPunctuation? c = none := by
  unfold Token.ofPunctuation?
  split
  all_goals first | rfl | exact absurd h (by decide)

/-- Neither branch of a choice finds a separator. -/
theorem ne_semi_ite {p : Prop} [Decidable p] {x y : Scanner ω} (hx : x.lexeme.token ≠ .semi)
    (hy : y.lexeme.token ≠ .semi) : (if p then x else y).lexeme.token ≠ .semi := by
  split
  · exact hx
  · exact hy

variable [ByteWindow ω] {s : CharStream ω}

/-- A character that starts no token is rejected. -/
theorem attemptAt_of_not_startsToken {c : Char} (hstarts : startsToken c = false) (hline : c ≠ '\n')
    (separable : Bool) (l : Lexeme) (s : CharStream ω) :
    attemptAt separable l c s =
      .passed (s.complainAt l.place (.unexpectedCharacter c)).advance := by
  have hnone := ofPunctuation?_eq_none hstarts
  have hparts := hstarts
  unfold startsToken at hparts
  simp only [Bool.or_eq_false_iff] at hparts
  unfold attemptAt
  rw [if_neg (by simp [hparts.1.1]), if_neg (by simp [hparts.1.2])]
  split
  case h_1 => exact absurd rfl hline
  case h_20 => rw [hnone]
  all_goals exact absurd hstarts (by decide)

/-- A character that starts a token, and no comment, is one. -/
theorem exists_attemptAt_eq_found {c : Char} (hstarts : startsToken c) (hslash : c ≠ '/')
    (separable : Bool) (l : Lexeme) (s : CharStream ω) :
    ∃ x, attemptAt separable l c s = .found x := by
  unfold attemptAt
  split
  · exact ⟨_, rfl⟩
  · next hname =>
    split
    · exact ⟨_, rfl⟩
    · next hdigit =>
      split
      case h_11 => exact absurd rfl hslash
      case h_20 =>
        split
        · exact ⟨_, rfl⟩
        · next hnone =>
          unfold startsToken at hstarts
          simp_all
          -- What is left are the seven marks of one character.
          rcases hstarts with rfl | rfl | rfl | rfl | rfl | rfl | rfl <;> cases hnone
      all_goals exact ⟨_, rfl⟩

/-- Operators are no separators. -/
theorem ne_semi_assignable (l : Lexeme) (op : Operator) (s : CharStream ω) :
    (assignable l op s).lexeme.token ≠ .semi :=
  ne_semi_ite nofun nofun

/-- A slash that starts no comment is a token. -/
theorem slash_eq_found (hslash : s.advance.char? ≠ some '/') (hstar : s.advance.char? ≠ some '*')
    (separable : Bool) (l : Lexeme) :
    slash separable l s = .found (assignable l .div s.advance) := by
  unfold slash
  dsimp only
  rw [if_neg hslash, if_neg hstar]

/-- A separator is found at a newline, at a semicolon, or in place of a comment. -/
theorem token_attemptAt_ne_semi {separable : Bool} {c : Char} {x : Scanner ω}
    (h : attemptAt separable l c s = .found x) (hline : c ≠ '\n') (hsemi : c ≠ ';')
    (hslash : c ≠ '/') : x.lexeme.token ≠ .semi := by
  -- Form by form: the semicolon, the newline and the comment are excluded, and no other branch gives that
  -- token.
  unfold attemptAt at h
  split at h
  · cases h
    exact l.token_withWord_ne _ Token.noConfusion fun _ => Token.noConfusion
  · split at h
    · cases h
      exact nofun
    · split at h
      case h_1 => exact absurd rfl hline
      case h_2 => exact absurd rfl hsemi
      case h_3 | h_4 | h_5 => cases h; exact nofun
      case h_6 => cases h; exact ne_semi_ite nofun nofun
      case h_7 => cases h; exact ne_semi_ite nofun (ne_semi_ite (ne_semi_ite nofun nofun) nofun)
      case h_8 | h_9 => cases h; exact ne_semi_ite nofun (ne_semi_assignable _ _ _)
      case h_10 | h_18 | h_19 => cases h; exact ne_semi_ite nofun nofun
      case h_11 => exact absurd rfl hslash
      case h_12 | h_15 => cases h; exact ne_semi_assignable _ _ _
      case h_13 =>
        cases h
        exact ne_semi_ite nofun (ne_semi_ite (ne_semi_assignable _ _ _) (ne_semi_assignable _ _ _))
      case h_14 => cases h; exact ne_semi_ite nofun (ne_semi_assignable _ _ _)
      case h_16 | h_17 => cases h; exact ne_semi_ite nofun (ne_semi_ite (ne_semi_assignable _ _ _) nofun)
      case h_20 =>
        split at h
        · next hp =>
          cases h
          exact Token.ne_of_isMark (Token.isMark_of_ofPunctuation? hp) rfl
        · cases h

end Scanner

namespace CharStream

variable {r : Reader} {bytes : ByteArray} {exact : Prop} {mark? : Option Nat}
  {s t : CharStream Buffer} {ps : List Crossing} {told : List Remark} {separable : Bool} {l : Lexeme}

/-- The token, separator or end that `x` tells is at `s`. -/
inductive Finds (r : Reader) (bytes : ByteArray) (exact : Prop) (separable : Bool) (l : Lexeme)
    (s : CharStream Buffer) : Scanner Buffer → Prop
  | ended : s.char? = none →
      Finds r bytes exact separable l s ⟨s, if separable then l.withReason Lexeme.endReason else l.atEnd⟩
  | newline : separable → s.char? = some '\n' →
      Finds r bytes exact separable l s ⟨s.advance, l.withReason Lexeme.newlineReason⟩
  | comment {t : CharStream Buffer} {p : Crossing} {told : List Remark} {mark? : Option Nat} :
      separable → t.Sited r bytes exact mark? →
      (mark? = none ∨ mark? = some (s.offset r.bytesLeft)) → Passing r bytes exact s t [p] told →
      '\n' ∈ Crossing.charsOf [p] →
      Finds r bytes exact separable l s ⟨t, l.withReason Lexeme.newlineReason⟩
  | token {x : Scanner Buffer} {c : Char} : s.char? = some c → startsToken c →
      (c = '/' → s.advance.char? ≠ some '/' ∧ s.advance.char? ≠ some '*') →
      Scanner.attemptAt separable l c s = .found x → Finds r bytes exact separable l s x

/-- What an attempt at `s` comes to: something has been found, or passed over. -/
inductive Settles (r : Reader) (bytes : ByteArray) (exact : Prop) (separable : Bool) (l : Lexeme)
    (s : CharStream Buffer) : Attempt Buffer → Prop
  | found {x} : Finds r bytes exact separable l s x → Settles r bytes exact separable l s (.found x)
  | passed {t : CharStream Buffer} {ps : List Crossing} {told : List Remark} {mark? : Option Nat} :
      t.Sited r bytes exact mark? → Passing r bytes exact s t ps told →
      (separable → '\n' ∉ Crossing.charsOf ps) → Settles r bytes exact separable l s (.passed t)

/-- A character that starts no token is rejected and passed over. -/
theorem Sited.stray (h : s.Sited r bytes exact mark?) {c : Char} (hc : s.char? = some c)
    (hstarts : startsToken c = false) (hblank : Scanner.isBlank false c = false) {start : Place}
    (hplace : exact → start = .ofOffset bytes (s.offset r.bytesLeft)) : ∃ p told,
    (s.complainAt start (.unexpectedCharacter c)).advance.Sited r bytes exact mark? ∧
      Passing r bytes exact s (s.complainAt start (.unexpectedCharacter c)).advance [p] told ∧
      Crossing.charsOf [p] = [c] := by
  have hremark := h.refl.toStretch.remark
    (x := .error (s.offset r.bytesLeft) ⟨.unexpectedCharacter c, start⟩) rfl hplace
    ⟨Nat.le_refl _, Nat.le_refl _⟩ fun _ hx => (List.not_mem_nil hx).elim
  obtain ⟨fs, told, hsited, hrun, hheard⟩ := (h.report (.error ⟨.unexpectedCharacter c, start⟩)).advance
  rw [show CharStream.char? (s.report _) = some c from hc] at hheard
  refine ⟨_, _, hsited, Passing.single (p := .stray c) h (hremark.trans hrun.toStretch) hheard
    ⟨hstarts, hblank⟩ ?_ ?_ ?_, rfl⟩
  · rw [List.filterMap_append, hrun.plain.rejected_eq_nil]
    rfl
  · rw [List.filterMap_append, hrun.plain.span_eq_nil]
    rfl
  · rw [List.filterMap_append, hrun.plain.unclosed_eq_nil]
    rfl

/-- A slash starts a comment, which is passed over or counts as a newline, or a token. -/
theorem Sited.slash (h : s.Sited r bytes exact (some (s.offset r.bytesLeft))) (hc : s.char? = some '/')
    (separable : Bool) (hl : l.place = s.place) :
    Settles r bytes exact separable l s (Scanner.slash separable l s) := by
  have hplace (he : exact) : l.place = .ofOffset bytes (s.offset r.bytesLeft) := hl.trans (h.place_eq he)
  unfold Scanner.slash
  dsimp only
  split
  · next hslash =>
    obtain ⟨p, told, mark?, hsited, hpassing, hline⟩ := h.lineComment hc hslash hplace
    exact .passed hsited hpassing fun _ => hline
  · next hslash =>
    split
    · next hstar =>
      obtain ⟨p, told, mark?, hsited, hpassing, hline, hmark⟩ := h.blockComment hc hstar hplace
      -- The line has moved on exactly when a newline was crossed inside the comment.
      have hmoved : (s.advance.advance.blockComment l.place).place.line ≠ l.place.line ↔
          '\n' ∈ Crossing.charsOf [p] := by
        rw [← hline, hl]
        exact not_congr Nat.succ_inj
      split
      · next hsep =>
        rw [Bool.and_eq_true, decide_eq_true_eq] at hsep
        exact .found (.comment hsep.1 hsited hmark hpassing (hmoved.mp hsep.2))
      · next hsep =>
        refine .passed hsited hpassing fun hs hmem => hsep ?_
        rw [Bool.and_eq_true, decide_eq_true_eq]
        exact ⟨hs, hmoved.mpr hmem⟩
    · next hstar =>
      exact .found (.token hc (by decide) (fun _ => ⟨hslash, hstar⟩)
        (Scanner.slash_eq_found hslash hstar separable l))

/-- A character that is no blank starts a token or a comment, is a separator, or is rejected. -/
theorem Sited.attemptAt (h : s.Sited r bytes exact (some (s.offset r.bytesLeft))) {c : Char}
    (hc : s.char? = some c) (hblank : Scanner.isBlank separable c = false) (hl : l.place = s.place) :
    Settles r bytes exact separable l s (Scanner.attemptAt separable l c s) := by
  -- A newline, the start of a token or a comment, or a character that starts nothing and is passed over.
  by_cases hline : c = '\n'
  · subst hline
    cases separable with
    | false => cases hblank
    | true => exact .found (.newline rfl hc)
  · cases hstarts : startsToken c with
    | true =>
      by_cases hslash : c = '/'
      · subst hslash
        exact h.slash hc separable hl
      · obtain ⟨x, hx⟩ := Scanner.exists_attemptAt_eq_found hstarts hslash separable l s
        rw [hx]
        exact .found (.token hc hstarts (fun hs => absurd hs hslash) hx)
    | false =>
      have hnot : Scanner.isBlank false c = false := by
        rw [← hblank]
        unfold Scanner.isBlank
        rw [decide_eq_false hline, Bool.false_and, Bool.false_and]
      have hplace (he : exact) := hl.trans (h.place_eq he)
      obtain ⟨p, told, hsited, hpassing, hchars⟩ := h.stray hc hstarts hnot hplace
      rw [Scanner.attemptAt_of_not_startsToken hstarts hline]
      refine .passed hsited hpassing fun _ hmem => hline ?_
      rw [hchars] at hmem
      exact (List.mem_singleton.mp hmem).symm

/-- The stream has come from `s` to where a token is at `t`, over no newline if that would separate. -/
structure Approach (r : Reader) (bytes : ByteArray) (exact : Prop) (separable : Bool)
    (s t : CharStream Buffer) (ps : List Crossing) (told : List Remark) : Prop where
  sited : t.Sited r bytes exact (some (t.offset r.bytesLeft))
  passing : Passing r bytes exact s t ps told
  line : separable → '\n' ∉ Crossing.charsOf ps

/-- What is in neither of two gaps is not in both together. -/
theorem not_mem_charsOf_append {qs : List Crossing} {c : Char} (hps : c ∉ Crossing.charsOf ps)
    (hqs : c ∉ Crossing.charsOf qs) : c ∉ Crossing.charsOf (ps ++ qs) := by
  rw [Crossing.charsOf_append, List.mem_append]
  exact not_or.mpr ⟨hps, hqs⟩

/-- An attempt finds something behind the blanks, or passes over something. -/
theorem Sited.attempt (h : s.Sited r bytes exact mark?) (separable : Bool) (l : Lexeme) :
    (∃ x ps told, Scanner.attempt separable l s = .found x ∧
        Approach r bytes exact separable s (Scanner.toToken separable s) ps told ∧
        Finds r bytes exact separable { l with place := (Scanner.toToken separable s).place }
          (Scanner.toToken separable s) x) ∨
      ∃ t ps told mark?, Scanner.attempt separable l s = .passed t ∧ t.Sited r bytes exact mark? ∧
        Passing r bytes exact s t ps told ∧ (separable → '\n' ∉ Crossing.charsOf ps) := by
  obtain ⟨ps, told, hsited, hpassing, hline, hstop⟩ := h.toToken separable
  unfold Scanner.attempt
  dsimp only
  cases hc : (Scanner.toToken separable s).char? with
  | none => exact .inl ⟨_, ps, told, rfl, ⟨hsited, hpassing, hline⟩, .ended hc⟩
  | some c =>
    rw [hc] at hstop
    have hsettles := hsited.attemptAt hc hstop
      (l := { l with place := (Scanner.toToken separable s).place }) rfl
    dsimp only
    generalize Scanner.attemptAt separable _ c (Scanner.toToken separable s) = a at hsettles
    -- A comment or a stray character joins what was passed over before it.
    cases hsettles with
    | found hfinds => exact .inl ⟨_, ps, told, rfl, ⟨hsited, hpassing, hline⟩, hfinds⟩
    | @passed t qs told' mark? hsited' hpassing' hline' =>
      exact .inr ⟨t, ps ++ qs, told ++ told', mark?, rfl, hsited', hpassing.trans hpassing',
        fun hs => not_mem_charsOf_append (hline hs) (hline' hs)⟩

/-- The next token is at the end of what is passed over. -/
theorem Sited.find (h : s.Sited r bytes exact mark?) (separable : Bool) (l : Lexeme) : ∃ ps told,
    Approach r bytes exact separable s (Scanner.findStart separable l s) ps told ∧
      Finds r bytes exact separable { l with place := (Scanner.findStart separable l s).place }
        (Scanner.findStart separable l s) (Scanner.find separable l s) := by
  induction hn : s.remaining using Nat.strongRecOn generalizing s mark? with
  | ind n ih =>
    subst hn
    rw [Scanner.findStart_eq, Scanner.find_eq]
    rcases h.attempt separable l with
      ⟨x, ps, told, hx, happroach, hfinds⟩ | ⟨t, ps, told, mark?, ht, hsited, hpassing, hline⟩
    · rw [hx]
      exact ⟨ps, told, happroach, hfinds⟩
    · rw [ht]
      obtain ⟨qs, told', happroach, hfinds⟩ :=
        ih _ (Scanner.remaining_of_attempt_eq_passed ht) hsited rfl
      exact ⟨ps ++ qs, told ++ told', ⟨happroach.sited, hpassing.trans happroach.passing,
        fun hs => not_mem_charsOf_append (hline hs) (happroach.line hs)⟩, hfinds⟩

end CharStream

end FrontEnd
