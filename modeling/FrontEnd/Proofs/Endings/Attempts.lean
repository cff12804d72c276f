import FrontEnd.Proofs.Endings.Comments
import FrontEnd.Proofs.Progress
import FrontEnd.Proofs.Words.Spelled

/-!
# What is found with newlines and with carriage returns

From streams that are level, a scanner finds the same (`Scanner.matchIf_find`), unless something is wrong or
it finds a raw string, but for two things. A separator that a newline stands for may be elsewhere, since the
newline itself is (`Scanner.Abreast`). And where there are two dots in a row, it goes back to the first if no
third one comes, after which the streams need not be level any more (`Scanner.AtSecondDot`).
-/

namespace FrontEnd

/-- A raw string, by its first character. -/
def Lexeme.isRawString (l : Lexeme) : Bool :=
  l.token = .literal && l.literal.toList.head? = some '\x60'

/-- The same lexeme, or a separator that is somewhere else. Only after some tokens is there a separator
that could be. -/
def Lexeme.Alike (separable : Bool) (l m : Lexeme) : Prop :=
  m = l ∨ separable = true ∧ l.token = .semi ∧ m = { l with place := m.place }

/-- Lexemes that are alike differ in their place only. -/
theorem Lexeme.Alike.eq_with {separable : Bool} {l m : Lexeme} (h : l.Alike separable m) :
    m = { l with place := m.place } := by
  rcases h with rfl | ⟨-, -, h⟩
  · rfl
  · exact h

namespace CharStream

variable {front cs rest : List Char} {s t u : CharStream Cursor} {c : Char}

/-- Blanks are passed over up to the same place, but for the carriage return before a newline that is no
blank. -/
theorem Level.skipBlanks (separable : Bool) (h : Level front cs rest s t) : ∃ ds rest' u,
    Level front (cs ++ ds) rest' (s.skipWhile (Scanner.isBlank separable)) u ∧
      (t.skipWhile (Scanner.isBlank separable) = u ∧ rest'.head? ≠ some '\n' ∨
        separable = true ∧ t.skipWhile (Scanner.isBlank separable) = u.advance ∧
          ∃ more, rest' = '\n' :: more) := by
  have hblank {r : CharStream Cursor} {c : Char} (hr : r.char? = some c)
      (hc : Scanner.isBlank separable c = true) : r.skipWhile (Scanner.isBlank separable) =
        r.advance.skipWhile (Scanner.isBlank separable) := by
    rw [skipWhile.eq_def _ r, if_pos (by rw [hr]; exact hc)]
  have hother {r : CharStream Cursor} (hr : r.char?.any (Scanner.isBlank separable) = false) :
      r.skipWhile (Scanner.isBlank separable) = r := by
    rw [skipWhile.eq_def _ r, if_neg (by rw [hr]; exact Bool.false_ne_true)]
  induction rest generalizing cs s t with
  | nil =>
    have hs : s.char? = none := h.before.char?_eq
    have ht : t.char? = none := h.returned.char?_eq
    rw [hother (by rw [hs]; rfl), hother (by rw [ht]; rfl)]
    exact ⟨[], [], t, by rwa [List.append_nil], .inl ⟨rfl, nofun⟩⟩
  | cons c rest ih =>
    have hs : s.char? = some c := h.before.char?_eq
    -- What is passed over here comes before what is passed over from here on.
    have behind {s' t' : CharStream Cursor} (hlevel : Level front (cs ++ [c]) rest s' t') :
        ∃ ds rest' u, Level front (cs ++ ds) rest' (s'.skipWhile (Scanner.isBlank separable)) u ∧
          (t'.skipWhile (Scanner.isBlank separable) = u ∧ rest'.head? ≠ some '\n' ∨
            separable = true ∧ t'.skipWhile (Scanner.isBlank separable) = u.advance ∧
              ∃ more, rest' = '\n' :: more) := by
      obtain ⟨ds, rest', u, hrest, hu⟩ := ih hlevel
      exact ⟨c :: ds, rest', u, by rwa [List.append_assoc] at hrest, hu⟩
    -- Where a newline ends the blanks, the other stream stops one character later.
    by_cases hline : c = '\n'
    · subst hline
      obtain ⟨hreturn, hnewline, hlevel⟩ := h.advance_newline
      have hcr : Scanner.isBlank separable '\r' = true := by cases separable <;> rfl
      rw [hblank hreturn hcr]
      cases separable with
      | false =>
        rw [hblank hs rfl, hblank hnewline rfl]
        exact behind hlevel
      | true =>
        rw [hother (by rw [hs]; rfl), hother (by rw [hnewline]; rfl)]
        exact ⟨[], _, t, by rwa [List.append_nil], .inr ⟨rfl, rfl, rest, rfl⟩⟩
    · have ht := h.char?_eq_some hs hline
      cases hc : Scanner.isBlank separable c with
      | true =>
        rw [hblank hs hc, hblank ht hc]
        exact behind (h.advance hline)
      | false =>
        rw [hother (by rw [hs]; exact hc), hother (by rw [ht]; exact hc)]
        refine ⟨[], _, t, by rwa [List.append_nil], .inl ⟨rfl, fun he => hline ?_⟩⟩
        exact Option.some.inj he

/-- Characters that are skipped have been taken. -/
theorem Before.skipWhile {taken : List Char} (h : s.Before taken rest) (p : Char → Bool) :
    ∃ ds rest', (s.skipWhile p).Before (taken ++ ds) rest' ∧
      (s.skipWhile p).window.mark? = s.window.mark? := by
  induction rest generalizing s taken with
  | nil =>
    have hs : s.char? = none := h.char?_eq
    rw [CharStream.skipWhile.eq_def p s, hs]
    exact ⟨[], [], by rwa [List.append_nil], rfl⟩
  | cons c rest ih =>
    have hs : s.char? = some c := h.char?_eq
    rw [CharStream.skipWhile.eq_def p s]
    split
    · obtain ⟨ds, rest', hbehind, hmark⟩ := ih h.advance.1
      rw [List.append_assoc] at hbehind
      exact ⟨c :: ds, rest', hbehind, hmark.trans h.mark?_advance⟩
    · exact ⟨[], c :: rest, by rwa [List.append_nil], rfl⟩

/-- Back at the mark, what has been taken since then is before the stream again. -/
theorem Before.rewind (h : s.Before (front ++ cs) rest)
    (hm : s.window.mark? = some front.utf8Encode.size) (hclean : IsClean (cs ++ rest)) :
    s.rewind.Before front (cs ++ rest) ∧ s.rewind.reports = s.reports := by
  -- The stream at the mark before it moves on, which is what `seek_eq` speaks of.
  let s' : CharStream Cursor :=
    { s with
      window := ByteWindow.rewind s.window
      column := s.column + s.width - ByteWindow.sinceMark s.window
      width := 0 }
  have hbytes : s'.passChar.window.bytes = (front ++ (cs ++ rest)).utf8Encode := by
    rw [window_passChar, ← List.append_assoc]
    exact h.bytes_eq
  have hoffset : s'.passChar.window.offset = front.utf8Encode.size := by
    rw [window_passChar]
    change s.window.mark?.getD s.window.offset = _
    rw [hm, Option.getD_some]
  have hreports : s'.passChar.reports = s.reports := reports_passChar s'
  have hrewind : s.rewind = s'.passChar.seek := rfl
  rw [hrewind]
  refine ⟨before_seek hbytes hoffset hclean (by rw [hreports]; exact h.fine), ?_⟩
  rw [seek_eq hbytes hoffset hclean]
  exact hreports

/-- Of two dots, the second is found again. -/
theorem Before.secondDot (h : s.Before front ('.' :: '.' :: rest))
    (hm : s.window.mark? = some front.utf8Encode.size) :
    s.advance.advance.rewind.advance.Before (front ++ ['.']) ('.' :: rest) ∧
      s.advance.advance.rewind.advance.reports = s.reports := by
  have hfirst := h.advance.1
  have hsecond := hfirst.advance.1
  rw [List.append_assoc] at hsecond
  have hmark : s.advance.advance.window.mark? = some front.utf8Encode.size := by
    rw [hfirst.mark?_advance, h.mark?_advance, hm]
  obtain ⟨hback, hreports⟩ := hsecond.rewind hmark h.clean
  refine ⟨hback.advance.1, ?_⟩
  rw [hback.reports_advance, hreports, hfirst.reports_advance, h.reports_advance]

end CharStream

namespace Scanner

open CharStream

variable {front cs rest : List Char} {s t u : CharStream Cursor} {c : Char} {separable : Bool}
  {l l' : Lexeme}

/-- A carriage return before a token makes no difference. -/
theorem toToken_advance (hc : u.char? = some '\r') :
    toToken separable u.advance = toToken separable u := by
  have hblank : isBlank separable '\r' = true := by cases separable <;> rfl
  unfold toToken
  rw [skipWhile.eq_def _ u.clearMark, if_pos (by rw [show u.clearMark.char? = some '\r' from hc]; exact hblank),
    advance_clearMark]

/-- Where streams rest, there is a stream level with the one from which the same is found as from the
other. -/
theorem exists_level (h : s.Rests t) : ∃ front cs rest u, Level front cs rest s u ∧
    ∀ separable l, find separable l t = find separable l u := by
  obtain ⟨front, cs, rest, u, hlevel, rfl | ⟨hreturn, rfl⟩⟩ := h
  · exact ⟨front, cs, rest, t, hlevel, fun _ _ => rfl⟩
  · refine ⟨front, cs, rest, u, hlevel, fun separable l => find_congr ?_⟩
    have hreturned := hlevel.returned
    have hhead := hreturned.char?_eq.symm.trans hreturn
    obtain ⟨more, hmore⟩ := List.head?_eq_some_iff.mp hhead
    rw [hmore] at hreturned
    exact toToken_advance hreturn

/-- Both have found the same but for the place of a separator, and are level behind it. -/
def Abreast (separable : Bool) (x y : Scanner Cursor) : Prop :=
  x.lexeme.Alike separable y.lexeme ∧
    ∃ front cs rest, Level front cs rest x.stream.clearMark y.stream.clearMark

/-- Both have found the first of two dots, and the one stream is at the second. -/
structure AtSecondDot (x y : Scanner Cursor) : Prop where
  lexeme_eq : y.lexeme = x.lexeme
  token_eq : x.lexeme.token = .dot
  told : x.stream.reports.toList.map Report.gist = y.stream.reports.toList.map Report.gist
  before : ∃ taken rest, x.stream.Before taken ('.' :: rest)

/-- Unless there is a fault or a raw string, both have found the same. -/
def MatchIf (separable : Bool) (x y : Scanner Cursor) : Prop :=
  x.stream.NoFault → x.lexeme.isRawString = false → x.Abreast separable y ∨ x.AtSecondDot y

/-- What the attempt comes to has no fault. -/
def NoFaultIn : Attempt Cursor → Prop
  | .found x => x.stream.NoFault
  | .passed u => u.NoFault

/-- Attempts that come to the same, unless there is a fault or a raw string. -/
inductive AttemptsMatch (separable : Bool) : Attempt Cursor → Attempt Cursor → Prop
  | found {x y : Scanner Cursor} : x.MatchIf separable y → AttemptsMatch separable (.found x) (.found y)
  | passed {u v : CharStream Cursor} : u.Rests v → AttemptsMatch separable (.passed u) (.passed v)
  | faulty {a b : Attempt Cursor} : ¬NoFaultIn a → AttemptsMatch separable a b

/-- Scanners that have found the same are abreast. -/
theorem abreast_of_inStep {x y : Scanner Cursor} (h : x.InStep Inline y) : x.Abreast separable y := by
  obtain ⟨hlexeme, front, cs, rest, -, hlevel⟩ := h
  exact ⟨.inl hlexeme.symm, front, cs, rest, hlevel.clearMark⟩

/-- Scanners match if they have found the same wherever there is no fault. -/
theorem matchIf_of_inStep {x y : Scanner Cursor} (h : x.stream.NoFault → x.InStep Inline y) :
    x.MatchIf separable y := fun hfine _ => .inl (abreast_of_inStep (h hfine))

/-- Attempts match if they find the same. -/
theorem attemptsMatch_of_foundAlike {a b : Attempt Cursor} (h : FoundAlike a b) :
    AttemptsMatch separable a b := by
  cases h with
  | found hfound => exact .found (matchIf_of_inStep hfound)
  | rejected hfault => exact .faulty hfault

/-- What starts with a dot matches. -/
theorem matchIf_dot (h : Level front [] ('.' :: rest) s t)
    (hm : s.window.mark? = some front.utf8Encode.size)
    (hm' : t.window.mark? = some (withReturns front).utf8Encode.size) (l : Lexeme) :
    (dot l s).MatchIf separable (dot l t) := by
  have hlevel := h.advance (c := '.') (by decide)
  have ha : s.advance.Inline t.advance := h.inline_nil.advance h.before.char?_eq (by decide)
  unfold dot
  dsimp only
  rw [ha.any_eq (p := Char.isDigit) (by decide) (by decide)]
  split
  · exact matchIf_of_inStep fun hfine => inline_number (ha.fraction hfine)
  · by_cases hsecond : s.advance.char? = some '.'
    · obtain ⟨rest₂, rfl⟩ := List.head?_eq_some_iff.mp (hlevel.before.char?_eq.symm.trans hsecond)
      have haa := ha.advance hsecond (by decide)
      rw [if_pos hsecond, if_pos ((ha.char?_iff (by decide) (by decide)).mpr hsecond)]
      -- Two dots and no third one: the stream goes back, which is where the two readings of the text may part.
      by_cases hthird : s.advance.advance.char? = some '.'
      · rw [if_pos hthird, if_pos ((haa.char?_iff (by decide) (by decide)).mpr hthird)]
        exact matchIf_of_inStep fun _ => ⟨rfl, haa.advance hthird (by decide)⟩
      · rw [if_neg hthird, if_neg fun he => hthird ((haa.char?_iff (by decide) (by decide)).mp he)]
        obtain ⟨hback, hreports⟩ := h.before.secondDot (by rwa [List.append_nil])
        have hreturned := h.returned
        rw [withReturns_cons (by decide), withReturns_cons (by decide)] at hreturned
        obtain ⟨-, hreports'⟩ := hreturned.secondDot (by rwa [List.append_nil])
        refine fun _ _ => .inr ⟨rfl, rfl, ?_, _, rest₂, hback⟩
        dsimp only
        rw [hreports, hreports', h.told]
    · rw [if_neg hsecond, if_neg fun he => hsecond ((ha.char?_iff (by decide) (by decide)).mp he)]
      exact matchIf_of_inStep fun _ => ⟨rfl, ha⟩

/-! ### Comments and raw strings -/

/-- What starts with a slash matches, comments included. -/
theorem attemptsMatch_slash (h : Level front [] ('/' :: rest) s t) (l : Lexeme) :
    AttemptsMatch separable (slash separable l s) (slash separable l t) := by
  have hlevel := h.advance (c := '/') (by decide)
  have ha : s.advance.Inline t.advance := h.inline_nil.advance h.before.char?_eq (by decide)
  unfold slash
  dsimp only
  by_cases hline : s.advance.char? = some '/'
  · rw [if_pos hline, if_pos ((ha.char?_iff (by decide) (by decide)).mpr hline)]
    obtain ⟨more, rfl⟩ := List.head?_eq_some_iff.mp (hlevel.before.char?_eq.symm.trans hline)
    exact .passed ((hlevel.advance (by decide)).lineComment l.place)
  · rw [if_neg hline, if_neg fun he => hline ((ha.char?_iff (by decide) (by decide)).mp he)]
    by_cases hblock : s.advance.char? = some '*'
    · rw [if_pos hblock, if_pos ((ha.char?_iff (by decide) (by decide)).mpr hblock)]
      obtain ⟨more, rfl⟩ := List.head?_eq_some_iff.mp (hlevel.before.char?_eq.symm.trans hblock)
      have hopened := hlevel.advance (c := '*') (by decide)
      -- A comment that is never closed is a fault in both texts, and nothing is asked of faulty runs.
      by_cases hfine : (s.advance.advance.blockComment l.place).NoFault
      · obtain ⟨cs, rest', hbehind⟩ := Level.blockComment hopened l.place hfine
        rw [hbehind.place_eq]
        split
        · exact .found fun _ _ => .inl ⟨.inl rfl, front, cs, rest', hbehind.clearMark⟩
        · exact .passed ⟨front, cs, rest', _, hbehind, .inl rfl⟩
      · refine .faulty ?_
        split <;> exact hfine
    · rw [if_neg hblock, if_neg fun he => hblock ((ha.char?_iff (by decide) (by decide)).mp he)]
      exact .found (matchIf_of_inStep fun _ => inline_assignable ha)

/-- What starts with a backquote is a raw string, unless it does not end. -/
theorem isRawString_of_noFault (h : s.Before front ('\x60' :: rest))
    (hm : s.window.mark? = some front.utf8Encode.size) (l : Lexeme)
    (hn : (quoted l .string (s.advance.rawStringRest l.place)).stream.NoFault) :
    (quoted l .string (s.advance.rawStringRest l.place)).lexeme.isRawString = true := by
  obtain ⟨ds, rest', hskip, hmark⟩ := h.advance.1.skipWhile (· ≠ '\x60')
  rw [h.mark?_advance, hm] at hmark
  unfold CharStream.rawStringRest at hn ⊢
  dsimp only at hn ⊢
  generalize s.advance.skipWhile (· ≠ '\x60') = u at hskip hmark hn ⊢
  -- Without the closing quote the string would be a fault.
  cases rest' with
  | nil =>
    rw [hskip.char?_eq] at hn
    exact absurd hn (not_noFault_complainAt _ _ _)
  | cons c rest' =>
    have hclosed := hskip.advance.1
    rw [List.append_assoc, List.append_assoc] at hclosed
    have hmarked := hclosed.marked_eq (hskip.mark?_advance.trans hmark)
    rw [hskip.char?_eq]
    change (u.advance.markedText.toList.head? = some '\x60' : Bool) = true
    unfold markedText
    rw [hmarked, Utf8.lossyChars_utf8Encode, String.toList_ofList]
    rfl

/-! ### Finding -/

/-- At a character that ends no line, both attempts come to the same. -/
theorem attemptsMatch_attemptAt (h : Level front [] (c :: rest) s t) (hc : c ≠ '\n')
    (hm : s.window.mark? = some front.utf8Encode.size)
    (hm' : t.window.mark? = some (withReturns front).utf8Encode.size) (l : Lexeme) :
    AttemptsMatch separable (attemptAt separable l c s) (attemptAt separable l c t) := by
  by_cases hdot : c = '.'
  · subst hdot
    exact .found (matchIf_dot h hm hm' l)
  · by_cases hslash : c = '/'
    · subst hslash
      exact attemptsMatch_slash h l
    · by_cases hraw : c = '\x60'
      · subst hraw
        rw [← List.append_nil front] at hm
        -- A raw string, in which the texts may differ, is excluded; so nothing is to be shown of it.
        refine .found fun hfine hnone => ?_
        have hbefore := h.before
        rw [List.append_nil] at hbefore hm
        rw [isRawString_of_noFault hbefore hm l hfine] at hnone
        cases hnone
      · exact attemptsMatch_of_foundAlike
          (inline_attemptAt h.inline_nil h.before.char?_eq hc hdot hslash hraw)

/-- At the end of a line, both attempts find a separator. -/
theorem abreast_newline (h : Level front cs ('\n' :: rest) s u) (hl : l' = { l with place := l'.place }) :
    Abreast true ⟨s.setMark.advance, l.withReason Lexeme.newlineReason⟩
      ⟨u.advance.setMark.advance, l'.withReason Lexeme.newlineReason⟩ := by
  refine ⟨.inr ⟨rfl, rfl, by rw [hl]; rfl⟩, front, cs ++ ['\n'], rest, ?_⟩
  obtain ⟨-, -, hlevel⟩ := h.clearMark.advance_newline
  have hreturned := h.returned
  rw [withReturns_newline] at hreturned
  have hs : s.setMark.advance.clearMark = s.clearMark.advance := (advance_clearMark s.setMark).symm
  have hu : u.advance.setMark.advance.clearMark = u.clearMark.advance.advance :=
    calc u.advance.setMark.advance.clearMark = u.advance.clearMark.advance :=
          (advance_clearMark u.advance.setMark).symm
      _ = u.clearMark.advance.advance := congrArg advance (advance_clearMark u).symm
  rw [hs, hu]
  exact hlevel

/-- From streams that are level, both attempts come to the same. -/
theorem attemptsMatch_attempt (h : Level front cs rest s t) (hl : l' = { l with place := l'.place }) :
    AttemptsMatch separable (attempt separable l s) (attempt separable l' t) := by
  have hwith (place : Place) : { l' with place } = { l with place } := by rw [hl]
  -- Blanks end at the same character in both texts, or at a newline before which one of them has a return.
  obtain ⟨ds, rest', u, hlevel, ⟨hu, hhead⟩ | ⟨rfl, hu, more, rfl⟩⟩ := h.clearMark.skipBlanks separable
  · -- At a character other than a newline the two attempts are compared case by case.
    have hmarked := hlevel.setMark
    have hm := hlevel.before.mark?_setMark
    have hm' := hlevel.returned.mark?_setMark
    rw [← hu] at hmarked hm'
    change (toToken separable s).window.mark? = _ at hm
    change (toToken separable t).window.mark? = _ at hm'
    change Level _ [] rest' (toToken separable s) (toToken separable t) at hmarked
    unfold attempt
    dsimp only
    rw [hmarked.place_eq, hwith]
    cases rest' with
    | nil =>
      rw [show (toToken separable s).char? = none from hmarked.before.char?_eq,
        show (toToken separable t).char? = none from hmarked.returned.char?_eq]
      exact .found fun _ _ => .inl ⟨.inl rfl, _, _, _, hmarked.clearMark⟩
    | cons c rest' =>
      have hc : c ≠ '\n' := fun he => hhead (congrArg some he)
      have hs : (toToken separable s).char? = some c := hmarked.before.char?_eq
      rw [hs, hmarked.char?_eq_some hs hc]
      exact attemptsMatch_attemptAt hmarked hc hm hm' _
  · -- At a newline that counts both give the inserted semicolon.
    have hs : (toToken true s).char? = some '\n' := hlevel.before.char?_eq
    have ht : (toToken true t).char? = some '\n' := by
      change (t.clearMark.skipWhile (isBlank true)).char? = _
      rw [hu, hlevel.advance_newline.2.1]
    have htoken : toToken true t = u.advance.setMark := congrArg CharStream.setMark hu
    unfold attempt
    dsimp only
    rw [hs, ht, htoken]
    refine .found fun _ _ => .inl (abreast_newline hlevel ?_)
    dsimp only
    rw [hl]

/-- If nothing is wrong with what is found, nothing was before. -/
theorem noFault_of_find (hn : (find separable l s).stream.NoFault) : s.NoFault :=
  Classical.byContradiction fun hfault => (finding_faulty.find separable l ⟨rfl, hfault⟩).2.2 hn

/-- From where streams rest, the same is found, unless there is a fault or a raw string. -/
theorem matchIf_find (h : s.Rests t) (hl : l' = { l with place := l'.place }) :
    (find separable l s).MatchIf separable (find separable l' t) := by
  -- By what is left; both go around the loop together, unless a fault ends the comparison.
  induction hr : s.remaining using Nat.strongRecOn generalizing s t with
  | ind n ih =>
    subst hr
    obtain ⟨front, cs, rest, u, hlevel, hfind⟩ := exists_level h
    rw [hfind, find_eq separable l s, find_eq separable l' u]
    have hattempts : AttemptsMatch separable (attempt separable l s) (attempt separable l' u) :=
      attemptsMatch_attempt hlevel hl
    generalize attempt separable l' u = b at hattempts
    cases ha : attempt separable l s with
    | found x =>
      rw [ha] at hattempts
      cases hattempts with
      | found hmatch => exact hmatch
      | faulty hfault => exact fun hfine => absurd hfine hfault
    | passed s' =>
      rw [ha] at hattempts
      cases hattempts with
      | passed hrests => exact ih _ (remaining_of_attempt_eq_passed ha) hrests rfl
      | faulty hfault => exact fun hfine => absurd (noFault_of_find hfine) hfault

end Scanner

end FrontEnd
