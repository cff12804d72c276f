import FrontEnd.Proofs.Refinement
import FrontEnd.Proofs.Whole.Accepted
import FrontEnd.Proofs.Words.Clean
import FrontEnd.Proofs.Words.Word

/-!
# Words in a row

A text that is made of words with blanks between them, and perhaps block comments among the blanks, is
divided into these words again (`tokenize_spelled`). A scanner passes over what stands before a word
(`Scanner.find_filler`), finds the word, and stops before the next blank (`Scanner.find_word`); so it is with
all words by induction, and at the end there is only the end (`Scanner.scanUpTo_end`).
-/

namespace FrontEnd

/-- The characters are blanks and block comments without a newline. -/
inductive IsFiller : List Char → Prop
  | nil : IsFiller []
  | blank {c : Char} {cs : List Char} : c ∈ CharStream.gapBlanks → IsFiller cs → IsFiller (c :: cs)
  | comment {text cs : List Char} : '\n' ∉ text → ¬CharStream.closingMarker <:+: text → IsFiller cs →
      IsFiller ('/' :: '*' :: (text ++ CharStream.closingMarker) ++ cs)

/-- What may stand between two words: a blank, and then blanks and comments. -/
structure Spacing where
  chars : List Char
  valid : ∃ c cs, chars = c :: cs ∧ c ∈ CharStream.gapBlanks ∧ IsFiller cs

/-- The words, each with its spacing before it. -/
def spacedWords (spacing : Nat → Spacing) : List Word → List Char
  | [] => []
  | w :: ws => (spacing 0).chars ++ (w.chars ++ spacedWords (fun n => spacing (n + 1)) ws)

/-- The words with the spacing between them. -/
def spelledWords (spacing : Nat → Spacing) : List Word → List Char
  | [] => []
  | w :: ws => w.chars ++ spacedWords spacing ws

/-- A spacing is filler. -/
theorem Spacing.isFiller (sp : Spacing) : IsFiller sp.chars := by
  obtain ⟨c, cs, hchars, hc, hcs⟩ := sp.valid
  rw [hchars]
  exact .blank hc hcs

/-- What comes behind a word starts with a blank. -/
theorem head?_spacedWords {spacing : Nat → Spacing} {ws : List Word} {c : Char}
    (h : (spacedWords spacing ws).head? = some c) : c ∈ CharStream.gapBlanks := by
  cases ws with
  | nil => cases h
  | cons w ws =>
    obtain ⟨d, ds, hchars, hd, -⟩ := (spacing 0).valid
    rw [spacedWords, hchars, List.cons_append, List.head?_cons] at h
    exact Option.some.inj h ▸ hd

/-- So it does not join the word. -/
theorem Word.any_joins_spacedWords (w : Word) (spacing : Nat → Spacing) (ws : List Word) :
    (spacedWords spacing ws).head?.any w.joins = false := by
  cases h : (spacedWords spacing ws).head? with
  | none => rfl
  | some c => exact w.not_joins_of_blank (head?_spacedWords h)

/-- A word is not the end. -/
theorem Word.token_ne_eof (w : Word) : w.token ≠ .eof := by
  cases w with
  | op o => cases o <;> exact Token.noConfusion
  | mark t valid => exact Token.ne_of_isMark valid rfl
  | _ => exact Token.noConfusion

namespace CharStream

variable {s s' : CharStream Cursor} {taken cs rest : List Char} {c : Char}

/-- What comes next is the first of the characters to come. -/
theorem Before.past (h : s.Before taken rest) {p : Char → Bool} (hp : rest.head?.any p = false) : s.Past p := by
  unfold Past
  rw [h.char?_eq]
  exact hp

/-- Without a mark there is none to give up. -/
theorem clearMark_eq (h : s.window.mark? = none) : s.clearMark = s := by
  change { s with window := { s.window with mark? := none } } = s
  rw [← h]

/-- The rest of a comment is passed over, and told of as a directive or not. -/
theorem Before.commentRest {text : List Char} (h : s.Before taken (text ++ closingMarker ++ rest))
    (hnewline : '\n' ∉ text) (hclosing : ¬closingMarker <:+: text) :
    ∃ t, s.blockCommentRest = (true, t) ∧ t.Before (taken ++ (text ++ closingMarker)) rest ∧
      t.line = s.line := by
  obtain ⟨t, ht⟩ := h.exists_comes
  obtain ⟨hbefore, -, hline⟩ := h.of_comes ht
  refine ⟨t, blockCommentRest_of_comes ht hclosing, hbefore, hline ?_⟩
  rw [List.mem_append, not_or]
  exact ⟨hnewline, by decide⟩

/-- A comment whose opening marker has been taken is passed over on its line. -/
theorem Before.blockComment {text : List Char} (h : s.Before taken (text ++ closingMarker ++ rest))
    (hnewline : '\n' ∉ text) (hclosing : ¬closingMarker <:+: text) (start : Place) :
    (s.blockComment start).Before (taken ++ (text ++ closingMarker)) rest ∧
      (s.blockComment start).line = s.line := by
  obtain ⟨u, hu⟩ := h.exists_comes
  have hword : '*' ∉ directiveWord := by decide
  obtain ⟨front, back, rfl, hfront, -⟩ := accept_of_comes hword hu
  rw [List.append_assoc, List.append_assoc] at h
  rw [List.mem_append, not_or] at hnewline
  obtain ⟨hbefore, -, hline⟩ := h.of_comes hfront
  -- What is left of the text behind the accepted part of the word does not close the comment either.
  have hback : ¬closingMarker <:+: back := fun hwithin =>
    hclosing (hwithin.trans (List.suffix_append front back).isInfix)
  unfold CharStream.blockComment
  dsimp only
  generalize (s.accept directiveWord).1 = isDirective
  generalize (s.accept directiveWord).2 = t at hbefore hline
  rw [← hline hnewline.1, List.append_assoc, ← List.append_assoc taken]
  rw [← List.append_assoc back] at hbefore
  cases isDirective with
  | true =>
    obtain ⟨v, hrest, hv, hline'⟩ := hbefore.commentRest hnewline.2 hback
    simp only [if_true, hrest, Bool.not_true, Bool.false_eq_true, if_false]
    exact ⟨hv.reportDirective start, hline'⟩
  | false =>
    obtain ⟨v, hrest, hv, hline'⟩ := hbefore.clearMark.commentRest hnewline.2 hback
    simp only [Bool.false_eq_true, if_false, hrest, Bool.not_true]
    exact ⟨hv, hline'⟩

end CharStream

namespace Scanner

open CharStream

variable {s s' : CharStream Cursor} {taken cs rest : List Char} {c : Char} {separable : Bool} {l : Lexeme}

/-- Blanks in gaps are blank wherever they stand. -/
theorem isBlank_of_mem (h : c ∈ gapBlanks) : isBlank separable c = true := by
  cases separable <;> revert c <;> decide

/-- At a character that is no blank, there is nothing to pass over before a token. -/
theorem toToken_of_past (h : s.Past (isBlank separable)) : toToken separable s = s.clearMark.setMark := by
  have hclear : s.clearMark.Past (isBlank separable) := h
  have hnil : s.clearMark.Comes [] s.clearMark := rfl
  unfold toToken
  rw [skipWhile_of_comes hnil (fun _ hc => by cases hc) hclear]

/-- The token that is found depends on what is behind the blanks. -/
theorem find_congr (h : toToken separable s = toToken separable s') : find separable l s = find separable l s' := by
  have hattempt : attempt separable l s = attempt separable l s' := by
    unfold attempt
    rw [h]
  rw [find_eq, hattempt, ← find_eq]

/-- A blank before a token is passed over. -/
theorem find_blank (separable : Bool) (l : Lexeme) (h : s.Before taken (c :: rest)) (hc : c ∈ gapBlanks) :
    find separable l s = find separable l s.clearMark.advance := by
  obtain ⟨-, hmark, -⟩ := h.clearMark.advance
  refine find_congr ?_
  unfold toToken
  rw [clearMark_eq (s := s.clearMark.advance) (by rw [hmark]; rfl), skipWhile.eq_def,
    if_pos (by rw [h.clearMark.char?_eq]; exact isBlank_of_mem hc)]

/-- A comment before a token is passed over. -/
theorem find_comment (separable : Bool) (l : Lexeme) {text : List Char}
    (h : s.Before taken ('/' :: '*' :: (text ++ closingMarker) ++ rest))
    (hnewline : '\n' ∉ text) (hclosing : ¬closingMarker <:+: text) :
    ∃ t, find separable l s = find separable l t ∧
      t.Before (taken ++ '/' :: '*' :: (text ++ closingMarker)) rest := by
  have hblank : isBlank separable '/' = false := by cases separable <;> decide
  have htoken : toToken separable s = s.clearMark.setMark := toToken_of_past (h.past hblank)
  have hstart := h.clearMark.setMark
  generalize s.clearMark.setMark = u at htoken hstart
  obtain ⟨hslash, -, hline⟩ := hstart.advance
  obtain ⟨hstar, -, hline'⟩ := hslash.advance
  obtain ⟨hcomment, hline''⟩ := hstar.blockComment hnewline hclosing u.place
  -- The comment is on one line, so it does not stand for a newline and is passed over.
  have hsame : (u.advance.advance.blockComment u.place).place.line = u.place.line :=
    congrArg (· + 1) (hline''.trans ((hline' (by decide)).trans (hline (by decide))))
  have hnext : u.advance.char? = some '*' := hslash.char?_eq
  have hpassed : attempt separable l s = .passed (u.advance.advance.blockComment u.place) := by
    unfold attempt
    rw [htoken]
    dsimp only
    rw [hstart.char?_eq]
    change slash separable _ _ = _
    unfold slash
    dsimp only
    rw [if_neg (by rw [hnext]; decide), if_pos hnext, if_neg (by rw [hsame]; simp)]
  refine ⟨u.advance.advance.blockComment u.place, by rw [find_eq, hpassed], ?_⟩
  rwa [List.append_assoc, List.append_assoc] at hcomment

/-- What stands before a token is passed over. -/
theorem find_filler (separable : Bool) (l : Lexeme) (h : s.Before taken (cs ++ rest)) (hcs : IsFiller cs) :
    ∃ t, find separable l s = find separable l t ∧ t.Before (taken ++ cs) rest := by
  induction hcs generalizing s taken with
  | nil =>
    rw [List.append_nil]
    exact ⟨s, rfl, h⟩
  | @blank c cs hc _ ih =>
    obtain ⟨t, hfind, ht⟩ := ih h.clearMark.advance.1
    rw [List.append_assoc, List.singleton_append] at ht
    exact ⟨t, (find_blank separable l h hc).trans hfind, ht⟩
  | @comment text cs hnewline hclosing _ ih =>
    rw [List.append_assoc] at h
    obtain ⟨t, hfind, ht⟩ := find_comment separable l h hnewline hclosing
    obtain ⟨t', hfind', ht'⟩ := ih ht
    rw [List.append_assoc] at ht'
    exact ⟨t', hfind.trans hfind', ht'⟩

/-- A word is found, and then the stream is before what comes next. -/
theorem find_word (separable : Bool) (l : Lexeme) (w : Word) (h : s.Before taken (w.chars ++ rest))
    (hnext : rest.head?.any w.joins = false) :
    ∃ l', (find separable l s).lexeme = w.complete l' ∧
      (find separable l s).stream.Before (taken ++ w.chars) rest ∧
      (find separable l s).stream.reports = s.reports := by
  -- The word starts with a character that starts a token, so no blank is passed over before it.
  obtain ⟨c, cs, hchars, hstarts⟩ := w.exists_chars
  have hblank : isBlank separable c = false := by
    have hnone := isBlank_of_startsToken hstarts
    cases separable <;> simp_all [isBlank]
  have htoken : toToken separable s = s.clearMark.setMark :=
    toToken_of_past (h.past (by rw [hchars]; exact hblank))
  obtain ⟨t, ht⟩ := h.clearMark.setMark.exists_comes
  have hstart : s.clearMark.setMark.char? = some c := by
    rw [h.clearMark.setMark.char?_eq, hchars]
    rfl
  have htext := h.clearMark.markedText_eq ht
  have hbefore := (h.clearMark.setMark.of_comes ht).1
  have hfound : find separable l s =
      ⟨t, w.complete { l with place := s.clearMark.setMark.place }⟩ := by
    rw [find_eq]
    unfold attempt
    rw [htoken]
    dsimp only
    rw [hstart]
    dsimp only
    rw [attemptAt_of_comes w hchars ht (hbefore.past hnext) htext]
  rw [hfound]
  exact ⟨_, rfl, hbefore, h.clearMark.setMark.reports_of_comes ht⟩

/-- At the end, the end is found, or a separator before it. -/
theorem find_end (separable : Bool) (l : Lexeme) (h : s.Before taken []) : ∃ l' : Lexeme,
    (find separable l s).lexeme = (if separable then l'.withReason Lexeme.endReason else l'.atEnd) ∧
      (find separable l s).stream.Before taken [] ∧ (find separable l s).stream.reports = s.reports := by
  have htoken : toToken separable s = s.clearMark.setMark := toToken_of_past (h.past rfl)
  have hfound : find separable l s = ⟨s.clearMark.setMark,
      if separable then { l with place := s.clearMark.setMark.place }.withReason Lexeme.endReason
      else { l with place := s.clearMark.setMark.place }.atEnd⟩ := by
    rw [find_eq]
    unfold attempt
    rw [htoken]
    dsimp only
    rw [h.clearMark.setMark.char?_eq]
    rfl
  rw [hfound]
  exact ⟨_, rfl, h.clearMark.setMark, rfl⟩

/-! ## All words -/

/-- A scan as it is shown in a list of tokens. -/
def shown (scan : Scan) : Token × String := (scan.lexeme.token, scan.lexeme.text)

/-- A word behind filling is found, with its text, if what is behind does not join it. -/
theorem next_word (x : Scanner Cursor) (w : Word) (h : x.stream.Before taken (cs ++ (w.chars ++ rest)))
    (hcs : IsFiller cs) (hnext : rest.head?.any w.joins = false) :
    x.next.lexeme.token = w.token ∧ x.next.lexeme.text = w.text ∧
      x.next.stream.Before (taken ++ cs ++ w.chars) rest := by
  obtain ⟨t, hfind, ht⟩ := find_filler x.lexeme.endsStatement x.lexeme.cleared h hcs
  obtain ⟨l', hlexeme, hstream, -⟩ := find_word x.lexeme.endsStatement x.lexeme.cleared w ht hnext
  unfold next
  rw [hfind, hlexeme, w.token_complete, w.text_complete]
  exact ⟨rfl, rfl, hstream⟩

/-- What has been told is no error. -/
theorem error?_of_before (x : Scanner Cursor) (h : x.stream.Before taken rest) :
    x.reports.filterMap Report.error? = [] := by
  rw [List.filterMap_eq_nil_iff]
  intro r hr
  cases r with
  | error e => exact absurd (Array.mem_toList_iff.mp hr) (h.fine e)
  | directive => rfl

/-- What comes behind the last word, of the given class. -/
def ending (last : Token) : List (Token × String) :=
  (if last.endsStatement then [(.semi, Lexeme.endReason)] else []) ++ [(.eof, Token.eof.spelling)]

/-- Before the end a separator is inserted, or the end is found. -/
theorem next_end (x : Scanner Cursor) (h : x.stream.Before taken []) :
    shown ⟨x.next.lexeme, x.next.reports⟩ = (if x.lexeme.endsStatement then (.semi, Lexeme.endReason)
      else (.eof, Token.eof.spelling)) ∧ x.next.stream.Before taken [] := by
  obtain ⟨l', hlexeme, hstream, -⟩ := find_end x.lexeme.endsStatement x.lexeme.cleared h
  unfold next shown
  dsimp only
  rw [hlexeme]
  refine ⟨?_, hstream⟩
  cases x.lexeme.endsStatement <;> rfl

/-- At the end, there is a separator if the last word calls for it, and the end. -/
theorem scanUpTo_end (x : Scanner Cursor) (hx : x.lexeme.endsStatement = x.lexeme.token.endsStatement)
    (h : x.stream.Before taken []) (n : Nat) :
    (x.scanUpTo (n + 2)).map shown = ending x.lexeme.token ∧
      ∀ scan ∈ x.scanUpTo (n + 2), scan.reports.filterMap Report.error? = [] := by
  obtain ⟨hshown, hstream⟩ := next_end x h
  have hfine := error?_of_before x.next hstream
  unfold ending
  rw [← hx]
  cases hends : x.lexeme.endsStatement with
  | false =>
    rw [hends] at hshown
    have heof : x.next.lexeme.token = .eof := congrArg Prod.fst hshown
    rw [scanUpTo_of_eof _ heof, List.map_singleton, hshown]
    refine ⟨rfl, fun scan hscan => ?_⟩
    rw [List.mem_singleton.mp hscan]
    exact hfine
  -- Behind a token that ends a statement the semicolon comes first, then the end.
  | true =>
    rw [hends] at hshown
    have hsemi : x.next.lexeme.token = .semi := congrArg Prod.fst hshown
    obtain ⟨hshown', hstream'⟩ := next_end x.next.dropReports hstream.dropReports
    have hfine' := error?_of_before x.next.dropReports.next hstream'
    have hnone : x.next.dropReports.lexeme.endsStatement = false := by
      change x.next.lexeme.endsStatement = false
      rw [x.endsStatement_next, hsemi]
      rfl
    rw [hnone] at hshown'
    have heof : x.next.dropReports.next.lexeme.token = .eof := congrArg Prod.fst hshown'
    rw [scanUpTo_of_ne _ (by rw [hsemi]; exact Token.noConfusion), scanUpTo_of_eof _ heof, List.map_cons,
      List.map_singleton, hshown, hshown']
    refine ⟨rfl, fun scan hscan => ?_⟩
    rcases List.mem_cons.mp hscan with rfl | hscan
    · exact hfine
    · rw [List.mem_singleton.mp hscan]
      exact hfine'

/-- The class of the last word, or the given one if there is none. -/
def lastToken (t : Token) (ws : List Word) : Token := (ws.getLast?.map Word.token).getD t

/-- The last token of several words is that of those behind the first. -/
theorem lastToken_cons (t : Token) (w : Word) (ws : List Word) : lastToken t (w :: ws) = lastToken w.token ws := by
  cases ws with
  | nil => rfl
  | cons w' ws =>
    unfold lastToken
    rw [List.getLast?_cons_cons]
    rfl

/-- A word is found, and then what comes behind it. -/
theorem scanUpTo_word (x : Scanner Cursor) (w : Word) (h : x.stream.Before taken (cs ++ (w.chars ++ rest)))
    (hcs : IsFiller cs) (hnext : rest.head?.any w.joins = false) (n : Nat) :
    ∃ scan y, x.scanUpTo (n + 1) = scan :: scanUpTo n y ∧ shown scan = (w.token, w.text) ∧
      scan.reports.filterMap Report.error? = [] ∧ y.lexeme.token = w.token ∧
      y.lexeme.endsStatement = y.lexeme.token.endsStatement ∧
      y.stream.Before (taken ++ cs ++ w.chars) rest := by
  obtain ⟨htoken, htext, hstream⟩ := next_word x w h hcs hnext
  refine ⟨_, _, scanUpTo_of_ne n (htoken ▸ w.token_ne_eof), ?_, error?_of_before _ hstream, htoken,
    x.endsStatement_next, hstream.dropReports⟩
  exact Prod.ext htoken htext

/-- One word after another is found, with filler before the first. -/
theorem scanUpTo_spelled (x : Scanner Cursor) (ws : List Word) (spacing : Nat → Spacing) (hcs : IsFiller cs)
    (hnil : ws = [] → cs = []) (hx : x.lexeme.endsStatement = x.lexeme.token.endsStatement)
    (h : x.stream.Before taken (cs ++ spelledWords spacing ws)) (n : Nat) :
    (x.scanUpTo (n + 2 + ws.length)).map shown = ws.map (fun w => (w.token, w.text)) ++
        ending (lastToken x.lexeme.token ws) ∧
      ∀ scan ∈ x.scanUpTo (n + 2 + ws.length), scan.reports.filterMap Report.error? = [] := by
  -- Word by word, each with the filler in front of it that the spacing chose.
  induction ws generalizing x taken cs spacing with
  | nil =>
    rw [hnil rfl] at h
    exact scanUpTo_end x hx h n
  | cons w ws ih =>
    obtain ⟨scan, y, hscans, hshown, hfine, htoken, hends, hy⟩ :=
      scanUpTo_word x w h hcs (w.any_joins_spacedWords spacing ws) (n + 2 + ws.length)
    obtain ⟨hrest, hfines⟩ : (scanUpTo (n + 2 + ws.length) y).map shown =
        ws.map (fun w => (w.token, w.text)) ++ ending (lastToken y.lexeme.token ws) ∧
          ∀ scan ∈ scanUpTo (n + 2 + ws.length) y, scan.reports.filterMap Report.error? = [] := by
      cases ws with
      | nil => exact ih y spacing .nil (fun _ => rfl) hends hy
      | cons w' ws => exact ih y _ (spacing 0).isFiller (fun h => by cases h) hends hy
    rw [List.length_cons, ← Nat.add_assoc, hscans, List.map_cons, hshown, hrest, htoken, lastToken_cons]
    refine ⟨rfl, fun scan' hscan => ?_⟩
    rcases List.mem_cons.mp hscan with rfl | hscan
    · exact hfine
    · exact hfines scan' hscan

end Scanner

/-- There is a character to each word at least. -/
theorem length_le_spelledWords (spacing : Nat → Spacing) (ws : List Word) :
    ws.length ≤ (spelledWords spacing ws).length := by
  have hspaced (ws : List Word) : ∀ spacing, ws.length ≤ (spacedWords spacing ws).length := by
    induction ws with
    | nil => exact fun _ => Nat.zero_le _
    | cons w ws ih =>
      intro spacing
      obtain ⟨c, cs, hchars, -⟩ := w.exists_chars
      have hle := ih fun n => spacing (n + 1)
      simp only [spacedWords, hchars, List.length_append, List.length_cons]
      omega
  cases ws with
  | nil => exact Nat.zero_le _
  | cons w ws =>
    obtain ⟨c, cs, hchars, -⟩ := w.exists_chars
    have hle := hspaced ws spacing
    simp only [spelledWords, hchars, List.length_append, List.length_cons]
    omega

/-- What is written as words with spacing between them is divided into these words, of the same classes and
with the same texts, and then the end, with a separator before it if the last word calls for one; and
nothing is wrong with it. -/
theorem tokenize_spelled (ws : List Word) (spacing : Nat → Spacing) (text : String)
    (htext : text.toList = spelledWords spacing ws)
    (hclean : ∀ c ∈ text.toList, c ≠ '\x00' ∧ c ≠ CharStream.byteOrderMark) :
    (tokenize text).1.map (fun l => (l.token, l.text)) = ws.map (fun w => (w.token, w.text)) ++
        ((if ws.getLast?.any fun w => w.token.endsStatement then [(.semi, "EOF")] else []) ++
          [(.eof, "EOF")]) ∧
      (tokenize text).2 = [] := by
  have hbytes : text.toUTF8 = text.toList.utf8Encode := String.utf8Encode_toList.symm
  -- Without NULs the reader in pieces is as good as the whole text at once.
  have hscans : (Reader.ofBytes text.toUTF8).scans =
      (Scanner.ofWindow (Cursor.ofBytes text.toUTF8)).scans :=
    Reader.scans_eq (Utf8.nulsBreakOff_of_not_mem fun hnul => (hclean _ hnul).1 rfl)
      (Reader.delivers_ofBytes _).hands
  have hstart : (Scanner.ofWindow (Cursor.ofBytes text.toUTF8)).stream.Before []
      ([] ++ spelledWords spacing ws) := by
    rw [htext] at hclean hbytes
    rw [hbytes]
    exact CharStream.before_seek rfl rfl hclean fun _ => Array.not_mem_empty _
  have hlength := Nat.le_trans (length_le_spelledWords spacing ws) hstart.length_le_remaining
  obtain ⟨hshown, hfine⟩ := Scanner.scanUpTo_spelled (Scanner.ofWindow (Cursor.ofBytes text.toUTF8)) ws
    spacing .nil (fun _ => rfl) rfl hstart
    ((Scanner.ofWindow (Cursor.ofBytes text.toUTF8)).stream.remaining - ws.length)
  -- Each word takes a character at least, so the scans allowed are enough for all words and the end.
  have hcount : (Scanner.ofWindow (Cursor.ofBytes text.toUTF8)).stream.remaining - ws.length + 2 + ws.length =
      (Scanner.ofWindow (Cursor.ofBytes text.toUTF8)).stream.remaining + 2 := by
    omega
  rw [hcount] at hshown hfine
  unfold tokenize
  rw [hscans]
  dsimp only
  constructor
  · rw [List.map_map]
    refine Eq.trans hshown (congrArg _ ?_)
    unfold Scanner.ending Scanner.lastToken
    cases ws.getLast? <;> rfl
  · exact List.flatMap_eq_nil_iff.mpr hfine

/-- A raw string with a newline, and a comment that ends behind two stars. -/
theorem tokenize_spelled_raw :
    let text := "x\t&^= \x60a\nb\x60 /* **/\r1_.5e+3 ++"
    (tokenize text).1.map (fun l => (l.token, l.text)) =
        [(.name, "x"), (.assignOp, "&^="), (.literal, "\x60a\nb\x60"), (.literal, "1_.5e+3"), (.incOp, "++"),
          (.semi, "EOF"), (.eof, "EOF")] ∧
      (tokenize text).2 = [] := by
  intro text
  -- A raw string over two lines, a float with an exponent, and a comment with a star before its end.
  let raw : Word := .literal .string "\x60a\nb\x60" (by
    have hchars : "\x60a\nb\x60".toList = '\x60' :: (['a', '\n', 'b'] ++ ['\x60']) := by decide
    rw [hchars]
    exact IsString.raw (by decide))
  let float : Word := .literal .float "1_.5e+3" (by
    have hchars : "1_.5e+3".toList = '1' :: (['_'] ++ '.' :: (['5'] ++ 'e' :: (['+'] ++ ['3']))) := by decide
    rw [hchars]
    exact IsFloat.pointed (by decide) (by decide) (by decide) (.inr (.mk (.inl rfl) (by decide) (by decide))))
  let spacing (n : Nat) : Spacing :=
    match n with
    | 0 => ⟨['\t'], '\t', [], rfl, by decide, .nil⟩
    | 2 =>
      have hcomment : IsFiller ('/' :: '*' :: ([' ', '*'] ++ CharStream.closingMarker) ++ ['\r']) :=
        .comment (by decide) (by decide) (.blank (by decide) .nil)
      ⟨" /* **/\r".toList, ' ', _, by decide, by decide, hcomment⟩
    | _ => ⟨[' '], ' ', [], rfl, by decide, .nil⟩
  let ws : List Word := [.name "x" (by decide), .assignOp .andNot rfl, raw, float, .incOp .add rfl]
  have htext : text.toList = spelledWords spacing ws := by decide +kernel
  exact tokenize_spelled ws spacing text htext (by decide +kernel)

end FrontEnd
