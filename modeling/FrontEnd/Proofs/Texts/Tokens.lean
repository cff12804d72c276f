import FrontEnd.Proofs.Gaps.Calls
import FrontEnd.Proofs.Texts.Given
import FrontEnd.Proofs.Texts.Lossy

/-!
# Texts of tokens

Names, keywords and literals carry a text. It is what stands in the bytes from the token's first character up to
the first one behind it, read with replacements and without NUL characters. The stream has given characters on
the way (`CharStream.Spans`); the text is not always made up of these, since what has been passed over in the
token or right behind it is read once more (`Reader.text_heard`).
-/

namespace FrontEnd

/-- Whether the token carries a text. -/
def Token.hasText : Token → Bool
  | .name | .keyword _ | .literal => true
  | _ => false

/-- Marks carry no text. -/
theorem Token.hasText_of_isMark {token : Token} (h : token.isMark) : token.hasText = false := by
  cases token <;> first | rfl | cases h

namespace Scanner

variable {ω : Type}

/-- Both branches of a choice find something without a text. -/
theorem hasText_ite {p : Prop} [Decidable p] {x y : Scanner ω} (hx : x.lexeme.token.hasText = false)
    (hy : y.lexeme.token.hasText = false) : (if p then x else y).lexeme.token.hasText = false := by
  split
  · exact hx
  · exact hy

variable [ByteWindow ω] {s : CharStream ω} {l : Lexeme} {c : Char} {separable : Bool} {x : Scanner ω}

/-- Operators carry no text. -/
theorem hasText_assignable (l : Lexeme) (op : Operator) (s : CharStream ω) :
    (assignable l op s).lexeme.token.hasText = false :=
  hasText_ite rfl rfl

/-- What carries a text, and how it is found at the character. -/
inductive Texted (l : Lexeme) (c : Char) (s : CharStream ω) : Scanner ω → Prop
  | word : isNameStart c → Texted l c s (word l s)
  | number : c.isDigit → Texted l c s (number l (s.number l.place))
  | pointed {d : Char} : c = '.' → s.advance.char? = some d → d.isDigit →
      Texted l c s (number l (s.advance.fraction l.place))
  | string : c = '"' → Texted l c s (quoted l .string (s.advance.stringRest l.place true))
  | rawString : c = '\x60' → Texted l c s (quoted l .string (s.advance.rawStringRest l.place))
  | rune : c = '\'' → Texted l c s (quoted l .rune (s.advance.runeRest l.place true 0))

/-- What starts with a dot carries a text only if it is a number. -/
theorem texted_dot (h : (dot l s).lexeme.token.hasText) : Texted l '.' s (dot l s) := by
  have hnone : (if s.advance.char? = some '.' then
      if s.advance.advance.char? = some '.' then ⟨s.advance.advance.advance, l.withToken .dotDotDot⟩
      else ⟨s.advance.advance.rewind.advance, l.withToken .dot⟩
      else ⟨s.advance, l.withToken .dot⟩ : Scanner ω).lexeme.token.hasText = false :=
    hasText_ite (hasText_ite rfl rfl) rfl
  unfold dot at h ⊢
  dsimp only at h ⊢
  split
  · next hdigit =>
    obtain ⟨d, hd, hdigit⟩ := (Option.any_eq_true _ _).mp hdigit
    exact .pointed rfl hd hdigit
  · next hdigit =>
    rw [if_neg hdigit, hnone] at h
    cases h

/-- Whatever carries a text is found in one of these ways. -/
theorem texted_of_attemptAt (h : attemptAt separable l c s = .found x) (htext : x.lexeme.token.hasText) :
    Texted l c s x := by
  -- Marks and operators have no text of their own, so their branches are excluded by `htext`.
  have hnone {y : Scanner ω} (hy : y.lexeme.token.hasText = false) : y ≠ x := by
    rintro rfl
    rw [hy] at htext
    cases htext
  have hsign {d : Char} {op : Operator} : (sign l d op s).lexeme.token.hasText = false :=
    hasText_ite rfl (hasText_assignable ..)
  have hangle {d : Char} {strict loose shift : Operator} :
      (angle l d strict loose shift s).lexeme.token.hasText = false :=
    hasText_ite rfl (hasText_ite (hasText_assignable ..) rfl)
  have hslash (h : slash separable l s = .found x) : False := by
    unfold slash at h
    dsimp only at h
    split at h
    · cases h
    · split at h
      · split at h
        · exact hnone rfl (Attempt.found.inj h)
        · cases h
      · exact hnone (hasText_assignable ..) (Attempt.found.inj h)
  -- What remains are words and the five kinds of literals.
  unfold attemptAt at h
  split at h
  · next hname =>
    cases h
    exact .word hname
  · split at h
    · next hdigit =>
      cases h
      exact .number hdigit
    · split at h
      case h_1 | h_2 => exact absurd (Attempt.found.inj h) (hnone rfl)
      case h_3 => cases h; exact .string rfl
      case h_4 => cases h; exact .rawString rfl
      case h_5 => cases h; exact .rune rfl
      case h_6 | h_10 | h_18 | h_19 => exact absurd (Attempt.found.inj h) (hnone (hasText_ite rfl rfl))
      case h_7 => cases h; exact texted_dot htext
      case h_8 | h_9 => exact absurd (Attempt.found.inj h) (hnone hsign)
      case h_11 => exact (hslash h).elim
      case h_12 | h_15 => exact absurd (Attempt.found.inj h) (hnone (hasText_assignable ..))
      case h_13 =>
        refine absurd (Attempt.found.inj h) (hnone ?_)
        exact hasText_ite rfl (hasText_ite (hasText_assignable ..) (hasText_assignable ..))
      case h_14 => exact absurd (Attempt.found.inj h) (hnone (hasText_ite rfl (hasText_assignable ..)))
      case h_16 | h_17 => exact absurd (Attempt.found.inj h) (hnone hangle)
      case h_20 =>
        split at h
        · next hp =>
          have hmark := Token.hasText_of_isMark (Token.isMark_of_ofPunctuation? hp)
          exact absurd (Attempt.found.inj h) (hnone hmark)
        · cases h

namespace Texted

/-- The text is what is marked. -/
theorem literal_eq (h : Texted l c s x) : x.lexeme.literal = x.stream.markedText := by cases h <;> rfl

/-- Whether it is a keyword is decided by the text. -/
theorem token_eq (h : Texted l c s x) : x.lexeme.token = .literal ∨
    x.lexeme.token = (Keyword.ofSpelling? x.lexeme.literal).elim .name .keyword := by
  cases h with
  | word => exact .inr rfl
  | _ => exact .inl rfl

/-- It is found by going on. -/
theorem stream_of_onward {P : CharStream ω → Prop} (h : Texted l c s x) (hc : s.char? = some c)
    (hP : Onward l.place fun t u : CharStream ω => t = u ∧ P t) (hs : P s) : P x.stream := by
  have hat := hP.advance (Option.isSome_of_eq_some hc) ⟨rfl, hs⟩
  cases h with
  | word => exact (hP.skipWhile isNamePart hat).2
  | number => exact (hP.number ⟨rfl, hs⟩).2.2
  | pointed => exact (hP.fraction hat).2.2
  | string => exact (hP.stringRest true hat).2.2
  | rawString => exact (hP.rawStringRest hat).2.2
  | rune => exact (hP.runeRest true 0 hat).2.2

end Texted

end Scanner

namespace CharStream

variable {r : Reader} {bytes : ByteArray} {exact : Prop} {mark? : Option Nat} {s t : CharStream Buffer}
  {fs : List Fetched}

/-- From `s`, where the mark is, up to `t` stand the items, and what is heard of them has been given. -/
structure Spans (r : Reader) (bytes : ByteArray) (s t : CharStream Buffer) (fs : List Fetched) : Prop where
  origin : s.Sited r bytes False (some (s.offset r.bytesLeft))
  sited : t.Sited r bytes False (some (s.offset r.bytesLeft))
  decodes : Decodes r bytes (s.offset r.bytesLeft) fs (t.offset r.bytesLeft)
  gives : s.Gives (heard fs) t

namespace Spans

/-- A stream that has not gone on spans nothing. -/
theorem nil (h : s.Sited r bytes exact (some (s.offset r.bytesLeft))) : Spans r bytes s s [] where
  origin := h.mono False.elim
  sited := h.mono False.elim
  decodes := .nil h.offset_le
  gives := .refl s

/-- Going on spans what is passed as well. -/
theorem exists_advance (h : Spans r bytes s t fs) {c : Char} (hc : t.char? = some c) :
    ∃ gs, Spans r bytes s t.advance gs := by
  obtain ⟨gs, told, hsited, hrun, hheard⟩ := h.sited.advance
  refine ⟨fs ++ gs, h.origin, hsited, h.decodes.append hrun.account.decodes, ?_⟩
  rw [heard_append, hheard, hc]
  exact h.gives.advance hc

/-- A complaint does not change what is spanned. -/
theorem complainAt (h : Spans r bytes s t fs) (place : Place) (fault : LexFault) :
    Spans r bytes s (t.complainAt place fault) fs :=
  ⟨h.origin, h.sited.report _, h.decodes, h.gives⟩

/-- The text since the mark is what the items are read as. -/
theorem markedText_eq (h : Spans r bytes s t fs) :
    ∃ cs, ReadAs fs cs ∧ t.markedText.toList = cs.filter (· ≠ '\x00') := by
  refine ⟨_, h.decodes.readAs (k := 0), ?_⟩
  unfold markedText
  rw [String.toList_ofList, h.sited.marked_eq]
  rfl

end Spans

/-- Going on spans some items, whatever is told. -/
theorem onward_spans (r : Reader) (bytes : ByteArray) (s : CharStream Buffer) (start : Place) :
    Onward start fun t u : CharStream Buffer => t = u ∧ ∃ fs, Spans r bytes s t fs := by
  refine .of_invariant start ?_ (fun _ => ?_) fun _ => ?_
  · rintro t hc ⟨fs, h⟩
    obtain ⟨c, hc⟩ := Option.isSome_iff_exists.mp hc
    exact h.exists_advance hc
  · rintro ⟨fs, h⟩
    exact ⟨fs, h.complainAt _ _⟩
  · rintro ⟨fs, h⟩
    exact ⟨fs, h.complainAt _ _⟩

end CharStream

namespace Reader

variable {r : Reader} {bytes : ByteArray} {n : Nat} {scan : Scan}

/-- The scanner before the scan of a reader with the given number. -/
def before (r : Reader) (n : Nat) : Scanner Buffer := (Scanner.ofWindow (Buffer.ofReader r)).after n

/-- A lexeme that carries a text is found by going on from its first character. -/
theorem exists_texted (hr : r.Hands bytes none) (h : r.scans[n]? = some scan)
    (htext : scan.lexeme.token.hasText) :
    scan.lexeme = (r.before n).next.lexeme ∧ scan.lexeme.place = (r.before n).start.place ∧
      (∃ l c, (r.before n).start.char? = some c ∧
        Scanner.Texted l c (r.before n).start (r.before n).next) ∧
      ∃ fs, (r.before n).start.Spans r bytes (r.before n).next.stream fs := by
  have hlexeme : scan.lexeme = (r.before n).next.lexeme := Scanner.lexeme_of_scanUpTo h
  rw [hlexeme] at htext ⊢
  obtain ⟨-, -, hopening, -⟩ := Scanner.opening hr
  obtain ⟨mark?, hsited⟩ := Scanner.sited_after hopening n
  obtain ⟨ps, told, happroach, hfinds⟩ := Scanner.call hsited
  change CharStream.Finds r bytes _ (r.before n).lexeme.endsStatement
    { (r.before n).lexeme.cleared with place := (r.before n).start.place }
    (r.before n).start (r.before n).next at hfinds
  generalize hx : (r.before n).next = x at hfinds htext
  -- Of what a call may end in only a token that was found has a text.
  cases hfinds with
  | ended => split at htext <;> cases htext
  | newline | comment => cases htext
  | token hc hstarts hslash hattempt =>
    have htexted := Scanner.texted_of_attemptAt hattempt htext
    refine ⟨rfl, (Scanner.found_attemptAt hattempt).place_eq, ⟨_, _, hc, htexted⟩, ?_⟩
    exact htexted.stream_of_onward hc (CharStream.onward_spans r bytes _ _) ⟨[], .nil happroach.sited⟩

/-- A name, a keyword or a literal carries the text of what stands in the bytes from its first character up to
the first one behind it, and by this text a name is told from a keyword. Except for byte order marks, NUL
characters and replacements, the text is what the stream gives on the way. Altogether it is that exactly if
there is nothing but characters that are heard and NUL bytes that are noticed. -/
theorem text_heard (hr : r.Hands bytes none) (h : r.scans[n]? = some scan)
    (htext : scan.lexeme.token.hasText) :
    scan.lexeme.place = (r.before n).start.place ∧
      (scan.lexeme.token = .literal ∨
        scan.lexeme.token = (Keyword.ofSpelling? scan.lexeme.literal).elim .name .keyword) ∧
      ∃ fs, (r.before n).start.Gives (heard fs) (r.before n).next.stream ∧
        Decodes r bytes ((r.before n).start.offset r.bytesLeft) fs
          ((r.before n).next.stream.offset r.bytesLeft) ∧
        (∀ p : Char → Bool, p '\x00' = false → p CharStream.byteOrderMark = false →
          p Utf8.replacement = false → scan.lexeme.literal.toList.filter p = (heard fs).filter p) ∧
        (scan.lexeme.literal.toList = heard fs ↔ ∀ f ∈ fs, f.isPlain) := by
  obtain ⟨hlexeme, hplace, ⟨l, c, hc, htexted⟩, fs, hspans⟩ := exists_texted hr h htext
  obtain ⟨cs, hread, hmarked⟩ := hspans.markedText_eq
  have hliteral : scan.lexeme.literal.toList = cs.filter (· ≠ '\x00') := by
    rw [hlexeme, htexted.literal_eq, hmarked]
  refine ⟨hplace, ?_, fs, hspans.gives, hspans.decodes, fun p hnul hmark hreplacement => ?_, ?_⟩
  · rw [hlexeme]
    exact htexted.token_eq
  · -- A test that rejects NUL, mark and replacement does not see where text and input may differ.
    have hp : ∀ c ∈ cs, p c = (p c && decide (c ≠ '\x00')) := fun c _ => by
      by_cases hc : c = '\x00'
      · rw [hc, hnul, Bool.false_and]
      · rw [decide_eq_true hc, Bool.and_true]
    rw [hliteral, List.filter_filter, ← List.filter_congr hp]
    exact hread.filter_eq hnul hmark hreplacement
  · rw [hliteral]
    exact hread.filter_eq_heard_iff

/-- A byte order mark right behind a keyword is no part of what is heard, but it makes a name of it. -/
theorem text_heard_mark :
    let bytes := ByteArray.mk #[0x69, 0x66, 0xef, 0xbb, 0xbf, 0x20, 0x78]
    let r := ofBytes bytes
    r.Hands bytes none ∧ ∃ scan, r.scans[0]? = some scan ∧ scan.lexeme.token = .name ∧
      scan.lexeme.literal.toList = ['i', 'f', CharStream.byteOrderMark] ∧
      ∃ fs, (r.before 0).start.Gives (heard fs) (r.before 0).next.stream ∧
        (heard fs).filter Char.isAlpha = ['i', 'f'] ∧ CharStream.byteOrderMark ∉ heard fs := by
  intro bytes r
  have hr : r.Hands bytes none := (delivers_ofBytes bytes).hands
  have hfirst : r.scans[0]?.any (fun scan => scan.lexeme.token = .name ∧
      scan.lexeme.literal.toList = ['i', 'f', CharStream.byteOrderMark]) := by
    decide +kernel
  obtain ⟨scan, hscan, htoken⟩ := (Option.any_eq_true _ _).mp hfirst
  obtain ⟨hname, hliteral⟩ := of_decide_eq_true htoken
  have htext : scan.lexeme.token.hasText := by rw [hname]; rfl
  obtain ⟨-, -, fs, hgives, -, hfilter, -⟩ := text_heard hr hscan htext
  -- The mark is in the text and is not heard; the letters are in both.
  have halpha := hfilter Char.isAlpha (by decide) (by decide) (by decide)
  rw [hliteral] at halpha
  refine ⟨hr, scan, hscan, hname, hliteral, fs, hgives, halpha.symm, fun hmark => ?_⟩
  obtain ⟨f, -, hf⟩ := List.mem_filterMap.mp hmark
  rw [Fetched.eq_char_of_heard? hf] at hf
  cases hf

end Reader

end FrontEnd
