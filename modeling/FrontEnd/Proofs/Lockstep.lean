import FrontEnd.Scanner

/-!
# Scanners in lockstep

A scanner only does a few things to its stream: it goes on, forgets the mark, cuts out what was marked,
and tells what is wrong with a token or comment, at the current character or where the token starts;
between tokens it sets the mark, and of two dots it goes back to the first. So a relation between two
streams that these few things keep is kept by all that a scanner does, and both find the same. Taken
of one stream and itself, such a relation is an invariant.
-/

namespace FrontEnd

variable {ω ω' : Type} [ByteWindow ω] [ByteWindow ω']

/-- Whether a token is malformed. The other faults are those of the bytes, of the reader, and of what is
between tokens. -/
def LexFault.isMalformation : LexFault → Bool
  | .nulCharacter | .malformedText | .strayByteOrderMark | .reading _ | .unexpectedCharacter _
  | .unterminatedComment => false
  | _ => true

/-- A relation between streams that look the same and that going on from a character other than a slash does
not take apart, nor telling what is wrong with the token that starts at `start`. Only comments, divisions
and what is quoted have slashes in them. -/
structure Along (start : Place) (R : CharStream ω → CharStream ω' → Prop) : Prop where
  char?_eq : ∀ {s t}, R s t → s.char? = t.char?
  place_eq : ∀ {s t}, R s t → s.place = t.place
  marked_eq : ∀ {s t}, R s t → s.marked = t.marked
  pass : ∀ {s t c}, s.char? = some c → c ≠ '/' → R s t → R s.advance t.advance
  complain : ∀ {s t fault}, fault.isMalformation → R s t → R (s.complain fault) (t.complain fault)
  blame : ∀ {s t fault}, fault.isMalformation → R s t →
    R (s.complainAt start fault) (t.complainAt start fault)

/-- Such a relation that going on from any character does not take apart. -/
structure Onward (start : Place) (R : CharStream ω → CharStream ω' → Prop) : Prop extends
    Along start R where
  advance : ∀ {s t}, s.char?.isSome → R s t → R s.advance t.advance
  pass hc _ h := advance (Option.isSome_of_eq_some hc) h

/-- Such a relation that passing over something between tokens does not take apart: a comment may ask for
more at the end of the input, take the mark with it, be reported or be left open, and a character may be
rejected. -/
structure Forward (start : Place) (R : CharStream ω → CharStream ω' → Prop) : Prop extends
    Onward start R where
  goOn : ∀ {s t}, R s t → R s.advance t.advance
  clearMark : ∀ {s t}, R s t → R s.clearMark t.clearMark
  reportDirective : ∀ {s t}, R s t → R (s.reportDirective start) (t.reportDirective start)
  reject : ∀ {s t c}, R s t → R (s.complainAt start (.unexpectedCharacter c))
    (t.complainAt start (.unexpectedCharacter c))
  leaveOpen : ∀ {s t}, R s t → R (s.complainAt start .unterminatedComment)
    (t.complainAt start .unterminatedComment)

/-- Such a relation that nothing a scanner does to find a token takes apart. -/
structure Finding (R : CharStream ω → CharStream ω' → Prop) : Prop where
  toForward : ∀ start, Forward start R
  setMark : ∀ {s t}, R s t → R s.setMark t.setMark
  rewind : ∀ {s t}, R s t → R s.rewind t.rewind

/-- A relation between streams that look and report the same and that nothing takes apart. -/
structure Lockstep (R : CharStream ω → CharStream ω' → Prop) : Prop extends Finding R where
  reports_eq : ∀ {s t}, R s t → s.reports = t.reports
  dropReports : ∀ {s t}, R s t → R s.dropReports t.dropReports

/-- The same results, with streams in lockstep. -/
def InStep {α : Type} (R : CharStream ω → CharStream ω' → Prop) (x : α × CharStream ω)
    (y : α × CharStream ω') : Prop :=
  x.1 = y.1 ∧ R x.2 y.2

/-- Scanners that have found the same, with streams in lockstep. -/
def Scanner.InStep (R : CharStream ω → CharStream ω' → Prop) (s : Scanner ω) (t : Scanner ω') :
    Prop :=
  s.lexeme = t.lexeme ∧ R s.stream t.stream

/-- Where the attempt has come to. -/
def Attempt.stream {ω : Type} : Attempt ω → CharStream ω
  | .found x => x.stream
  | .passed s => s

/-- Attempts that come to the same, with streams in lockstep. -/
inductive Attempt.InStep (R : CharStream ω → CharStream ω' → Prop) : Attempt ω → Attempt ω' → Prop
  | found {s t} : s.InStep R t → InStep R (.found s) (.found t)
  | passed {s t} : R s t → InStep R (.passed s) (.passed t)

/-- What going on keeps of a single stream, put as a relation. -/
theorem Onward.of_invariant {P : CharStream ω → Prop} (start : Place)
    (advance : ∀ {s}, s.char?.isSome → P s → P s.advance)
    (complain : ∀ {s fault}, fault.isMalformation → P s → P (s.complain fault))
    (blame : ∀ {s fault}, fault.isMalformation → P s → P (s.complainAt start fault)) :
    Onward start fun s t : CharStream ω => s = t ∧ P s where
  char?_eq h := congrArg CharStream.char? h.1
  place_eq h := congrArg CharStream.place h.1
  marked_eq h := congrArg CharStream.marked h.1
  advance := by
    rintro s _ hc ⟨rfl, h⟩
    exact ⟨rfl, advance hc h⟩
  complain := by
    rintro s _ fault hf ⟨rfl, h⟩
    exact ⟨rfl, complain hf h⟩
  blame := by
    rintro s _ fault hf ⟨rfl, h⟩
    exact ⟨rfl, blame hf h⟩

/-- A relation between streams that look the same and that nothing takes apart that is told. -/
theorem Forward.of_report {R : CharStream ω → CharStream ω' → Prop} (start : Place)
    (char?_eq : ∀ {s t}, R s t → s.char? = t.char?) (place_eq : ∀ {s t}, R s t → s.place = t.place)
    (marked_eq : ∀ {s t}, R s t → s.marked = t.marked)
    (advance : ∀ {s t}, R s t → R s.advance t.advance)
    (report : ∀ {s t} r, R s t → R (s.report r) (t.report r))
    (clearMark : ∀ {s t}, R s t → R s.clearMark t.clearMark) : Forward start R where
  char?_eq := char?_eq
  place_eq := place_eq
  marked_eq := marked_eq
  advance _ := advance
  goOn := advance
  -- What is reported is computed from the place and the segment, which are the same on both sides.
  complain := by
    intro s t fault _ h
    unfold CharStream.complain
    rw [place_eq h]
    exact report _ h
  blame _ h := report _ h
  clearMark := clearMark
  -- Likewise for a directive.
  reportDirective := by
    intro s t h
    unfold CharStream.reportDirective
    rw [marked_eq h]
    exact report _ h
  reject h := report _ h
  leaveOpen h := report _ h

/-- What going forward keeps of a single stream, whatever is told, put as a relation. -/
theorem Forward.of_invariant {P : CharStream ω → Prop} (start : Place)
    (advance : ∀ {s}, P s → P s.advance) (report : ∀ {s} r, P s → P (s.report r))
    (clearMark : ∀ {s}, P s → P s.clearMark) :
    Forward start fun s t : CharStream ω => s = t ∧ P s := by
  refine .of_report start (fun h => congrArg _ h.1) (fun h => congrArg _ h.1)
    (fun h => congrArg _ h.1) ?_ ?_ ?_
  · rintro s _ ⟨rfl, h⟩
    exact ⟨rfl, advance h⟩
  · rintro s _ r ⟨rfl, h⟩
    exact ⟨rfl, report r h⟩
  · rintro s _ ⟨rfl, h⟩
    exact ⟨rfl, clearMark h⟩

omit [ByteWindow ω] in
/-- A complaint that is made once, or not any more, does not go on. -/
theorem CharStream.char?_complainOnce (start : Place) (fine : Bool) (fault : LexFault)
    (s : CharStream ω) : (s.complainOnce start fine fault).char? = s.char? := by
  unfold complainOnce
  split <;> rfl

/-- A case distinction that both make alike. -/
theorem Onward.ite {β β' : Type} {Q : β → β' → Prop} {p : Prop} [Decidable p] {x y : β} {x' y' : β'}
    (hx : p → Q x x') (hy : ¬p → Q y y') : Q (if p then x else y) (if p then x' else y') := by
  split
  · next h => exact hx h
  · next h => exact hy h

/-- What going on from the characters in `p` keeps, passing over all of them keeps. -/
theorem CharStream.skipWhile_of_pass {R : CharStream ω → CharStream ω' → Prop} {p : Char → Bool}
    {s : CharStream ω} {t : CharStream ω'} (heq : ∀ {s t}, R s t → s.char? = t.char?)
    (hpass : ∀ {s t c}, s.char? = some c → p c → R s t → R s.advance t.advance) (h : R s t) :
    R (s.skipWhile p) (t.skipWhile p) := by
  fun_induction CharStream.skipWhile p s generalizing t with
  | case1 s hp ih =>
    obtain ⟨c, hc, hpc⟩ := (Option.any_eq_true _ _).mp hp
    rw [CharStream.skipWhile.eq_def p t, if_pos (by rwa [← heq h])]
    exact ih (hpass hc hpc h)
  | case2 s hp =>
    rw [CharStream.skipWhile.eq_def p t, if_neg (by rwa [← heq h])]
    exact h

/-- Seeking leads from `N` to `R` if fetching does, with the same found, and passing a character leads back. -/
theorem CharStream.seek_of_fetch {N R : CharStream ω → CharStream ω' → Prop} {s : CharStream ω}
    {t : CharStream ω'}
    (hfetch : ∀ {s t}, N s t → (ByteWindow.fetch s.window).1 = (ByteWindow.fetch t.window).1 ∧
      R (s.receive (ByteWindow.fetch s.window)) (t.receive (ByteWindow.fetch t.window)))
    (hpass : ∀ {s t}, R s t → N s.passChar t.passChar) (h : N s t) : R s.seek t.seek := by
  fun_induction CharStream.seek s generalizing t with
  | case1 s hp ih =>
    obtain ⟨hsame, hreceived⟩ := hfetch h
    rw [CharStream.seek.eq_def t, if_pos (by rwa [← hsame])]
    exact ih (hpass hreceived)
  | case2 s hp =>
    obtain ⟨hsame, hreceived⟩ := hfetch h
    rw [CharStream.seek.eq_def t, if_neg (by rwa [← hsame])]
    exact hreceived

/-- What is fetched next does not depend on the current character. -/
theorem CharStream.seek_with (s : CharStream ω) (char? : Option Char) (width : Nat) :
    ({ s with char?, width } : CharStream ω).seek = s.seek := by
  have hreceive (fetched : Fetched × ω) :
      ({ s with char?, width } : CharStream ω).receive fetched = s.receive fetched := by
    obtain ⟨f, w⟩ := fetched
    have hfault : ({ s with char?, width } : CharStream ω).fault? f = s.fault? f := by cases f <;> rfl
    unfold receive
    dsimp only
    rw [hfault]
  rw [seek.eq_def, seek.eq_def s, hreceive]

/-! ## No slash -/

/-- A slash is no digit. -/
theorem ne_slash_of_digit? {radix : Radix} {c : Char} (h : (radix.digit? c).isSome) : c ≠ '/' := by
  rintro rfl
  cases radix <;> exact absurd h (by decide)

/-- A slash does not stand for a radix. -/
theorem ne_slash_of_ofLetter? {c : Char} (h : (Radix.ofLetter? c).isSome) : c ≠ '/' := by
  rintro rfl
  exact absurd h (by decide)

/-- A slash is no digit of an escape. -/
theorem ne_slash_of_escape {e : NumericEscape} {c : Char} (h : (e.digit? c).isSome) : c ≠ '/' := by
  rintro rfl
  cases e <;> exact absurd h (by decide)

/-- A slash cannot be escaped, except where it quotes. -/
theorem ne_slash_of_isPlainEscape {quote c : Char} (h : isPlainEscape quote c) (hq : quote ≠ '/') :
    c ≠ '/' := by
  rintro rfl
  unfold isPlainEscape at h
  rw [Bool.or_eq_true, decide_eq_true_eq] at h
  exact h.elim (fun h => hq h.symm) fun h => absurd h (by decide)

namespace Along

variable {start : Place} {R : CharStream ω → CharStream ω' → Prop} (hR : Along start R)
  {s : CharStream ω} {t : CharStream ω'} {α : Type}
include hR

/-! ## Characters -/

/-- Characters that are skipped keep the streams along, unless a slash may be among them. -/
theorem skipWhile (p : Char → Bool) (hp : p '/' = false) (h : R s t) :
    R (s.skipWhile p) (t.skipWhile p) := by
  refine CharStream.skipWhile_of_pass hR.char?_eq (fun hc hpc h => hR.pass hc ?_ h) h
  rintro rfl
  rw [hp] at hpc
  cases hpc

/-- A word without a slash is found, or not, in both. -/
theorem accept (word : List Char) (hword : '/' ∉ word) (h : R s t) :
    InStep R (CharStream.accept word s) (CharStream.accept word t) := by
  induction word generalizing s t with
  | nil => exact ⟨rfl, h⟩
  | cons c word ih =>
    rw [List.mem_cons, not_or] at hword
    unfold CharStream.accept
    rw [hR.char?_eq h]
    split
    · next hc => exact ih hword.2 (hR.pass ((hR.char?_eq h).trans hc) (Ne.symm hword.1) h)
    · exact ⟨rfl, h⟩

/-- What is marked is the same text in both. -/
theorem markedText_eq (h : R s t) : s.markedText = t.markedText := by
  unfold CharStream.markedText
  rw [hR.marked_eq h]

/-! ## Numbers -/

/-- The same digits are passed in both. -/
theorem digits (radix : Radix) (run : DigitRun) (h : R s t) :
    InStep R (s.digits radix run) (t.digits radix run) := by
  induction hn : s.remaining using Nat.strongRecOn generalizing s t run with
  | ind n ih =>
    subst hn
    rw [CharStream.digits_eq radix run s, CharStream.digits_eq radix run t, ← hR.char?_eq h]
    cases hc : s.char? with
    | none => exact ⟨rfl, h⟩
    | some c =>
      have hlt := s.remaining_advance_lt (Option.isSome_of_eq_some hc)
      dsimp only
      refine Onward.ite (fun hscore => ih _ hlt run (hR.pass hc (hscore ▸ by decide) h) rfl) fun _ => ?_
      cases hd : radix.digit? c with
      | none => exact ⟨rfl, h⟩
      | some value => exact ih _ hlt _ (hR.pass hc (ne_slash_of_digit? (Option.isSome_of_eq_some hd)) h) rfl

/-- The same exponent is passed in both. -/
theorem exponent (kind : LitKind) (h : R s t) :
    InStep R (s.exponent start kind) (t.exponent start kind) := by
  unfold CharStream.exponent
  dsimp only
  rw [← hR.char?_eq h]
  refine Onward.ite (fun he => ?_) fun _ => ⟨rfl, h⟩
  have ha : R s.advance t.advance :=
    he.elim (fun hc => hR.pass hc (by decide) h) fun hc => hR.pass hc (by decide) h
  rw [← hR.char?_eq ha]
  obtain ⟨h₁, h₂⟩ := hR.digits .decimal .none
    (s := if s.advance.char? = some '+' ∨ s.advance.char? = some '-' then s.advance.advance else s.advance)
    (t := if s.advance.char? = some '+' ∨ s.advance.char? = some '-' then t.advance.advance else t.advance)
    (Onward.ite (fun hsign => hsign.elim (fun hc => hR.pass hc (by decide) ha)
      fun hc => hR.pass hc (by decide) ha) fun _ => ha)
  rw [← h₁]
  exact Onward.ite (fun _ => ⟨rfl, hR.blame rfl h₂⟩) fun _ => ⟨rfl, h₂⟩

/-- The same fraction is passed in both. -/
theorem fraction (h : R s t) : InStep R (s.fraction start) (t.fraction start) :=
  hR.exponent .float (hR.digits .decimal .none h).2

/-- The same decimal number is passed in both. -/
theorem decimal (h : R s t) : InStep R (s.decimal start) (t.decimal start) := by
  have hd := (hR.digits .decimal .none h).2
  unfold CharStream.decimal
  dsimp only
  rw [← hR.char?_eq hd]
  exact Onward.ite (fun hc => hR.fraction (hR.pass hc (by decide) hd)) fun _ => hR.exponent .int hd

/-- The same number with a prefix for its radix is passed in both. -/
theorem markedInteger (radix : Radix) (h : R s t) :
    InStep R (s.markedInteger start radix) (t.markedInteger start radix) := by
  obtain ⟨h₁, h₂⟩ := hR.digits radix .none h
  unfold CharStream.markedInteger
  dsimp only
  rw [← h₁]
  refine Onward.ite (fun _ => ⟨rfl, hR.blame rfl h₂⟩) fun _ => ?_
  cases (s.digits radix .none).1.stray? with
  | none => exact ⟨rfl, h₂⟩
  | some c => exact ⟨rfl, hR.blame rfl h₂⟩

/-- The same number is passed in both. -/
theorem number (h : R s t) : InStep R (s.number start) (t.number start) := by
  unfold CharStream.number
  rw [← hR.char?_eq h]
  refine Onward.ite (fun hzero => ?_) fun _ => hR.decimal h
  have ha := hR.pass hzero (by decide) h
  rw [← hR.char?_eq ha]
  cases hradix : s.advance.char?.bind Radix.ofLetter? with
  | none => exact hR.decimal ha
  | some radix =>
    obtain ⟨c, hc, hletter⟩ := Option.bind_eq_some_iff.mp hradix
    exact hR.markedInteger radix
      (hR.pass hc (ne_slash_of_ofLetter? (Option.isSome_of_eq_some hletter)) ha)

/-! ## Escapes -/

/-- The same digits of an escape are passed in both, and what is wrong with them is told in both. -/
theorem escapeDigits (e : NumericEscape) (n value : Nat) (h : R s t) :
    InStep R (s.escapeDigits e n value) (t.escapeDigits e n value) := by
  induction n generalizing value s t with
  | zero => exact Onward.ite (fun _ => ⟨rfl, h⟩) fun _ => ⟨rfl, hR.complain rfl h⟩
  | succ n ih =>
    unfold CharStream.escapeDigits
    rw [← hR.char?_eq h]
    cases hc : s.char? with
    | none => exact ⟨rfl, h⟩
    | some c =>
      dsimp only
      cases hd : e.digit? c with
      | none => exact ⟨rfl, hR.complain rfl h⟩
      | some d => exact ih _ (hR.pass hc (ne_slash_of_escape (Option.isSome_of_eq_some hd)) h)

/-- The same escape is passed in both. -/
theorem escape (quote : Char) (hq : quote ≠ '/') (h : R s t) :
    InStep R (s.escape quote) (t.escape quote) := by
  unfold CharStream.escape
  rw [← hR.char?_eq h]
  cases hc : s.char? with
  | none => exact ⟨rfl, h⟩
  | some c =>
    have ha {d : Char} (hd : c = d) (hslash : d ≠ '/') : R s.advance t.advance :=
      hR.pass hc (hd ▸ hslash) h
    exact Onward.ite (fun hplain => ⟨rfl, hR.pass hc (ne_slash_of_isPlainEscape hplain hq) h⟩) fun _ =>
      Onward.ite (fun _ => hR.escapeDigits .octal 3 0 h) fun _ =>
      Onward.ite (fun hd => hR.escapeDigits .hexadecimal 2 0 (ha hd (by decide))) fun _ =>
      Onward.ite (fun hd => hR.escapeDigits .unicode 4 0 (ha hd (by decide))) fun _ =>
      Onward.ite (fun hd => hR.escapeDigits .unicode 8 0 (ha hd (by decide))) fun _ =>
      ⟨rfl, hR.complain rfl h⟩

/-- What is wrong with a token is told in both, or in neither. -/
theorem complainOnce (fine : Bool) {fault : LexFault} (hf : fault.isMalformation) (h : R s t) :
    R (s.complainOnce start fine fault) (t.complainOnce start fine fault) :=
  Onward.ite (fun _ => hR.blame hf h) fun _ => h

/-! ## Tokens -/

/-- The same word is found in both. -/
theorem word (l : Lexeme) {c : Char} (hc : s.char? = some c) (hslash : c ≠ '/') (h : R s t) :
    (Scanner.word l s).InStep R (Scanner.word l t) := by
  have hw := hR.skipWhile isNamePart (by decide) (hR.pass hc hslash h)
  refine ⟨?_, hw⟩
  unfold Scanner.word
  dsimp only
  rw [hR.markedText_eq hw]

/-- The same literal is found in both, since its text is what is marked. -/
theorem literal (l : Lexeme) (kind : LitKind) (bad : Bool) (h : R s t) :
    (Scanner.literal l kind bad s).InStep R (Scanner.literal l kind bad t) := by
  refine ⟨?_, h⟩
  unfold Scanner.literal
  rw [hR.markedText_eq h]

/-- The same number is found in both once both have passed it. -/
theorem foundNumber (l : Lexeme) {x : LiteralShape × CharStream ω} {y : LiteralShape × CharStream ω'}
    (h : InStep R x y) : (Scanner.number l x).InStep R (Scanner.number l y) := by
  unfold Scanner.number
  rw [h.1]
  exact hR.literal l _ _ h.2

/-- The same string or rune is found in both once both have passed it. -/
theorem quoted (l : Lexeme) (kind : LitKind) {x : Bool × CharStream ω} {y : Bool × CharStream ω'}
    (h : InStep R x y) : (Scanner.quoted l kind x).InStep R (Scanner.quoted l kind y) := by
  unfold Scanner.quoted
  rw [h.1]
  exact hR.literal l kind _ h.2

/-- The same operator is found in both, joined with `=` or not. -/
theorem assignable (l : Lexeme) (op : Operator) (h : R s t) :
    (Scanner.assignable l op s).InStep R (Scanner.assignable l op t) := by
  unfold Scanner.assignable
  rw [← hR.char?_eq h]
  exact Onward.ite (fun hc => ⟨rfl, hR.pass hc (by decide) h⟩) fun _ => ⟨rfl, h⟩

/-- What starts with a colon is the same token in both. -/
theorem colon (l : Lexeme) (h : R s.advance t.advance) :
    (Scanner.colon l s).InStep R (Scanner.colon l t) := by
  unfold Scanner.colon
  dsimp only
  rw [← hR.char?_eq h]
  exact Onward.ite (fun hc => ⟨rfl, hR.pass hc (by decide) h⟩) fun _ => ⟨rfl, h⟩

/-- What starts with a sign is the same token in both. -/
theorem sign (l : Lexeme) (c : Char) (hslash : c ≠ '/') (op : Operator) (h : R s.advance t.advance) :
    (Scanner.sign l c op s).InStep R (Scanner.sign l c op t) := by
  unfold Scanner.sign
  dsimp only
  rw [← hR.char?_eq h]
  exact Onward.ite (fun hc => ⟨rfl, hR.pass hc hslash h⟩) fun _ => hR.assignable l op h

/-- What starts with a star is the same token in both. -/
theorem star (l : Lexeme) (h : R s.advance t.advance) :
    (Scanner.star l s).InStep R (Scanner.star l t) := by
  unfold Scanner.star
  dsimp only
  rw [← hR.char?_eq h]
  exact Onward.ite (fun hc => ⟨rfl, hR.pass hc (by decide) h⟩) fun _ => ⟨rfl, h⟩

/-- What starts with an ampersand is the same token in both. -/
theorem ampersand (l : Lexeme) (h : R s.advance t.advance) :
    (Scanner.ampersand l s).InStep R (Scanner.ampersand l t) := by
  unfold Scanner.ampersand
  dsimp only
  rw [← hR.char?_eq h]
  exact Onward.ite (fun hc => ⟨rfl, hR.pass hc (by decide) h⟩) fun _ =>
    Onward.ite (fun hc => hR.assignable l .andNot (hR.pass hc (by decide) h)) fun _ =>
    hR.assignable l .and h

/-- What starts with a bar is the same token in both. -/
theorem bar (l : Lexeme) (h : R s.advance t.advance) :
    (Scanner.bar l s).InStep R (Scanner.bar l t) := by
  unfold Scanner.bar
  dsimp only
  rw [← hR.char?_eq h]
  exact Onward.ite (fun hc => ⟨rfl, hR.pass hc (by decide) h⟩) fun _ => hR.assignable l .or h

/-- What starts with an angle bracket is the same token in both. -/
theorem angle (l : Lexeme) (c : Char) (hslash : c ≠ '/') (strict loose shift : Operator)
    (h : R s.advance t.advance) :
    (Scanner.angle l c strict loose shift s).InStep R (Scanner.angle l c strict loose shift t) := by
  unfold Scanner.angle
  dsimp only
  rw [← hR.char?_eq h]
  exact Onward.ite (fun hc => ⟨rfl, hR.pass hc (by decide) h⟩) fun _ =>
    Onward.ite (fun hc => hR.assignable l shift (hR.pass hc hslash h)) fun _ => ⟨rfl, h⟩

/-- What starts with an equals sign is the same token in both. -/
theorem equals (l : Lexeme) (h : R s.advance t.advance) :
    (Scanner.equals l s).InStep R (Scanner.equals l t) := by
  unfold Scanner.equals
  dsimp only
  rw [← hR.char?_eq h]
  exact Onward.ite (fun hc => ⟨rfl, hR.pass hc (by decide) h⟩) fun _ => ⟨rfl, h⟩

/-- What starts with an exclamation mark is the same token in both. -/
theorem exclamation (l : Lexeme) (h : R s.advance t.advance) :
    (Scanner.exclamation l s).InStep R (Scanner.exclamation l t) := by
  unfold Scanner.exclamation
  dsimp only
  rw [← hR.char?_eq h]
  exact Onward.ite (fun hc => ⟨rfl, hR.pass hc (by decide) h⟩) fun _ => ⟨rfl, h⟩

/-- Any token but a dot, what starts with a slash and what is quoted is found without passing a slash. Any
other character is rejected. -/
theorem attemptAt {Q : Attempt ω → Attempt ω' → Prop} (separable : Bool) {l : Lexeme} {c : Char}
    (hc : s.char? = some c) (h : R s t)
    (hfound : ∀ {x y}, x.InStep R y → Q (.found x) (.found y))
    (hrejected : c ≠ '/' → Q (.passed (s.complainAt l.place (.unexpectedCharacter c)).advance)
      (.passed (t.complainAt l.place (.unexpectedCharacter c)).advance))
    (hstring : c = '"' → Q (.found (Scanner.quoted l .string (s.advance.stringRest l.place true)))
      (.found (Scanner.quoted l .string (t.advance.stringRest l.place true))))
    (hraw : c = '\x60' → Q (.found (Scanner.quoted l .string (s.advance.rawStringRest l.place)))
      (.found (Scanner.quoted l .string (t.advance.rawStringRest l.place))))
    (hrune : c = '\'' → Q (.found (Scanner.quoted l .rune (s.advance.runeRest l.place true 0)))
      (.found (Scanner.quoted l .rune (t.advance.runeRest l.place true 0))))
    (hdot : c = '.' → Q (.found (Scanner.dot l s)) (.found (Scanner.dot l t)))
    (hslash : c = '/' → Q (Scanner.slash separable l s) (Scanner.slash separable l t))
    (hstart : l.place = start) :
    Q (Scanner.attemptAt separable l c s) (Scanner.attemptAt separable l c t) := by
  subst hstart
  -- A slash is kept apart: `pass` does not go over it.
  by_cases hs : c = '/'
  · subst hs
    exact hslash rfl
  have ha := hR.pass hc hs h
  unfold Scanner.attemptAt
  refine Onward.ite (fun _ => hfound (hR.word l hc hs h)) fun _ =>
    Onward.ite (fun _ => hfound (hR.foundNumber l (hR.number h))) fun _ => ?_
  -- Form by form; the ones in which relations differ come as premises.
  split
  · exact hfound ⟨rfl, ha⟩
  · exact hfound ⟨rfl, ha⟩
  · exact hstring rfl
  · exact hraw rfl
  · exact hrune rfl
  · exact hfound (hR.colon l ha)
  · exact hdot rfl
  · exact hfound (hR.sign l '+' (by decide) .add ha)
  · exact hfound (hR.sign l '-' (by decide) .sub ha)
  · exact hfound (hR.star l ha)
  · exact hslash rfl
  · exact hfound (hR.assignable l .rem ha)
  · exact hfound (hR.ampersand l ha)
  · exact hfound (hR.bar l ha)
  · exact hfound (hR.assignable l .xor ha)
  · exact hfound (hR.angle l '<' (by decide) .less .lessEqual .shiftLeft ha)
  · exact hfound (hR.angle l '>' (by decide) .greater .greaterEqual .shiftRight ha)
  · exact hfound (hR.equals l ha)
  · exact hfound (hR.exclamation l ha)
  · split
    · exact hfound ⟨rfl, ha⟩
    · exact hrejected hs

end Along

namespace Onward

variable {start : Place} {R : CharStream ω → CharStream ω' → Prop} (hR : Onward start R)
  {s : CharStream ω} {t : CharStream ω'}
include hR

/-- Whatever characters are skipped, the streams stay together. -/
theorem skipWhile (p : Char → Bool) (h : R s t) : R (s.skipWhile p) (t.skipWhile p) :=
  CharStream.skipWhile_of_pass hR.char?_eq (fun hc _ h => hR.advance (Option.isSome_of_eq_some hc) h) h

/-! ## Strings and runes -/

/-- The rest of the same string is passed in both. -/
theorem stringRest (fine : Bool) (h : R s t) :
    InStep R (s.stringRest start fine) (t.stringRest start fine) := by
  induction hn : s.remaining using Nat.strongRecOn generalizing s t fine with
  | ind n ih =>
    subst hn
    rw [CharStream.stringRest_eq start fine s, CharStream.stringRest_eq start fine t,
      ← hR.char?_eq h]
    cases hc : s.char? with
    | none => exact ⟨rfl, hR.blame rfl h⟩
    | some c =>
      have hs : s.char?.isSome := by rw [hc]; rfl
      have ha := hR.advance hs h
      obtain ⟨h₁, h₂⟩ := hR.escape '"' (by decide) ha
      dsimp only
      rw [← h₁]
      exact ite (fun _ => ⟨rfl, ha⟩) fun _ =>
        ite (fun _ => ih _ (s.remaining_escape_advance_lt _ hs) _ h₂ rfl) fun _ =>
        ite (fun _ => ⟨rfl, hR.blame rfl h⟩) fun _ =>
        ih _ (s.remaining_advance_lt hs) _ ha rfl

/-- The rest of the same raw string is passed in both. -/
theorem rawStringRest (h : R s t) :
    InStep R (s.rawStringRest start) (t.rawStringRest start) := by
  have hw := hR.skipWhile (· ≠ '\x60') h
  unfold CharStream.rawStringRest
  dsimp only
  rw [← hR.char?_eq hw]
  exact ite (fun hc => ⟨rfl, hR.advance hc hw⟩) fun _ => ⟨rfl, hR.blame rfl hw⟩

/-- The rest of the same rune is passed in both. -/
theorem runeRest (fine : Bool) (n : Nat) (h : R s t) :
    InStep R (s.runeRest start fine n) (t.runeRest start fine n) := by
  -- By what is left; the faults are told in lockstep and the loop goes on behind an escape or a character.
  induction hn : s.remaining using Nat.strongRecOn generalizing s t fine n with
  | ind m ih =>
    subst hn
    rw [CharStream.runeRest_eq start fine n s, CharStream.runeRest_eq start fine n t,
      ← hR.char?_eq h]
    have ho := fun {fault : LexFault} (hf : fault.isMalformation) => hR.complainOnce fine hf h
    cases hc : s.char? with
    | none => exact ⟨rfl, ho rfl⟩
    | some c =>
      have hs : s.char?.isSome := by rw [hc]; rfl
      have ha := hR.advance hs h
      have hp := fun {fault : LexFault} (hf : fault.isMalformation) =>
        hR.advance (s := s.complainOnce start fine fault) (by rwa [CharStream.char?_complainOnce])
          (ho hf)
      obtain ⟨h₁, h₂⟩ := hR.escape '\'' (by decide) ha
      dsimp only
      rw [← h₁]
      refine ite (fun _ => ite (fun _ => ⟨rfl, ha⟩) fun _ => ?_) fun _ =>
        ite (fun _ => ih _ (s.remaining_escape_advance_lt _ hs) _ _ h₂ rfl) fun _ =>
        ite (fun _ => ⟨rfl, ho rfl⟩) fun _ => ih _ (s.remaining_advance_lt hs) _ _ ha rfl
      exact ite (fun _ => ⟨rfl, hp rfl⟩) fun _ => ⟨rfl, hp rfl⟩

/-- Any token but a dot or what starts with a slash is found by going on. Any other character is
rejected. -/
theorem attemptAt {Q : Attempt ω → Attempt ω' → Prop} (separable : Bool) {l : Lexeme}
    (hl : l.place = start) {c : Char} (hc : s.char? = some c) (h : R s t)
    (hfound : ∀ {x y}, x.InStep R y → Q (.found x) (.found y))
    (hrejected : Q (.passed (s.complainAt l.place (.unexpectedCharacter c)).advance)
      (.passed (t.complainAt l.place (.unexpectedCharacter c)).advance))
    (hdot : c = '.' → Q (.found (Scanner.dot l s)) (.found (Scanner.dot l t)))
    (hslash : c = '/' → Q (Scanner.slash separable l s) (Scanner.slash separable l t)) :
    Q (Scanner.attemptAt separable l c s) (Scanner.attemptAt separable l c t) := by
  subst hl
  have ha := hR.advance (Option.isSome_of_eq_some hc) h
  exact hR.toAlong.attemptAt separable hc h hfound (fun _ => hrejected)
    (fun _ => hfound (hR.quoted l .string (hR.stringRest true ha)))
    (fun _ => hfound (hR.quoted l .string (hR.rawStringRest ha)))
    (fun _ => hfound (hR.quoted l .rune (hR.runeRest true 0 ha))) hdot hslash rfl

end Onward

namespace Forward

variable {start : Place} {R : CharStream ω → CharStream ω' → Prop} (hR : Forward start R)
  {s : CharStream ω} {t : CharStream ω'}
include hR

/-- The rest of the same block comment is passed in both. -/
theorem blockCommentRest (h : R s t) : InStep R s.blockCommentRest t.blockCommentRest := by
  induction hn : s.remaining using Nat.strongRecOn generalizing s t with
  | ind n ih =>
    subst hn
    rw [s.blockCommentRest_eq, t.blockCommentRest_eq, ← hR.char?_eq h]
    have ha := hR.goOn h
    cases hc : s.char? with
    | none => exact ⟨rfl, h⟩
    | some c =>
      have hlt := s.remaining_advance_lt (by rw [hc]; rfl)
      dsimp only
      rw [← hR.char?_eq ha]
      refine Onward.ite (fun _ => Onward.ite (fun _ => ⟨rfl, hR.goOn ha⟩) fun _ =>
        Onward.ite (fun _ => ?_) fun _ => ?_) fun _ => ?_
      · exact ih _ hlt ha rfl
      · exact ih _ (Nat.lt_of_le_of_lt s.advance.remaining_advance_le hlt) (hR.goOn ha) rfl
      · exact ih _ hlt ha rfl

/-- The same line comment is passed in both, and reported in both if it may be a directive. -/
theorem lineComment (h : R s t) : R (s.lineComment start) (t.lineComment start) := by
  obtain ⟨h₁, h₂⟩ := hR.accept CharStream.directiveWord (by decide) h
  unfold CharStream.lineComment
  dsimp only
  rw [h₁]
  split
  · exact hR.reportDirective (hR.skipWhile _ h₂)
  · exact hR.skipWhile _ (hR.clearMark h₂)

/-- The same block comment is passed in both, and reported or left open in both. -/
theorem blockComment (h : R s t) :
    R (s.blockComment start) (t.blockComment start) := by
  obtain ⟨h₁, h₂⟩ := hR.accept CharStream.directiveWord (by decide) h
  unfold CharStream.blockComment
  dsimp only
  rw [← h₁]
  have hb := hR.blockCommentRest (s := if (CharStream.accept CharStream.directiveWord s).1 then _ else _)
    (t := if (CharStream.accept CharStream.directiveWord s).1 then _ else _)
    (Onward.ite (fun _ => h₂) fun _ => hR.clearMark h₂)
  obtain ⟨h₃, h₄⟩ := hb
  rw [← h₃]
  exact Onward.ite (fun _ => hR.leaveOpen h₄) fun _ =>
    Onward.ite (fun _ => hR.reportDirective h₄) fun _ => h₄

/-- A slash starts the same comment or the same operator in both. -/
theorem slash (separable : Bool) {l : Lexeme} (hl : l.place = start) (h : R s t) :
    (Scanner.slash separable l s).InStep R (Scanner.slash separable l t) := by
  subst hl
  have ha := hR.goOn h
  have hb := hR.blockComment (hR.goOn ha)
  unfold Scanner.slash
  dsimp only
  rw [← hR.char?_eq ha, ← hR.place_eq hb]
  exact Onward.ite (fun _ => .passed (hR.lineComment (hR.goOn ha))) fun _ =>
    Onward.ite (fun _ => Onward.ite (fun _ => .found ⟨rfl, hb⟩) fun _ => .passed hb) fun _ =>
    .found (hR.assignable l .div ha)

end Forward

namespace Finding

variable {R : CharStream ω → CharStream ω' → Prop} (hR : Finding R)
  {s : CharStream ω} {t : CharStream ω'}
include hR

/-- A dot starts the same token in both, also where it takes going back to find out. -/
theorem dot (l : Lexeme) (h : R s t) : (Scanner.dot l s).InStep R (Scanner.dot l t) := by
  have hF := hR.toForward l.place
  have ha := hF.goOn h
  have haa := hF.goOn ha
  unfold Scanner.dot
  dsimp only
  rw [← hF.char?_eq ha, ← hF.char?_eq haa]
  exact Onward.ite (fun _ => hF.foundNumber l (hF.fraction ha)) fun _ =>
    Onward.ite (fun _ => Onward.ite (fun _ => ⟨rfl, hF.goOn haa⟩) fun _ => ⟨rfl, hF.goOn (hR.rewind haa)⟩)
      fun _ => ⟨rfl, ha⟩

/-- Whatever character an attempt starts at, it comes to the same in both. -/
theorem attemptAt (separable : Bool) (l : Lexeme) {c : Char} (hc : s.char? = some c) (h : R s t) :
    (Scanner.attemptAt separable l c s).InStep R (Scanner.attemptAt separable l c t) :=
  have hF := hR.toForward l.place
  hF.toOnward.attemptAt separable rfl hc h .found (.passed (hF.goOn (hF.reject h)))
    (fun _ => .found (hR.dot l h)) fun _ => hF.slash separable rfl h

/-- Between tokens the same blanks are skipped in both. -/
theorem toToken (separable : Bool) (h : R s t) :
    R (Scanner.toToken separable s) (Scanner.toToken separable t) :=
  have hF := hR.toForward s.place
  hR.setMark (hF.skipWhile _ (hF.clearMark h))

/-- An attempt comes to the same in both. -/
theorem attempt (separable : Bool) (l : Lexeme) (h : R s t) :
    (Scanner.attempt separable l s).InStep R (Scanner.attempt separable l t) := by
  have hF := hR.toForward s.place
  have ht := hR.toToken separable h
  unfold Scanner.attempt
  dsimp only
  rw [← hF.place_eq ht, ← hF.char?_eq ht]
  cases hc : (Scanner.toToken separable s).char? with
  | some c => exact hR.attemptAt separable _ hc ht
  | none => exact .found ⟨rfl, ht⟩

/-- The same token is found in both, behind any number of comments. -/
theorem find (separable : Bool) (l : Lexeme) (h : R s t) :
    (Scanner.find separable l s).InStep R (Scanner.find separable l t) := by
  induction hn : s.remaining using Nat.strongRecOn generalizing s t with
  | ind n ih =>
    subst hn
    rw [Scanner.find_eq separable l s, Scanner.find_eq separable l t]
    have ha := hR.attempt separable l h
    generalize Scanner.attempt separable l t = y at ha
    cases hs : Scanner.attempt separable l s with
    | found s' =>
      rw [hs] at ha
      cases ha with
      | found hf => exact hf
    | passed s' =>
      have hlt := Scanner.remaining_of_attempt_eq_passed hs
      rw [hs] at ha
      cases ha with
      | passed hp => exact ih _ hlt hp rfl

variable {scanner : Scanner ω} {scanner' : Scanner ω'}

/-- Scanners in lockstep find the same next. -/
theorem next (h : scanner.InStep R scanner') : scanner.next.InStep R scanner'.next := by
  unfold Scanner.next
  rw [h.1]
  exact hR.find _ _ h.2

end Finding

namespace Lockstep

variable {R : CharStream ω → CharStream ω' → Prop} (hR : Lockstep R) {scanner : Scanner ω}
  {scanner' : Scanner ω'}
include hR

/-! ## Scans -/

/-- The reports may be forgotten in both. -/
theorem dropScannerReports (h : scanner.InStep R scanner') :
    scanner.dropReports.InStep R scanner'.dropReports :=
  ⟨h.1, hR.dropReports h.2⟩

/-- Scanners in lockstep find and report the same up to the end. -/
theorem scanUpTo (n : Nat) (h : scanner.InStep R scanner') :
    scanner.scanUpTo n = scanner'.scanUpTo n := by
  induction n generalizing scanner scanner' with
  | zero => rfl
  | succ n ih =>
    have hn := hR.next h
    have hr : scanner.next.reports = scanner'.next.reports :=
      congrArg Array.toList (hR.reports_eq hn.2)
    unfold Scanner.scanUpTo
    dsimp only
    rw [hn.1, hr, ih (hR.dropScannerReports hn)]

end Lockstep

end FrontEnd
