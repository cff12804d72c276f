import FrontEnd.Bytes.Buffer
import FrontEnd.Lexeme
import FrontEnd.Lexeme.Comment
import FrontEnd.Lexeme.Quoted

/-!
# Scanners

A `Scanner` divides a character stream into lexemes. It holds the lexeme found last, and `next` finds
the one after it: the longest token at the next character that starts one. Between tokens it passes
over blanks, comments, and characters that start no token, which are reported. A newline is a blank
too, except after a token that may end a statement, where it is a separator; so is a comment that
takes in a newline, and the end of the input.

`scans` is the whole of a stream: every lexeme with what was reported on the way to it, up to and
including the end of the input. `tokenize` reads a text.
-/

namespace FrontEnd

/-- A character stream and the lexeme found last. -/
structure Scanner (ω : Type) where
  stream : CharStream ω
  lexeme : Lexeme
deriving Inhabited

/-- A lexeme, with what was reported since the one before it. -/
structure Scan where
  lexeme : Lexeme
  reports : List Report
deriving DecidableEq, Repr, Inhabited

/-- The token of a character that is always a token of its own. -/
def Token.ofPunctuation? : Char → Option Token
  | '(' => some .lparen
  | '[' => some .lbrack
  | '\x7b' => some .lbrace
  | ')' => some .rparen
  | ']' => some .rbrack
  | '\x7d' => some .rbrace
  | ',' => some .comma
  | _ => none

/-- What an attempt to find a token comes to: a token, or something that was passed over. -/
inductive Attempt (ω : Type) where
  | found (s : Scanner ω)
  | passed (s : CharStream ω)

namespace Scanner

variable {ω : Type} [ByteWindow ω]

/-- The scanner that has found nothing yet. -/
def ofWindow (window : ω) : Scanner ω := ⟨.ofWindow window, .beforeAll⟩

/-- The bytes of the lexeme found last. -/
def segment (s : Scanner ω) : ByteArray := s.stream.marked

/-! ## Tokens by their first character

In what follows `l` is the lexeme to complete, already at its place, and `s` the stream, which is
still at the token's first character unless said otherwise. -/

/-- A token of one character. -/
def single (l : Lexeme) (token : Token) (s : CharStream ω) : Scanner ω :=
  ⟨s.advance, l.withToken token⟩

/-- A name or keyword. -/
def word (l : Lexeme) (s : CharStream ω) : Scanner ω :=
  let s := s.advance.skipWhile isNamePart
  ⟨s, l.withWord s.markedText⟩

/-- A literal that has been passed over. -/
def literal (l : Lexeme) (kind : LitKind) (bad : Bool) (s : CharStream ω) : Scanner ω :=
  ⟨s, l.withLiteral s.markedText kind bad⟩

/-- A number that has been passed over. -/
def number (l : Lexeme) (found : LiteralShape × CharStream ω) : Scanner ω :=
  literal l found.1.kind found.1.bad found.2

/-- A string, raw string or rune that has been passed over, fine or not. -/
def quoted (l : Lexeme) (kind : LitKind) (found : Bool × CharStream ω) : Scanner ω :=
  literal l kind (!found.1) found.2

/-- An operator that has been passed, or the assignment with it if an equals sign follows. -/
def assignable (l : Lexeme) (op : Operator) (s : CharStream ω) : Scanner ω :=
  if s.char? = some '=' then ⟨s.advance, l.withOp .assignOp op⟩ else ⟨s, l.withOp .op op⟩

/-- A colon or a definition. -/
def colon (l : Lexeme) (s : CharStream ω) : Scanner ω :=
  let s := s.advance
  if s.char? = some '=' then ⟨s.advance, l.withToken .define⟩ else ⟨s, l.withToken .colon⟩

/-- A dot, three dots, or a number without digits before its point. Of two dots, the second is a
token of its own. -/
def dot (l : Lexeme) (s : CharStream ω) : Scanner ω :=
  let s := s.advance
  if s.char?.any Char.isDigit then number l (s.fraction l.place)
  else if s.char? = some '.' then
    if s.advance.char? = some '.' then ⟨s.advance.advance, l.withToken .dotDotDot⟩
    -- The second dot has been passed to see what follows it, and has to be found again.
    else ⟨s.advance.rewind.advance, l.withToken .dot⟩
  else ⟨s, l.withToken .dot⟩

/-- A plus or minus, by itself, doubled or with an equals sign. A statement may end with a doubled one. -/
def sign (l : Lexeme) (c : Char) (op : Operator) (s : CharStream ω) : Scanner ω :=
  let s := s.advance
  if s.char? = some c then ⟨s.advance, (l.withOp .incOp op).ending⟩ else assignable l op s

/-- A star, by itself or with an equals sign. -/
def star (l : Lexeme) (s : CharStream ω) : Scanner ω :=
  let s := s.advance
  if s.char? = some '=' then ⟨s.advance, l.withOp .assignOp .mul⟩ else ⟨s, l.withOp .star .mul⟩

/-- An ampersand, doubled, or with a caret. -/
def ampersand (l : Lexeme) (s : CharStream ω) : Scanner ω :=
  let s := s.advance
  if s.char? = some '&' then ⟨s.advance, l.withOp .op .andAnd⟩
  else if s.char? = some '^' then assignable l .andNot s.advance
  else assignable l .and s

/-- A bar, by itself or doubled. -/
def bar (l : Lexeme) (s : CharStream ω) : Scanner ω :=
  let s := s.advance
  if s.char? = some '|' then ⟨s.advance, l.withOp .op .orOr⟩ else assignable l .or s

/-- An angle, by itself, with an equals sign, or doubled for a shift. -/
def angle (l : Lexeme) (c : Char) (strict loose shift : Operator) (s : CharStream ω) : Scanner ω :=
  let s := s.advance
  if s.char? = some '=' then ⟨s.advance, l.withOp .op loose⟩
  else if s.char? = some c then assignable l shift s.advance
  else ⟨s, l.withOp .op strict⟩

/-- An assignment, or the test for equality. -/
def equals (l : Lexeme) (s : CharStream ω) : Scanner ω :=
  let s := s.advance
  if s.char? = some '=' then ⟨s.advance, l.withOp .op .equal⟩ else ⟨s, l.withToken .assign⟩

/-- A negation, or the test for difference. -/
def exclamation (l : Lexeme) (s : CharStream ω) : Scanner ω :=
  let s := s.advance
  if s.char? = some '=' then ⟨s.advance, l.withOp .op .notEqual⟩ else ⟨s, l.withOp .op .not⟩

/-- A comment or a division. After a token that may end a statement, a block comment with a newline
in it counts as one. -/
def slash (separable : Bool) (l : Lexeme) (s : CharStream ω) : Attempt ω :=
  let s := s.advance
  if s.char? = some '/' then .passed (s.advance.lineComment l.place)
  else if s.char? = some '*' then
    let s := s.advance.blockComment l.place
    -- The comment takes in a newline exactly if it ends on another line.
    if separable && s.place.line ≠ l.place.line then
      .found ⟨s, l.withReason Lexeme.newlineReason⟩
    else .passed s
  else .found (assignable l .div s)

/-- The token at the current character `c`, or what is passed over instead of one. -/
def attemptAt (separable : Bool) (l : Lexeme) (c : Char) (s : CharStream ω) : Attempt ω :=
  if isNameStart c then .found (word l s)
  else if c.isDigit then .found (number l (s.number l.place))
  else
    match c with
    -- A newline comes here only as a separator; elsewhere it is a blank.
    | '\n' => .found ⟨s.advance, l.withReason Lexeme.newlineReason⟩
    | ';' => .found ⟨s.advance, l.withReason Lexeme.semicolonReason⟩
    | '"' => .found (quoted l .string (s.advance.stringRest l.place true))
    | '\x60' => .found (quoted l .string (s.advance.rawStringRest l.place))
    | '\'' => .found (quoted l .rune (s.advance.runeRest l.place true 0))
    | ':' => .found (colon l s)
    | '.' => .found (dot l s)
    | '+' => .found (sign l '+' .add s)
    | '-' => .found (sign l '-' .sub s)
    | '*' => .found (star l s)
    | '/' => slash separable l s
    | '%' => .found (assignable l .rem s.advance)
    | '&' => .found (ampersand l s)
    | '|' => .found (bar l s)
    | '^' => .found (assignable l .xor s.advance)
    | '<' => .found (angle l '<' .less .lessEqual .shiftLeft s)
    | '>' => .found (angle l '>' .greater .greaterEqual .shiftRight s)
    | '=' => .found (equals l s)
    | '!' => .found (exclamation l s)
    | c =>
      match Token.ofPunctuation? c with
      | some token => .found (single l token s)
      | none => .passed (s.complainAt l.place (.unexpectedCharacter c)).advance

/-- Whether the character is passed over before a token. -/
def isBlank (separable : Bool) (c : Char) : Bool :=
  c = ' ' || c = '\t' || c = '\r' || (c = '\n' && !separable)

/-- The stream at the next character that is no blank, with the mark there. -/
def toToken (separable : Bool) (s : CharStream ω) : CharStream ω :=
  (s.clearMark.skipWhile (isBlank separable)).setMark

/-- Find the next token or pass over something, after a token that may end a statement or not. What
`l` carries is kept where the token does not say otherwise. -/
def attempt (separable : Bool) (l : Lexeme) (s : CharStream ω) : Attempt ω :=
  let s := toToken separable s
  let l := { l with place := s.place }
  match s.char? with
  | some c => attemptAt separable l c s
  | none => .found ⟨s, if separable then l.withReason Lexeme.endReason else l.atEnd⟩

/-! ## Passing over leaves less to come -/

/-- Skipping blanks brings nothing back. -/
theorem remaining_toToken_le (separable : Bool) (s : CharStream ω) :
    (toToken separable s).remaining ≤ s.remaining := by
  have := s.clearMark.remaining_skipWhile_le (isBlank separable)
  rw [CharStream.remaining_clearMark] at this
  simpa [toToken] using this

/-- A comment takes a character at least. -/
theorem remaining_of_slash_eq_passed {separable : Bool} {l : Lexeme} {s s' : CharStream ω}
    (h : slash separable l s = .passed s') (hs : s.char?.isSome) : s'.remaining < s.remaining := by
  have h₁ := s.remaining_advance_lt hs
  have h₂ := s.advance.remaining_advance_le
  unfold slash at h
  dsimp only at h
  split at h
  · cases h
    have := s.advance.advance.remaining_lineComment_le l.place
    omega
  · split at h
    · split at h
      · cases h
      · cases h
        have := s.advance.advance.remaining_blockComment_le l.place
        omega
    · cases h

/-- What is passed over takes a character at least. -/
theorem remaining_of_attemptAt_eq_passed {separable : Bool} {l : Lexeme} {c : Char}
    {s s' : CharStream ω} (h : attemptAt separable l c s = .passed s') (hs : s.char?.isSome) :
    s'.remaining < s.remaining := by
  unfold attemptAt at h
  split at h
  · cases h
  · split at h
    · cases h
    · split at h <;> try cases h
      · exact remaining_of_slash_eq_passed h hs
      · split at h
        · cases h
        · cases h
          exact (s.complainAt l.place _).remaining_advance_lt hs

/-- An attempt that finds no token gets on. -/
theorem remaining_of_attempt_eq_passed {separable : Bool} {l : Lexeme} {s s' : CharStream ω}
    (h : attempt separable l s = .passed s') : s'.remaining < s.remaining := by
  have hle := remaining_toToken_le separable s
  unfold attempt at h
  dsimp only at h
  split at h
  · next c hc =>
    exact Nat.lt_of_lt_of_le (remaining_of_attemptAt_eq_passed h (by rw [hc]; rfl)) hle
  · cases h

/-! ## Scanning -/

/-- Find the next token. -/
def find (separable : Bool) (l : Lexeme) (s : CharStream ω) : Scanner ω :=
  match _h : attempt separable l s with
  | .found scanner => scanner
  | .passed s' => find separable l s'
termination_by s.remaining
decreasing_by exact remaining_of_attempt_eq_passed _h

/-- What is found: what an attempt finds, or what is found behind a comment. -/
theorem find_eq (separable : Bool) (l : Lexeme) (s : CharStream ω) :
    find separable l s =
      match attempt separable l s with
      | .found scanner => scanner
      | .passed s' => find separable l s' := by
  rw [find.eq_def]
  split <;> next h => rw [h]

/-- Go to the next token. -/
def next (s : Scanner ω) : Scanner ω :=
  find s.lexeme.endsStatement s.lexeme.cleared s.stream

/-- What has been reported since the last `dropReports`, oldest first. -/
def reports (s : Scanner ω) : List Report := s.stream.reports.toList

/-- The scanner with everything told. -/
def dropReports (s : Scanner ω) : Scanner ω := { s with stream := s.stream.dropReports }

/-- The next lexemes up to the end of the input, `n` at most. -/
def scanUpTo : Nat → Scanner ω → List Scan
  | 0, _ => []
  | n + 1, s =>
    let s := s.next
    let scan := ⟨s.lexeme, s.reports⟩
    if s.lexeme.token = .eof then [scan] else scan :: scanUpTo n s.dropReports

/-- Scanning stops with the end of the input. -/
theorem scanUpTo_of_eof {s : Scanner ω} (n : Nat) (h : s.next.lexeme.token = .eof) :
    s.scanUpTo (n + 1) = [⟨s.next.lexeme, s.next.reports⟩] := by
  unfold scanUpTo
  exact if_pos h

/-- Scanning goes on behind any other token. -/
theorem scanUpTo_of_ne {s : Scanner ω} (n : Nat) (h : s.next.lexeme.token ≠ .eof) :
    s.scanUpTo (n + 1) = ⟨s.next.lexeme, s.next.reports⟩ :: s.next.dropReports.scanUpTo n := by
  rw [scanUpTo]
  exact if_neg h

/-- What is next comes first, whether more comes behind it or not. -/
theorem scanUpTo_eq_cons (s : Scanner ω) (n : Nat) :
    ∃ rest, s.scanUpTo (n + 1) = ⟨s.next.lexeme, s.next.reports⟩ :: rest := by
  by_cases h : s.next.lexeme.token = .eof
  · exact ⟨[], scanUpTo_of_eof n h⟩
  · exact ⟨_, scanUpTo_of_ne n h⟩

/-- The lexemes up to the end of the input. Every one takes a character, but for a separator at the
end and the end itself. -/
def scans (s : Scanner ω) : List Scan := s.scanUpTo (s.stream.remaining + 2)

end Scanner

/-- The scans of what a reader delivers. -/
def Reader.scans (r : Reader) : List Scan :=
  (Scanner.ofWindow (Buffer.ofReader r)).scans

/-- The lexemes of a text, and what is wrong with it. -/
def tokenize (text : String) : List Lexeme × List LexError :=
  let scans := (Reader.ofBytes text.toUTF8).scans
  (scans.map Scan.lexeme, scans.flatMap fun scan => scan.reports.filterMap Report.error?)

end FrontEnd
