import FrontEnd.Scanner

/-!
# What a scanner finds

Whatever the characters are, a token that is found is one of a few shapes (`Lexeme.Found`): its class
goes with what it carries. So an increment carries a plus or minus only, an operator that is assigned
with is one that can be, and only the end of the input is told as such
(`Scanner.char?_of_find_eq_eof`).
-/

namespace FrontEnd

/-- Whether the operator may be joined with an assignment. -/
def Operator.isAssignable : Operator → Bool
  | .add | .sub | .or | .xor | .mul | .div | .rem | .and | .andNot | .shiftLeft | .shiftRight => true
  | _ => false

/-- Whether the operator may be doubled to count up or down. -/
def Operator.isStep : Operator → Bool
  | .add | .sub => true
  | _ => false

/-- Whether the token is always written the same, carries nothing and is not a keyword. -/
def Token.isMark : Token → Bool
  | .assign | .define | .lparen | .lbrack | .lbrace | .rparen | .rbrack | .rbrace | .comma | .colon
  | .dot | .dotDotDot => true
  | _ => false

/-- A statement may end with the token of a keyword if it may with the keyword. -/
theorem Keyword.endsStatement_keyword (k : Keyword) : (Token.keyword k).endsStatement = k.endsStatement := by
  cases k <;> rfl

/-- Of the marks, a statement may end with those that close. -/
theorem Token.endsStatement_of_isMark {token : Token} (hm : token.isMark) :
    token.endsStatement = token.isClosing := by
  cases token <;> first | rfl | cases hm

/-- A mark is no token of another kind. -/
theorem Token.ne_of_isMark {token t : Token} (hm : token.isMark) (ht : t.isMark = false) :
    token ≠ t := by
  rintro rfl
  exact absurd hm (by simp [ht])

/-- What a lexeme that has only its place may be completed to, other than a word. -/
inductive Lexeme.Shaped (l : Lexeme) : Lexeme → Prop
  | literal (text kind bad) : Shaped l (l.withLiteral text kind bad)
  | newline : Shaped l (l.withReason newlineReason)
  | semicolon : Shaped l (l.withReason semicolonReason)
  | mark {token} : token.isMark → Shaped l (l.withToken token)
  | op {op} : op ≠ .mul → Shaped l (l.withOp .op op)
  | star : Shaped l (l.withOp .star .mul)
  | assignOp {op} : op.isAssignable → Shaped l (l.withOp .assignOp op)
  | incOp {op} : op.isStep → Shaped l (l.withOp .incOp op).ending

/-- What a lexeme that has only its place may be completed to when a token starts there. -/
inductive Lexeme.Found (l : Lexeme) : Lexeme → Prop
  | word (text) : Found l (l.withWord text)
  | shaped {l'} : l.Shaped l' → Found l l'

/-- What is assigned with can be, and what counts counts up or down. -/
structure Lexeme.Apt (l : Lexeme) : Prop where
  assignOp : l.token = .assignOp → ∀ op, l.op? = some op → op.isAssignable
  incOp : l.token = .incOp → ∀ op, l.op? = some op → op.isStep

namespace Lexeme

variable {l l' : Lexeme}

/-- What neither assigns nor counts has nothing to go with it. -/
theorem apt_of_ne (hassign : l.token ≠ .assignOp) (hinc : l.token ≠ .incOp) : l.Apt :=
  ⟨fun h => absurd h hassign, fun h => absurd h hinc⟩

/-- A word is a name or a keyword. -/
theorem token_withWord (l : Lexeme) (text : String) : (l.withWord text).token = .name ∨
    ∃ k, (l.withWord text).token = .keyword k := by
  change (Keyword.ofSpelling? text).elim Token.name Token.keyword = _ ∨
    ∃ k, (Keyword.ofSpelling? text).elim Token.name Token.keyword = _
  cases Keyword.ofSpelling? text with
  | none => exact .inl rfl
  | some k => exact .inr ⟨k, rfl⟩

/-- A word is a name or a keyword and nothing else. -/
theorem token_withWord_ne (l : Lexeme) (text : String) {t : Token} (hname : .name ≠ t)
    (hkeyword : ∀ k, .keyword k ≠ t) : (l.withWord text).token ≠ t := by
  rcases l.token_withWord text with h | ⟨k, h⟩ <;> rw [h]
  · exact hname
  · exact hkeyword k

namespace Shaped

/-- A lexeme is completed where it starts. -/
theorem place_eq (h : Shaped l l') : l'.place = l.place := by
  cases h <;> rfl

/-- Nothing is completed to the end of the input. -/
theorem token_ne_eof (h : Shaped l l') : l'.token ≠ .eof := by
  cases h with
  | mark hm => exact Token.ne_of_isMark hm rfl
  | _ => exact Token.noConfusion

/-- Only words are names. -/
theorem token_ne_name (h : Shaped l l') : l'.token ≠ .name := by
  cases h with
  | mark hm => exact Token.ne_of_isMark hm rfl
  | _ => exact Token.noConfusion

/-- A separator is told by its reason: a semicolon or a newline. -/
theorem literal_of_semi (h : Shaped l l') (ht : l'.token = .semi) :
    l'.literal = newlineReason ∨ l'.literal = semicolonReason := by
  cases h with
  | newline => exact .inl rfl
  | semicolon => exact .inr rfl
  | mark hm => exact absurd ht (Token.ne_of_isMark hm rfl)
  | _ => cases ht

/-- What a lexeme is completed to goes with what it carries. -/
theorem apt (h : Shaped l l') : l'.Apt := by
  cases h with
  | mark hm => exact apt_of_ne (Token.ne_of_isMark hm rfl) (Token.ne_of_isMark hm rfl)
  | assignOp h => exact ⟨fun _ op hop => Option.some.inj hop ▸ h, fun ht => Token.noConfusion ht⟩
  | incOp h => exact ⟨fun ht => Token.noConfusion ht, fun _ op hop => Option.some.inj hop ▸ h⟩
  | _ => exact apt_of_ne Token.noConfusion Token.noConfusion

end Shaped

namespace Found

/-- A token keeps its place. -/
theorem place_eq (h : Found l l') : l'.place = l.place := by
  cases h with
  | word => rfl
  | shaped h => exact h.place_eq

/-- A token is not the end of the input. -/
theorem token_ne_eof (h : Found l l') : l'.token ≠ .eof := by
  cases h with
  | word text => exact l.token_withWord_ne text Token.noConfusion fun _ => Token.noConfusion
  | shaped h => exact h.token_ne_eof

/-- A separator is there because of a newline or a semicolon. -/
theorem literal_of_semi (h : Found l l') (ht : l'.token = .semi) :
    l'.literal = newlineReason ∨ l'.literal = semicolonReason := by
  cases h with
  | word text =>
    exact absurd ht (l.token_withWord_ne text Token.noConfusion fun _ => Token.noConfusion)
  | shaped h => exact h.literal_of_semi ht

/-- If nothing is left of the token before it, a token says that a statement may end with it exactly if
its class is one of those. -/
theorem endsStatement_eq (h : Found l l') (hl : l.endsStatement = false) :
    l'.endsStatement = l'.token.endsStatement := by
  cases h with
  | word text =>
    change (Keyword.ofSpelling? text).elim true Keyword.endsStatement =
      ((Keyword.ofSpelling? text).elim Token.name Token.keyword).endsStatement
    cases Keyword.ofSpelling? text with
    | none => rfl
    | some k => exact k.endsStatement_keyword.symm
  | shaped h =>
    cases h with
    | literal => rfl
    | @mark token hm =>
      change (token.isClosing || l.endsStatement) = token.endsStatement
      rw [hl, Bool.or_false, Token.endsStatement_of_isMark hm]
    | incOp => rfl
    | newline | semicolon | op | star | assignOp => exact hl

/-- A token that is found carries what its class says. -/
theorem apt (h : Found l l') : l'.Apt := by
  cases h with
  | word text =>
    exact apt_of_ne (l.token_withWord_ne text Token.noConfusion fun _ => Token.noConfusion)
      (l.token_withWord_ne text Token.noConfusion fun _ => Token.noConfusion)
  | shaped h => exact h.apt

end Found

end Lexeme

namespace Token

/-- Single characters of punctuation are marks. -/
theorem isMark_of_ofPunctuation? {c : Char} {token : Token} (h : ofPunctuation? c = some token) :
    token.isMark := by
  unfold ofPunctuation? at h
  split at h <;> cases h <;> rfl

end Token

namespace Scanner

variable {ω : Type} {l : Lexeme}

/-- Both branches of a choice find a lexeme in shape. -/
theorem shaped_ite {p : Prop} [Decidable p] {x y : Scanner ω} (hx : l.Shaped x.lexeme)
    (hy : l.Shaped y.lexeme) : l.Shaped (if p then x else y).lexeme := by
  split
  · exact hx
  · exact hy

variable [ByteWindow ω] {s : CharStream ω}

/-- An operator is found, or an assignment with one that can be assigned with. -/
theorem shaped_assignable {op : Operator} (h : op.isAssignable) (hne : op ≠ .mul) :
    l.Shaped (assignable l op s).lexeme :=
  shaped_ite (.assignOp h) (.op hne)

/-- What starts with a dot is in shape. -/
theorem shaped_dot : l.Shaped (dot l s).lexeme :=
  shaped_ite (.literal ..) (shaped_ite (shaped_ite (.mark rfl) (.mark rfl)) (.mark rfl))

/-- What starts with a sign is in shape; only signs count. -/
theorem shaped_sign {c : Char} {op : Operator} (h : op.isStep) : l.Shaped (sign l c op s).lexeme := by
  refine shaped_ite (.incOp h) (shaped_assignable ?_ ?_) <;>
    cases op <;> first | rfl | exact Operator.noConfusion | cases h

/-- What starts with an ampersand is in shape. -/
theorem shaped_ampersand : l.Shaped (ampersand l s).lexeme :=
  shaped_ite (.op Operator.noConfusion)
    (shaped_ite (shaped_assignable rfl Operator.noConfusion) (shaped_assignable rfl Operator.noConfusion))

/-- What starts with an angle bracket is in shape. -/
theorem shaped_angle {c : Char} {strict loose shift : Operator} (h : shift.isAssignable)
    (hstrict : strict ≠ .mul) (hloose : loose ≠ .mul) (hshift : shift ≠ .mul) :
    l.Shaped (angle l c strict loose shift s).lexeme :=
  shaped_ite (.op hloose) (shaped_ite (shaped_assignable h hshift) (.op hstrict))

/-- A slash that starts a token starts one in shape. -/
theorem shaped_slash {separable : Bool} {x : Scanner ω} (h : slash separable l s = .found x) :
    l.Shaped x.lexeme := by
  unfold slash at h
  dsimp only at h
  split at h
  · cases h
  · split at h
    · split at h
      · cases h
        exact .newline
      · cases h
    · cases h
      exact shaped_assignable rfl Operator.noConfusion

/-- A token that is found where no name starts has one of the shapes. -/
theorem shaped_attemptAt {separable : Bool} {c : Char} {x : Scanner ω} (hname : isNameStart c = false)
    (h : attemptAt separable l c s = .found x) : l.Shaped x.lexeme := by
  unfold attemptAt at h
  rw [if_neg (by simp [hname])] at h
  -- Form by form, in the order of `attemptAt`; words have been excluded.
  split at h
  · cases h
    exact .literal ..
  · split at h
    case h_1 => cases h; exact .newline
    case h_2 => cases h; exact .semicolon
    case h_3 => cases h; exact .literal ..
    case h_4 => cases h; exact .literal ..
    case h_5 => cases h; exact .literal ..
    case h_6 => cases h; exact shaped_ite (.mark rfl) (.mark rfl)
    case h_7 => cases h; exact shaped_dot
    case h_8 => cases h; exact shaped_sign rfl
    case h_9 => cases h; exact shaped_sign rfl
    case h_10 => cases h; exact shaped_ite (.assignOp rfl) .star
    case h_11 => exact shaped_slash h
    case h_12 => cases h; exact shaped_assignable rfl Operator.noConfusion
    case h_13 => cases h; exact shaped_ampersand
    case h_14 =>
      cases h
      exact shaped_ite (.op Operator.noConfusion) (shaped_assignable rfl Operator.noConfusion)
    case h_15 => cases h; exact shaped_assignable rfl Operator.noConfusion
    case h_16 | h_17 =>
      cases h
      exact shaped_angle rfl Operator.noConfusion Operator.noConfusion Operator.noConfusion
    case h_18 => cases h; exact shaped_ite (.op Operator.noConfusion) (.mark rfl)
    case h_19 => cases h; exact shaped_ite (.op Operator.noConfusion) (.op Operator.noConfusion)
    case h_20 =>
      split at h
      · next hp =>
        cases h
        exact .mark (Token.isMark_of_ofPunctuation? hp)
      · cases h

/-- A character that starts a name starts a word. -/
theorem attemptAt_of_isNameStart {c : Char} (hname : isNameStart c = true) (separable : Bool)
    (l : Lexeme) (s : CharStream ω) : attemptAt separable l c s = .found (word l s) := by
  unfold attemptAt
  rw [if_pos hname]

/-- A token that is found where there is a character is a word or has one of the shapes. -/
theorem found_attemptAt {separable : Bool} {c : Char} {x : Scanner ω}
    (h : attemptAt separable l c s = .found x) : l.Found x.lexeme := by
  cases hname : isNameStart c with
  | true =>
    rw [attemptAt_of_isNameStart hname] at h
    cases h
    exact .word _
  | false => exact .shaped (shaped_attemptAt hname h)

/-! ## One token after another -/

/-- The scanner after `n` more tokens. -/
def after : Nat → Scanner ω → Scanner ω
  | 0, s => s
  | n + 1, s => after n s.next.dropReports

/-- What holds before each of some tokens holds before the first and before each of the others. -/
theorem forall_after_succ {P : Scanner ω → Prop} {s : Scanner ω} {n : Nat} :
    (∀ k < n + 1, P (s.after k)) ↔ P s ∧ ∀ k < n, P (s.next.dropReports.after k) := by
  refine ⟨fun h => ⟨h 0 n.succ_pos, fun k hk => h (k + 1) (Nat.succ_lt_succ hk)⟩, ?_⟩
  rintro ⟨hzero, h⟩ (_ | k) hk
  · exact hzero
  · exact h k (Nat.lt_of_succ_lt_succ hk)

/-- The scans of a source are what is found one after the other, with what is told on the way. -/
theorem scan_of_scanUpTo {s : Scanner ω} {m n : Nat} {scan : Scan} (h : (s.scanUpTo m)[n]? = some scan) :
    scan = ⟨(s.after n).next.lexeme, (s.after n).next.reports⟩ := by
  induction m generalizing s n with
  | zero => cases h
  | succ m ih =>
    cases n with
    | zero =>
      obtain ⟨rest, hall⟩ := s.scanUpTo_eq_cons m
      rw [hall] at h
      cases h
      rfl
    | succ n =>
      by_cases heof : s.next.lexeme.token = .eof
      · rw [scanUpTo_of_eof m heof] at h
        cases h
      · rw [scanUpTo_of_ne m heof] at h
        exact ih (s := s.next.dropReports) (n := n) h

/-- A scan has the lexeme that the scanner finds after those before it. -/
theorem lexeme_of_scanUpTo {s : Scanner ω} {m n : Nat} {scan : Scan}
    (h : (s.scanUpTo m)[n]? = some scan) : scan.lexeme = (s.after n).next.lexeme := by
  rw [scan_of_scanUpTo h]

/-- What is found is found by some attempt, before which what all others keep still holds. -/
theorem exists_attempt_eq_found {P : CharStream ω → Prop} {separable : Bool} {l : Lexeme}
    (hP : ∀ {s s'}, P s → attempt separable l s = .passed s' → P s') {s : CharStream ω} (h : P s) :
    ∃ s', P s' ∧ attempt separable l s' = .found (find separable l s) := by
  induction hn : s.remaining using Nat.strongRecOn generalizing s with
  | ind n ih =>
    subst hn
    rw [find_eq]
    cases ha : attempt separable l s with
    | passed s' => exact ih _ (remaining_of_attempt_eq_passed ha) (hP h ha) rfl
    | found x => exact ⟨s, h, ha⟩

/-- What is found is a token at a character, or the end of the input. -/
theorem find_cases (separable : Bool) (l : Lexeme) (s : CharStream ω) :
    (∃ l', Lexeme.Found l' (find separable l s).lexeme) ∨
      (find separable l s).stream.char? = none ∧
        ((find separable l s).lexeme.token = .eof ∨ (find separable l s).lexeme.token = .semi) := by
  -- What `find` returns was found by one attempt, at the end of the input or at a character.
  obtain ⟨s', -, ha⟩ : ∃ s', True ∧ attempt separable l s' = .found (find separable l s) :=
    exists_attempt_eq_found (P := fun _ : CharStream ω => True) (fun _ _ => trivial) trivial
  generalize find separable l s = x at ha
  unfold attempt at ha
  dsimp only at ha
  cases hc : (toToken separable s').char? with
  | none =>
    rw [hc] at ha
    cases ha
    refine .inr ⟨hc, ?_⟩
    cases separable
    · exact .inl rfl
    · exact .inr rfl
  | some c =>
    rw [hc] at ha
    exact .inl ⟨_, found_attemptAt ha⟩

/-- Where the end of the input is found, there is no character. -/
theorem char?_of_find_eq_eof {separable : Bool} {l : Lexeme} {s : CharStream ω}
    (h : (find separable l s).lexeme.token = .eof) : (find separable l s).stream.char? = none := by
  rcases find_cases separable l s with ⟨_, hfound⟩ | ⟨hc, -⟩
  · exact absurd h hfound.token_ne_eof
  · exact hc

/-- What is found is completed from what the caller hands over, with a place of its own. -/
theorem lexeme_find (separable : Bool) (l : Lexeme) (s : CharStream ω) :
    ∃ place, Lexeme.Found { l with place } (find separable l s).lexeme ∨
      (find separable l s).lexeme =
        if separable then { l with place }.withReason Lexeme.endReason else { l with place }.atEnd := by
  obtain ⟨s', -, ha⟩ : ∃ s', True ∧ attempt separable l s' = .found (find separable l s) :=
    exists_attempt_eq_found (P := fun _ : CharStream ω => True) (fun _ _ => trivial) trivial
  generalize find separable l s = x at ha
  refine ⟨(toToken separable s').place, ?_⟩
  unfold attempt at ha
  dsimp only at ha
  split at ha
  · exact .inl (found_attemptAt ha)
  · cases ha
    exact .inr rfl

/-- Whatever a scanner held before, the lexeme that it finds says that a statement may end with it exactly
if its class is one of those. -/
theorem endsStatement_next (s : Scanner ω) :
    s.next.lexeme.endsStatement = s.next.lexeme.token.endsStatement := by
  obtain ⟨place, hfound | hend⟩ := lexeme_find s.lexeme.endsStatement s.lexeme.cleared s.stream
  · exact hfound.endsStatement_eq rfl
  · rw [next, hend]
    split <;> rfl

/-- Whether a statement may end goes by the token, after any number of tokens. -/
theorem endsStatement_after {s : Scanner ω} (h : s.lexeme.endsStatement = s.lexeme.token.endsStatement)
    (n : Nat) : (s.after n).lexeme.endsStatement = (s.after n).lexeme.token.endsStatement := by
  induction n generalizing s with
  | zero => exact h
  | succ n ih => exact ih (s := s.next.dropReports) s.endsStatement_next

/-- What is found goes with what it carries. -/
theorem apt_next (s : Scanner ω) : s.next.lexeme.Apt := by
  rcases find_cases s.lexeme.endsStatement s.lexeme.cleared
    s.stream with ⟨_, hfound⟩ | ⟨-, ht⟩
  · exact hfound.apt
  · have hne (t : Token) (heof : .eof ≠ t) (hsemi : .semi ≠ t) : s.next.lexeme.token ≠ t := by
      rcases ht with ht | ht
      · exact fun h => heof (ht.symm.trans h)
      · exact fun h => hsemi (ht.symm.trans h)
    exact Lexeme.apt_of_ne (hne _ Token.noConfusion Token.noConfusion)
      (hne _ Token.noConfusion Token.noConfusion)

/-- All tokens of a source carry what their classes say. -/
theorem apt_of_mem_scans {s : Scanner ω} {scan : Scan} (h : scan ∈ s.scans) : scan.lexeme.Apt := by
  obtain ⟨n, hn⟩ := List.getElem?_of_mem h
  rw [lexeme_of_scanUpTo hn]
  exact apt_next _

/-- The end of the input is told at the end of the stream only. -/
theorem char?_of_next_eq_eof {s : Scanner ω} (h : s.next.lexeme.token = .eof) :
    s.next.stream.char? = none :=
  char?_of_find_eq_eof h

end Scanner

end FrontEnd
