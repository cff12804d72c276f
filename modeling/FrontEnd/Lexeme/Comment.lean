import FrontEnd.CharStream

/-!
# Comments

A line comment runs up to the next newline, which it leaves alone; a block comment runs through the
first closing marker after its opening one. A comment whose text starts with the word `line` and a
space, right after the opening marker, may be a line directive: it is reported as a whole, unless it
is a block comment that never ends. Any other comment takes the mark with it.
-/

namespace FrontEnd

namespace CharStream

variable {ω : Type} [ByteWindow ω]

/-- What a comment must start with to be reported. -/
def directiveWord : List Char := "line ".toList

/-- Report the comment since the mark, which starts at `start`. -/
def reportDirective (start : Place) (s : CharStream ω) : CharStream ω :=
  s.report (.directive start (Utf8.decodeLossy s.marked))

/-- Pass over a line comment whose marker has been passed. -/
def lineComment (start : Place) (s : CharStream ω) : CharStream ω :=
  let (isDirective, s) := s.accept directiveWord
  if isDirective then (s.skipWhile (· ≠ '\n')).reportDirective start
  else s.clearMark.skipWhile (· ≠ '\n')

/-- Pass over the rest of a block comment; whether it has a closing marker. -/
def blockCommentRest (s : CharStream ω) : Bool × CharStream ω :=
  match _h : s.char? with
  | none => (false, s)
  | some c =>
    if c = '*' then
      if s.advance.char? = some '/' then (true, s.advance.advance)
      -- Of two stars the second may belong to the closing marker.
      else if s.advance.char? = some '*' then blockCommentRest s.advance
      else blockCommentRest s.advance.advance
    else blockCommentRest s.advance
termination_by s.remaining
decreasing_by
  · exact s.remaining_advance_lt (by rw [_h]; rfl)
  · exact Nat.lt_of_le_of_lt s.advance.remaining_advance_le
      (s.remaining_advance_lt (by rw [_h]; rfl))
  · exact s.remaining_advance_lt (by rw [_h]; rfl)

/-- The rest of a block comment, by its next characters. -/
theorem blockCommentRest_eq (s : CharStream ω) :
    s.blockCommentRest =
      match s.char? with
      | none => (false, s)
      | some c =>
        if c = '*' then
          if s.advance.char? = some '/' then (true, s.advance.advance)
          else if s.advance.char? = some '*' then blockCommentRest s.advance
          else blockCommentRest s.advance.advance
        else blockCommentRest s.advance := by
  rw [blockCommentRest.eq_def]
  split <;> next h => rw [h]

/-- Pass over a block comment whose opening marker has been passed and which starts at `start`. -/
def blockComment (start : Place) (s : CharStream ω) : CharStream ω :=
  let (isDirective, s) := s.accept directiveWord
  let s := if isDirective then s else s.clearMark
  let (closed, s) := s.blockCommentRest
  if !closed then s.complainAt start .unterminatedComment
  else if isDirective then s.reportDirective start
  else s

/-- A line comment brings nothing back. -/
theorem remaining_lineComment_le (start : Place) (s : CharStream ω) :
    (s.lineComment start).remaining ≤ s.remaining := by
  have h := remaining_accept_le directiveWord s
  have hs := (accept directiveWord s).2.remaining_skipWhile_le (· ≠ '\n')
  have hc := (accept directiveWord s).2.clearMark.remaining_skipWhile_le (· ≠ '\n')
  rw [remaining_clearMark] at hc
  unfold lineComment
  dsimp only
  split
  · exact Nat.le_trans hs h
  · exact Nat.le_trans hc h

/-- The rest of a block comment brings nothing back. -/
theorem remaining_blockCommentRest_le (s : CharStream ω) :
    s.blockCommentRest.2.remaining ≤ s.remaining := by
  fun_induction blockCommentRest s with
  | case1 => exact Nat.le_refl _
  | case2 s => exact Nat.le_trans s.advance.remaining_advance_le s.remaining_advance_le
  | case3 s _ _ _ ih => exact Nat.le_trans ih s.remaining_advance_le
  | case4 s _ _ _ ih =>
    exact Nat.le_trans ih (Nat.le_trans s.advance.remaining_advance_le s.remaining_advance_le)
  | case5 s _ _ _ ih => exact Nat.le_trans ih s.remaining_advance_le

/-- A block comment brings nothing back. -/
theorem remaining_blockComment_le (start : Place) (s : CharStream ω) :
    (s.blockComment start).remaining ≤ s.remaining := by
  have h := remaining_accept_le directiveWord s
  unfold blockComment
  dsimp only
  generalize (accept directiveWord s).1 = isDirective
  generalize (accept directiveWord s).2 = s₁ at h
  cases isDirective with
  | false =>
    have hb := s₁.clearMark.remaining_blockCommentRest_le
    rw [remaining_clearMark] at hb
    simp only [Bool.false_eq_true, if_false]
    split <;> exact Nat.le_trans hb h
  | true =>
    have hb := s₁.remaining_blockCommentRest_le
    simp only [if_true]
    split <;> exact Nat.le_trans hb h

end CharStream

end FrontEnd
