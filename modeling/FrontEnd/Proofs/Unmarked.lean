import FrontEnd.Bytes.Cursor
import FrontEnd.Proofs.Lockstep

/-!
# Streams without a mark

The mark is only looked at to cut out text or to go back. Whatever goes on over the bytes of a cursor does the
same without it, and a scanner drops it before it looks for a token (`Scanner.find_clearMark`).
-/

namespace FrontEnd

/-- A cursor fetches the same without its mark. -/
theorem Cursor.fetch_clearMark (c : Cursor) :
    fetch { c with mark? := none } = (c.fetch.1, { c.fetch.2 with mark? := none }) := by
  unfold fetch
  dsimp only
  split
  · split <;> rfl
  · rfl

namespace CharStream

variable (s : CharStream Cursor)

/-- Counting a character does not look at the mark. -/
theorem passChar_clearMark : s.clearMark.passChar = s.passChar.clearMark := by
  unfold passChar CharStream.clearMark
  dsimp only
  split <;> rfl

/-- Receiving a character does not look at the mark. -/
theorem receive_clearMark (f : Fetched) (c : Cursor) :
    s.clearMark.receive (f, { c with mark? := none }) = (s.receive (f, c)).clearMark := by
  have hfault : s.clearMark.fault? f = s.fault? f := by cases f <;> rfl
  unfold receive
  dsimp only
  rw [hfault]
  cases s.fault? f <;> cases f <;> rfl

/-- Fetching the next character does not look at the mark. -/
theorem seek_clearMark : s.clearMark.seek = s.seek.clearMark := by
  refine seek_of_fetch (N := fun s t => t = s.clearMark) (R := fun s t => t = s.clearMark) ?_ ?_ rfl
  · rintro s _ rfl
    have hfetch : ByteWindow.fetch s.clearMark.window =
        ((ByteWindow.fetch s.window).1, { (ByteWindow.fetch s.window).2 with mark? := none }) :=
      s.window.fetch_clearMark
    rw [hfetch, receive_clearMark]
    exact ⟨rfl, rfl⟩
  · rintro s _ rfl
    exact s.passChar_clearMark

/-- Going on does not look at the mark. -/
theorem advance_clearMark : s.clearMark.advance = s.advance.clearMark := by
  unfold advance
  rw [passChar_clearMark, seek_clearMark]

/-- Skipping does not look at the mark. -/
theorem skipWhile_clearMark (p : Char → Bool) : s.clearMark.skipWhile p = (s.skipWhile p).clearMark := by
  refine skipWhile_of_pass (R := fun s t => t = s.clearMark) ?_ ?_ rfl
  · rintro s _ rfl
    rfl
  · rintro s _ c - - rfl
    exact s.advance_clearMark

/-- Passing the rest of a block comment does not look at the mark. -/
theorem blockCommentRest_clearMark :
    s.clearMark.blockCommentRest = (s.blockCommentRest.1, s.blockCommentRest.2.clearMark) := by
  -- By what is left; the loop looks only at characters, which the mark does not change.
  induction hn : s.remaining using Nat.strongRecOn generalizing s with
  | ind n ih =>
    subst hn
    rw [s.blockCommentRest_eq, s.clearMark.blockCommentRest_eq, advance_clearMark, advance_clearMark]
    have hsame : s.clearMark.char? = s.char? := rfl
    have hnext : s.advance.clearMark.char? = s.advance.char? := rfl
    rw [hsame, hnext]
    cases hc : s.char? with
    | none => rfl
    | some c =>
      have hlt := s.remaining_advance_lt (Option.isSome_of_eq_some hc)
      have hle := s.advance.remaining_advance_le
      dsimp only
      split
      · split
        · rfl
        · split
          · exact ih _ hlt _ rfl
          · exact ih _ (Nat.lt_of_le_of_lt hle hlt) _ rfl
      · exact ih _ hlt _ rfl

end CharStream

namespace Scanner

/-- A scanner drops the mark before it looks for a token. -/
theorem find_clearMark (separable : Bool) (l : Lexeme) (s : CharStream Cursor) :
    find separable l s.clearMark = find separable l s := by
  have hattempt : attempt separable l s.clearMark = attempt separable l s := rfl
  rw [find_eq, find_eq separable l s, hattempt]

end Scanner

end FrontEnd
