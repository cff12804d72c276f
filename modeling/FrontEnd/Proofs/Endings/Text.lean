import FrontEnd.LineDirective
import FrontEnd.Proofs.Words.Clean

/-!
# Line endings

A line may end in a newline or in a carriage return and a newline. `withReturns` puts a carriage return
before every newline of a text. What a comment says about positions is the same with and without
(`LineDirective.candidate?_withReturns`): a line comment that is a directive may end in a carriage return,
and a block comment that is one has no newline in it.
-/

namespace FrontEnd

/-- The characters with a carriage return before every newline. -/
def withReturns (cs : List Char) : List Char :=
  cs.flatMap fun c => if c = '\n' then ['\r', '\n'] else [c]

variable {cs ds : List Char} {c : Char}

/-- Nothing needs no returns. -/
@[simp] theorem withReturns_nil : withReturns [] = [] := rfl

/-- A newline gets a return before it. -/
theorem withReturns_newline (cs : List Char) :
    withReturns ('\n' :: cs) = '\r' :: '\n' :: withReturns cs := rfl

/-- Any other character stays as it is. -/
theorem withReturns_cons (hc : c ≠ '\n') (cs : List Char) : withReturns (c :: cs) = c :: withReturns cs := by
  unfold withReturns
  rw [List.flatMap_cons, if_neg hc, List.singleton_append]

/-- Returns are put in piece by piece. -/
theorem withReturns_append (cs ds : List Char) :
    withReturns (cs ++ ds) = withReturns cs ++ withReturns ds := List.flatMap_append

/-- On a single line there is nothing to put in. -/
theorem withReturns_eq_self (h : '\n' ∉ cs) : withReturns cs = cs := by
  induction cs with
  | nil => rfl
  | cons c cs ih =>
    rw [List.mem_cons, not_or] at h
    rw [withReturns_cons (Ne.symm h.1), ih h.2]

/-- Newlines stay. -/
theorem newline_mem_withReturns (h : '\n' ∈ cs) : '\n' ∈ withReturns cs :=
  List.mem_flatMap.mpr ⟨'\n', h, by simp⟩

/-- Returns are clean. -/
theorem isClean_withReturns (h : IsClean cs) : IsClean (withReturns cs) := by
  intro d hd
  obtain ⟨c, hc, hd⟩ := List.mem_flatMap.mp hd
  split at hd
  · rcases List.mem_cons.mp hd with rfl | hd
    · decide
    · obtain rfl := List.mem_singleton.mp hd
      decide
  · obtain rfl := List.mem_singleton.mp hd
    exact h d hc

/-- What the characters start with, unless that is a newline. -/
theorem head?_withReturns (h : cs.head? ≠ some '\n') : (withReturns cs).head? = cs.head? := by
  cases cs with
  | nil => rfl
  | cons c cs =>
    have hc : c ≠ '\n' := fun he => h (congrArg some he)
    rw [withReturns_cons hc]
    rfl

namespace LineDirective

variable {place : Place}

/-- A block comment that goes over several lines is no directive. -/
theorem candidate?_block (h : '\n' ∈ cs) (place : Place) :
    candidate? place (String.ofList ('/' :: '*' :: cs)) = none := by
  unfold candidate?
  rw [String.toList_ofList]
  exact if_pos (List.contains_iff_mem.mpr h)

/-- A block comment says the same whichever way its lines end. -/
theorem candidate?_withReturns (cs : List Char) (place : Place) :
    candidate? place (String.ofList (withReturns ('/' :: '*' :: cs))) =
      candidate? place (String.ofList ('/' :: '*' :: cs)) := by
  have hmarker : withReturns ('/' :: '*' :: cs) = '/' :: '*' :: withReturns cs := by
    rw [withReturns_cons (by decide), withReturns_cons (by decide)]
  by_cases h : '\n' ∈ cs
  · rw [hmarker, candidate?_block h, candidate?_block (newline_mem_withReturns h)]
  · rw [hmarker, withReturns_eq_self h]

/-- Only at the end is there something to drop. -/
theorem dropEnding_return (h : '\r' ∉ cs) :
    dropEnding ['\r'] (cs ++ ['\r']) = dropEnding ['\r'] cs := by
  have hback : ¬['\r'].isSuffixOf cs = true := by
    intro hs
    obtain ⟨front, rfl⟩ := List.isSuffixOf_iff_suffix.mp hs
    exact h (List.mem_append_right _ List.mem_cons_self)
  have hend : ['\r'].isSuffixOf (cs ++ ['\r']) = true :=
    List.isSuffixOf_iff_suffix.mpr (List.suffix_append cs ['\r'])
  unfold dropEnding
  rw [if_pos hend, if_neg hback, List.length_append, Nat.add_sub_cancel, List.take_left]

/-- What is made of a line comment. -/
theorem candidate?_line (cs : List Char) (place : Place) :
    candidate? place (String.ofList ('/' :: '/' :: cs)) =
      if place.column = 1 then
        (operand? (dropEnding ['\r'] cs)).map (⟨⟨place.line + 1, 1⟩, ·⟩)
      else none := by
  unfold candidate?
  rw [String.toList_ofList]
  rfl

/-- A line comment says the same with a carriage return at its end. -/
theorem candidate?_return (h : '\r' ∉ cs) (place : Place) :
    candidate? place (String.ofList ('/' :: '/' :: (cs ++ ['\r']))) =
      candidate? place (String.ofList ('/' :: '/' :: cs)) := by
  rw [candidate?_line, candidate?_line, dropEnding_return h]

end LineDirective

end FrontEnd
