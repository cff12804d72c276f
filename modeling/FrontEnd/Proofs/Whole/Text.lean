import FrontEnd.CharStream
import FrontEnd.Proofs.Decoding

/-!
# Bytes that are text up to an offset

`TextUpTo` says of some bytes that characters make them up to an offset, without a byte order mark but
for one at the start. The bytes are then those of a string (`TextUpTo.exists_string`).
-/

namespace FrontEnd

/-- The bytes before offset `i` are characters, and only the first may be a byte order mark. -/
inductive TextUpTo (bytes : ByteArray) : Nat → Prop
  | start : TextUpTo bytes 0
  | step {i c} : TextUpTo bytes i → bytes.utf8DecodeChar? i = some c →
      (c = CharStream.byteOrderMark → i = 0) → TextUpTo bytes (i + c.utf8Size)

namespace TextUpTo

variable {bytes : ByteArray} {i : Nat}

/-- Text goes up to the end at most. -/
theorem le_size (h : TextUpTo bytes i) : i ≤ bytes.size := by
  cases h with
  | start => exact Nat.zero_le _
  | step _ hc _ => exact ByteArray.le_size_of_utf8DecodeChar?_eq_some hc

/-- What is text is the bytes of some characters, without a byte order mark but at the start. -/
theorem exists_chars (h : TextUpTo bytes i) : ∃ cs : List Char,
    bytes.extract 0 i = cs.utf8Encode ∧ ∀ c ∈ cs.tail, c ≠ CharStream.byteOrderMark := by
  induction h with
  | start =>
    refine ⟨[], ?_, by simp⟩
    rw [ByteArray.extract_same]
    rfl
  | @step i c h hc hmark ih =>
    obtain ⟨cs, hcs, htail⟩ := ih
    have hle := ByteArray.le_size_of_utf8DecodeChar?_eq_some hc
    refine ⟨cs ++ [c], ?_, ?_⟩
    · rw [ByteArray.extract_eq_extract_append_extract i (Nat.zero_le _) (Nat.le_add_right ..), hcs,
        Utf8.extract_of_utf8DecodeChar? hc, List.utf8Encode_append, List.utf8Encode_singleton]
    · cases cs with
      | nil => simp
      | cons c' cs =>
        intro d hd
        rw [List.cons_append, List.tail_cons, List.mem_append, List.mem_singleton] at hd
        rcases hd with hd | rfl
        · exact htail d hd
        · intro hmarked
          -- At the very start there are no characters yet.
          have hzero := hmark hmarked
          subst hzero
          have := congrArg ByteArray.size hcs
          rw [ByteArray.extract_same] at this
          have hpos := c'.utf8Size_pos
          rw [List.utf8Encode_cons, ByteArray.size_append, List.utf8Encode_singleton] at this
          simp at this
          omega

/-- Bytes that are text to their end are those of a string. -/
theorem exists_string (h : TextUpTo bytes bytes.size) : ∃ text : String,
    bytes = text.toUTF8 ∧ ∀ c ∈ text.toList.tail, c ≠ CharStream.byteOrderMark := by
  obtain ⟨cs, hcs, htail⟩ := h.exists_chars
  refine ⟨String.ofList cs, ?_, by rwa [String.toList_ofList]⟩
  rw [ByteArray.extract_zero_size] at hcs
  rw [hcs]
  rfl

end TextUpTo

end FrontEnd
