/-!
# Text for a terminal

A terminal acts on some characters instead of showing them, so that a line with text from a source
in it could ring its bell, change its colours or take back what was written before. `disarm` spells
out the characters that serve for this: the bell, the backspace, the form feed, the escape and the
delete, and all controls above the seven-bit range. Other characters, among them the tab, the newline
and the remaining controls, stand for themselves.

What comes of it holds no such character (`isCommand_of_mem_disarm`), and text without any stays as
it is (`disarm_eq_self`).
-/

namespace FrontEnd.Terminal

/-- The seven-bit characters that a terminal acts on. -/
def shortCommands : List Char := ['\x07', '\x08', '\x0c', '\x1b', '\x7f']

/-- Whether the character is a control above the seven-bit range. -/
def isLongCommand (c : Char) : Bool := 0x80 ≤ c.toNat && c.toNat ≤ 0x9f

/-- Whether a terminal may act on the character. -/
def isCommand (c : Char) : Bool := shortCommands.contains c || isLongCommand c

/-- The two digits of a seven-bit character in base sixteen. -/
def twoDigits (c : Char) : List Char :=
  let digits := Nat.toDigits 16 c.toNat
  List.replicate (2 - digits.length) '0' ++ digits

/-- A character, by its code if a terminal may act on it. -/
def spell (c : Char) : List Char :=
  if shortCommands.contains c then ['\\', 'x'] ++ twoDigits c
  else if isLongCommand c then ['\\', 'u', '\x7b'] ++ Nat.toDigits 16 c.toNat ++ ['\x7d']
  else [c]

/-- A text with every character spelled out that a terminal may act on. -/
def disarm (text : String) : String := String.ofList (text.toList.flatMap spell)

/-- Characters that command the terminal have small codes. -/
theorem toNat_lt_of_isCommand {c : Char} (h : isCommand c) : c.toNat < 0xa0 := by
  simp only [isCommand, isLongCommand, shortCommands, Bool.or_eq_true, Bool.and_eq_true,
    decide_eq_true_eq, List.contains_iff_mem, List.mem_cons, List.not_mem_nil, or_false] at h
  rcases h with (rfl | rfl | rfl | rfl | rfl) | h
  · decide
  · decide
  · decide
  · decide
  · decide
  · omega

/-- What commands nothing is written as it is. -/
theorem spell_eq_self {c : Char} (h : isCommand c = false) : spell c = [c] := by
  obtain ⟨short, long⟩ := Bool.or_eq_false_iff.mp h
  simp only [spell, short, long, Bool.false_eq_true, if_false]

/-- What a character is spelled with commands nothing. -/
theorem isCommand_of_mem_spell {c d : Char} (h : d ∈ spell c) : isCommand d = false := by
  cases hc : isCommand c with
  | false =>
    rw [spell_eq_self hc, List.mem_singleton] at h
    rwa [h]
  | true =>
    -- Commands are few enough to look at the spelling of each.
    have few : ∀ n < 0xa0, isCommand (Char.ofNat n) →
        (spell (Char.ofNat n)).all (fun d => !isCommand d) := by decide +kernel
    have := few c.toNat (toNat_lt_of_isCommand hc) (by rwa [Char.ofNat_toNat])
    rw [Char.ofNat_toNat, List.all_eq_true] at this
    simpa using this d h

/-- A terminal acts on nothing in a text that has been disarmed. -/
theorem isCommand_of_mem_disarm {text : String} {d : Char} (h : d ∈ (disarm text).toList) :
    isCommand d = false := by
  rw [disarm, String.toList_ofList, List.mem_flatMap] at h
  obtain ⟨c, _, hd⟩ := h
  exact isCommand_of_mem_spell hd

/-- A text that a terminal would only show stays as it is. -/
theorem disarm_eq_self {text : String} (h : ∀ c ∈ text.toList, isCommand c = false) :
    disarm text = text := by
  have : text.toList.flatMap spell = text.toList := by
    generalize text.toList = cs at h
    induction cs with
    | nil => rfl
    | cons c cs ih =>
      rw [List.flatMap_cons, spell_eq_self (h c List.mem_cons_self),
        ih fun d hd => h d (List.mem_cons_of_mem c hd)]
      rfl
  rw [disarm, this, String.ofList_toList]

end FrontEnd.Terminal
