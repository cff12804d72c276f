import FrontEnd.Proofs.Directives.Verdict

/-!
# Directives are read in slices

A comment may be read without taking its characters apart, by slices between offsets in bytes. A slice fails
if it reaches beyond the text, or splits a character. `verdict?` reads a comment in that way, and gives no
verdict if a slice fails. None does (`LineDirective.verdict?_line`, `LineDirective.verdict?_block`).
-/

namespace FrontEnd

namespace LineDirective

open CharStream (directiveWord)

/-! ## Slices -/

/-- The characters before an offset in bytes and those behind it, if no character is split. -/
def splitAt? : Nat → List Char → Option (List Char × List Char)
  | 0, cs => some ([], cs)
  | _ + 1, [] => none
  | i + 1, c :: cs =>
    if c.utf8Size ≤ i + 1 then
      (splitAt? (i + 1 - c.utf8Size) cs).map fun (front, back) => (c :: front, back)
    else none

/-- The slice of a text from an offset on. -/
def sliceFrom? (i : Nat) (cs : List Char) : Option (List Char) := (splitAt? i cs).map Prod.snd

/-- The slice of a text up to the byte before an offset. -/
def sliceBefore? (i : Nat) (cs : List Char) : Option (List Char) :=
  if 1 ≤ i then (splitAt? (i - 1) cs).map Prod.fst else none

/-- The offset of the last colon. -/
def findLast? : List Char → Option Nat
  | [] => none
  | c :: cs =>
    match findLast? cs with
    | some i => some (c.utf8Size + i)
    | none => if c = ':' then some 0 else none

/-- The offset behind the last colon, and the number from there on. -/
def trailingNumber? (text : List Char) : Option (Option (Nat × Option Nat)) :=
  match findLast? text with
  | none => some none
  | some i => do
    let digits ← sliceFrom? (i + 1) text
    some (some (i + 1, number? digits))

/-- The directive with a line number at an offset of the text. -/
def withLine? (text : List Char) (i line : Nat) (column? : Option Nat) : Option Reading :=
  if inRange line then do
    let file ← sliceBefore? i text
    some (.accepted ⟨String.ofList file, line, column?⟩)
  else do
    let lineText ← sliceFrom? i text
    some (.rejected i (.badLine (String.ofList lineText)))

/-- Read the text after `line `. -/
def read? (text : List Char) : Option Reading := do
  match ← trailingNumber? text with
  | none => some .unrelated
  | some (i, none) =>
    let lineText ← sliceFrom? i text
    some (.rejected i (.badLine (String.ofList lineText)))
  | some (i, some last) =>
    let front ← sliceBefore? i text
    match ← trailingNumber? front with
    | some (j, some line) =>
      if inRange last then withLine? front j line (some last)
      else
        let columnText ← sliceFrom? i text
        some (.rejected i (.badColumn (String.ofList columnText)))
    | some (_, none) | none => withLine? text i last none

/-- What stands in a comment between its markers, or up to the line ending. -/
def commentText : List Char → List Char
  | '/' :: '*' :: cs => dropEnding ['*', '/'] cs
  | '/' :: '/' :: cs | cs => dropEnding ['\r'] cs

/-- The verdict on a comment. -/
def verdict? (place : Place) (comment : List Char) : Option Verdict :=
  let isBlock := ['/', '*'].isPrefixOf comment
  let body := commentText comment
  if (place.column = 1 ∨ isBlock) ∧ directiveWord.isPrefixOf body then
    if isBlock ∧ '\n' ∈ comment then some .ignored
    else do
      let text ← sliceFrom? directiveWord.length body
      let reading ← read? text
      some (reading.verdict
        (if isBlock then ⟨place.line, place.column + (String.ofList comment).utf8ByteSize⟩
          else ⟨place.line + 1, 1⟩))
  else some .ignored

variable {cs front back text file lineText : List Char} {i n : Nat} {place : Place}

/-! ## No slice fails -/

/-- A colon is one byte. -/
theorem byteLength_concat_colon (front : List Char) : byteLength (front ++ [':']) = byteLength front + 1 := by
  rw [byteLength_append]
  rfl

/-- Between two characters a text may be sliced. -/
theorem splitAt?_append (front back : List Char) :
    splitAt? (byteLength front) (front ++ back) = some (front, back) := by
  induction front with
  | nil => rw [byteLength, List.nil_append, splitAt?]
  | cons c front ih =>
    have hpos := c.utf8Size_pos
    obtain ⟨n, hn⟩ : ∃ n, c.utf8Size + byteLength front = n + 1 :=
      ⟨c.utf8Size + byteLength front - 1, by omega⟩
    rw [byteLength, hn, List.cons_append, splitAt?, if_pos (by omega), ← hn, Nat.add_sub_cancel_left, ih]
    rfl

/-- A text is cut right behind a colon. -/
theorem sliceFrom?_colon (front back : List Char) :
    sliceFrom? (byteLength front + 1) (front ++ ':' :: back) = some back := by
  have hsplit := splitAt?_append (front ++ [':']) back
  rw [byteLength_concat_colon, List.append_assoc, List.singleton_append] at hsplit
  rw [sliceFrom?, hsplit]
  rfl

/-- A text is cut right before a colon. -/
theorem sliceBefore?_colon (front back : List Char) :
    sliceBefore? (byteLength front + 1) (front ++ ':' :: back) = some front := by
  rw [sliceBefore?, if_pos (Nat.le_add_left ..), Nat.add_sub_cancel, splitAt?_append]
  rfl

/-- The last colon is found where the text is split. -/
theorem findLast?_eq (cs : List Char) : findLast? cs = (splitLast? cs).map (byteLength ·.1) := by
  induction cs with
  | nil => rfl
  | cons c cs ih =>
    rw [findLast?, splitLast?, ih]
    cases splitLast? cs with
    | some => rfl
    | none =>
      dsimp only [Option.map_none]
      split <;> rfl

/-- Looking for a number behind the last colon stays in the text. -/
theorem trailingNumber?_eq (text : List Char) : trailingNumber? text =
    some ((splitLast? text).map fun (front, back) => (byteLength front + 1, number? back)) := by
  unfold trailingNumber?
  rw [findLast?_eq]
  cases hsplit : splitLast? text with
  | none => rfl
  | some parts =>
    obtain ⟨front, back⟩ := parts
    rw [eq_append_of_splitLast? hsplit]
    dsimp only [Option.map_some]
    rw [sliceFrom?_colon]
    rfl

/-- A directive is read with its file name cut right before the colon. -/
theorem withLine?_colon (file lineText : List Char) (n : Nat) (column? : Option Nat) :
    withLine? (file ++ ':' :: lineText) (byteLength file + 1) n column? =
      some (withLine file lineText n column?) := by
  unfold withLine? withLine
  rw [sliceBefore?_colon, sliceFrom?_colon]
  split <;> rfl

/-- In slices a text is read as it is read character by character. -/
theorem read?_eq (text : List Char) : read? text = some (read text) := by
  unfold read? read
  rw [trailingNumber?_eq]
  -- The cases are those of `read`; in each the slices are taken at a colon, hence on a boundary, and do not
  -- fail.
  cases hsplit : splitLast? text with
  | none => rfl
  | some parts =>
    obtain ⟨front, back⟩ := parts
    rw [eq_append_of_splitLast? hsplit]
    dsimp only [Option.map_some, Option.bind_eq_bind, Option.bind_some]
    cases hback : number? back with
    | none =>
      dsimp only
      rw [sliceFrom?_colon]
      rfl
    | some last =>
      dsimp only
      rw [sliceBefore?_colon, Option.bind_some, trailingNumber?_eq, Option.bind_some]
      cases hfront : splitLast? front with
      | none => exact withLine?_colon ..
      | some parts =>
        obtain ⟨file, lineText⟩ := parts
        dsimp only [Option.map_some]
        cases number? lineText with
        | none => exact withLine?_colon ..
        | some line =>
          dsimp only
          rw [sliceFrom?_colon, eq_append_of_splitLast? hfront, withLine?_colon]
          split <;> rfl

/-- Behind the word for a directive there is what it is about. -/
theorem exists_operand {body : List Char} (h : directiveWord.isPrefixOf body) :
    ∃ text, operand? body = some text := by
  obtain ⟨text, rfl⟩ := List.isPrefixOf_iff_prefix.mp h
  exact ⟨text, operand?_append text⟩

/-- Without the word there is no directive. -/
theorem operand?_eq_none {body : List Char} (h : ¬directiveWord.isPrefixOf body) : operand? body = none :=
  if_neg h

/-- Behind the word for a directive a text may be sliced. -/
theorem sliceFrom?_word {body : List Char} (h : directiveWord.isPrefixOf body) :
    sliceFrom? directiveWord.length body = operand? body := by
  obtain ⟨text, rfl⟩ := List.isPrefixOf_iff_prefix.mp h
  have hsplit : splitAt? directiveWord.length (directiveWord ++ text) = some (directiveWord, text) :=
    splitAt?_append directiveWord text
  rw [operand?_append, sliceFrom?, hsplit]
  rfl

/-- No slice of a line comment fails, and the verdict is the same in slices. -/
theorem verdict?_line (cs : List Char) (place : Place) :
    verdict? place ('/' :: '/' :: cs) = some (verdict place (String.ofList ('/' :: '/' :: cs))) := by
  have hbody : commentText ('/' :: '/' :: cs) = dropEnding ['\r'] cs := rfl
  have hblock : ['/', '*'].isPrefixOf ('/' :: '/' :: cs) = false := rfl
  unfold verdict? verdict
  rw [candidate?_line, hbody, hblock]
  dsimp only
  by_cases hplace : place.column = 1
  · by_cases hword : directiveWord.isPrefixOf (dropEnding ['\r'] cs)
    · obtain ⟨text, htext⟩ := exists_operand hword
      rw [sliceFrom?_word hword, htext]
      simp [hplace, hword, read?_eq]
    · simp [hplace, hword, operand?_eq_none hword]
  · simp [hplace]

/-- No slice of a block comment fails either. -/
theorem verdict?_block (cs : List Char) (place : Place) :
    verdict? place ('/' :: '*' :: cs) = some (verdict place (String.ofList ('/' :: '*' :: cs))) := by
  have hbody : commentText ('/' :: '*' :: cs) = dropEnding ['*', '/'] cs := rfl
  have hblock : ['/', '*'].isPrefixOf ('/' :: '*' :: cs) = true := rfl
  unfold verdict? verdict
  rw [hbody, hblock]
  dsimp only
  by_cases hline : '\n' ∈ cs
  · rw [candidate?_block hline]
    simp [hline]
  · rw [candidate?_inline hline]
    by_cases hword : directiveWord.isPrefixOf (dropEnding ['*', '/'] cs)
    · obtain ⟨text, htext⟩ := exists_operand hword
      rw [sliceFrom?_word hword, htext]
      simp [hline, hword, read?_eq]
    · simp [hword, operand?_eq_none hword]

end LineDirective

end FrontEnd
