import FrontEnd.Proofs.Bases.Hearing
import FrontEnd.Proofs.Directives.Written
import FrontEnd.Proofs.Gaps.Passing

/-!
# What becomes of a comment

What a comment that may be a directive deserves is said here without an algorithm (`LineDirective.Deserves`):
whether it applies, how its text is read from the right, and which part of it is rejected. It deserves one
verdict only, and that is what a parser takes from it (`LineDirective.deserves_iff`, `Parser.takes_hear`).
-/

namespace FrontEnd

namespace LineDirective

open CharStream (directiveWord)

/-- What becomes of a comment: it says nothing about positions, it sets up a base from the anchor on, or what
stands in it at the offset is rejected. -/
inductive Verdict where
  | ignored
  | followed (anchor : Place) (directive : LineDirective)
  | rejected (offset : Nat) (cause : Cause)
deriving DecidableEq, Repr

/-- The characters are digits that write `n` in decimal, and it fits into 64 bits. -/
def Numbers (n : Nat) (cs : List Char) : Prop :=
  cs ≠ [] ∧ cs.all Char.isDigit ∧ Nat.ofDigitChars 10 cs 0 = n ∧ n < UInt64.size

/-- The characters end in a colon and a number. -/
def EndsInLine (cs : List Char) : Prop := ∃ file lineText n, Numbers n lineText ∧ cs = file ++ ':' :: lineText

/-- How a text is read from the right. Behind its last colon there must be a number. If there is one before
that too, behind another colon, the two are a line and a column. -/
inductive Reads : List Char → Reading → Prop
  | unrelated {text} : ':' ∉ text → Reads text .unrelated
  | line {file lineText n} : Numbers n lineText → ¬EndsInLine file → inRange n →
      Reads (file ++ ':' :: lineText) (.accepted ⟨String.ofList file, n, none⟩)
  | column {file lineText columnText n m} : Numbers n lineText → Numbers m columnText → inRange n → inRange m →
      Reads (file ++ ':' :: lineText ++ ':' :: columnText) (.accepted ⟨String.ofList file, n, some m⟩)
  | noNumber {file lineText} : ':' ∉ lineText → (∀ n, ¬Numbers n lineText) →
      Reads (file ++ ':' :: lineText) (.rejected (byteLength file + 1) (.badLine (String.ofList lineText)))
  | badLine {file lineText n} : Numbers n lineText → ¬EndsInLine file → inRange n = false →
      Reads (file ++ ':' :: lineText) (.rejected (byteLength file + 1) (.badLine (String.ofList lineText)))
  | badColumn {file lineText columnText n m} : Numbers n lineText → Numbers m columnText → inRange m = false →
      Reads (file ++ ':' :: lineText ++ ':' :: columnText)
        (.rejected (byteLength (file ++ ':' :: lineText) + 1) (.badColumn (String.ofList columnText)))
  | badLineBefore {file lineText columnText n m} : Numbers n lineText → Numbers m columnText → inRange m →
      inRange n = false →
      Reads (file ++ ':' :: lineText ++ ':' :: columnText)
        (.rejected (byteLength file + 1) (.badLine (String.ofList lineText)))

/-- The comment at `place` speaks from the anchor on, and says the text. A carriage return at the end of a line
comment belongs to the line ending. -/
inductive Applies (place : Place) : List Char → Place → List Char → Prop
  | line {text} : place.column = 1 → text.getLast? ≠ some '\r' →
      Applies place ('/' :: '/' :: (directiveWord ++ text)) ⟨place.line + 1, 1⟩ text
  | lineReturn {text} : place.column = 1 →
      Applies place ('/' :: '/' :: (directiveWord ++ (text ++ ['\r']))) ⟨place.line + 1, 1⟩ text
  | block {text} : '\n' ∉ text →
      Applies place ('/' :: '*' :: (directiveWord ++ (text ++ ['*', '/'])))
        ⟨place.line, place.column +
          (String.ofList ('/' :: '*' :: (directiveWord ++ (text ++ ['*', '/'])))).utf8ByteSize⟩ text

/-- What a text comes to, if the comment applies. -/
def Reading.verdict (anchor : Place) : Reading → Verdict
  | .unrelated => .ignored
  | .accepted directive => .followed anchor directive
  -- The marker and the word stand before the text.
  | .rejected offset cause => .rejected (2 + directiveWord.length + offset) cause

/-- The verdict on the comment at `place`. A line comment must start its line, and a block comment must not
contain a newline. -/
inductive Deserves (place : Place) : List Char → Verdict → Prop
  | offLine {cs} : place.column ≠ 1 → Deserves place ('/' :: '/' :: cs) .ignored
  | spread {cs} : '\n' ∈ cs → Deserves place ('/' :: '*' :: cs) .ignored
  | read {comment anchor text reading} : Applies place comment anchor text → Reads text reading →
      Deserves place comment (reading.verdict anchor)

/-- The verdict on a comment. -/
def verdict (place : Place) (comment : String) : Verdict :=
  match candidate? place comment with
  | none => .ignored
  | some candidate => (read candidate.text).verdict candidate.anchor

variable {n m : Nat} {cs file text lineText columnText : List Char} {place anchor : Place} {reading : Reading}
  {v : Verdict}

/-! ## Reading from the right -/

/-- What is read as a number is one. -/
theorem number?_eq_some_iff : number? cs = some n ↔ Numbers n cs := by
  have hvalue : cs.foldl (fun n c => 10 * n + (c.toNat - '0'.toNat)) 0 = Nat.ofDigitChars 10 cs 0 := rfl
  unfold number? Numbers
  dsimp only
  rw [hvalue]
  split
  · next hdigits =>
    rw [Option.ite_none_right_eq_some, Option.some_inj]
    refine ⟨fun ⟨hlt, he⟩ => ⟨hdigits.1, hdigits.2, he, he ▸ hlt⟩, fun ⟨_, _, he, hlt⟩ => ⟨he ▸ hlt, he⟩⟩
  · next hdigits => exact ⟨nofun, fun h => absurd ⟨h.1, h.2.1⟩ hdigits⟩

/-- What is not read as a number is none. -/
theorem number?_eq_none_iff : number? cs = none ↔ ∀ n, ¬Numbers n cs := by
  rw [Option.eq_none_iff_forall_ne_some]
  exact forall_congr' fun n => not_congr number?_eq_some_iff

/-- Without a number at its end, a file name is read as one. -/
theorem read_line_of_not_endsInLine (h : Numbers n lineText) (hfile : ¬EndsInLine file) :
    read (file ++ ':' :: lineText) = withLine file lineText n none := by
  refine read_line (number?_eq_some_iff.mpr h) fun front back m he hnumber => hfile ?_
  exact ⟨front, back, m, number?_eq_some_iff.mp hnumber, he⟩

/-- A directive with a line out of range is rejected for it. -/
theorem withLine_of_not_inRange (h : inRange n = false) (column? : Option Nat) :
    withLine file lineText n column? = .rejected (byteLength file + 1) (.badLine (String.ofList lineText)) :=
  if_neg (by simp [h])

/-- A text is read in one way only. -/
theorem Reads.read_eq (h : Reads text reading) : read text = reading := by
  -- By the form of the text; the last field is tried as a column first, then as a line.
  cases h with
  | unrelated hcolon =>
    unfold read
    rw [splitLast?_eq_none hcolon]
  | line hline hfile hrange => rw [read_line_of_not_endsInLine hline hfile, withLine_of_inRange hrange]
  | column hline hcolumn hrange hrange' =>
    rw [read_column (number?_eq_some_iff.mpr hline) (number?_eq_some_iff.mpr hcolumn), if_pos hrange',
      withLine_of_inRange hrange]
  | noNumber hcolon hnone =>
    unfold read
    rw [splitLast?_append _ hcolon]
    dsimp only
    rw [number?_eq_none_iff.mpr hnone]
  | badLine hline hfile hrange => rw [read_line_of_not_endsInLine hline hfile, withLine_of_not_inRange hrange]
  | badColumn hline hcolumn hrange =>
    rw [read_column (number?_eq_some_iff.mpr hline) (number?_eq_some_iff.mpr hcolumn), if_neg (by simp [hrange])]
  | badLineBefore hline hcolumn hrange hrange' =>
    rw [read_column (number?_eq_some_iff.mpr hline) (number?_eq_some_iff.mpr hcolumn), if_pos hrange,
      withLine_of_not_inRange hrange']

/-- A text ends in a colon and something without one, or has no colon. -/
theorem mem_or_exists_append (cs : List Char) :
    ':' ∉ cs ∨ ∃ front back, cs = front ++ ':' :: back ∧ ':' ∉ back := by
  induction cs with
  | nil => exact .inl List.not_mem_nil
  | cons c cs ih =>
    rcases ih with hcolon | ⟨front, back, rfl, hback⟩
    · by_cases hc : c = ':'
      · exact .inr ⟨[], cs, by rw [hc]; rfl, hcolon⟩
      · exact .inl fun hmem => (List.mem_cons.mp hmem).elim (fun he => hc he.symm) hcolon
    · exact .inr ⟨c :: front, back, rfl, hback⟩

/-- Every text is read in some way. -/
theorem reads_read (text : List Char) : Reads text (read text) := by
  -- It is read in no other way than `read` reads it, so any way will do.
  suffices h : ∃ reading, Reads text reading by
    obtain ⟨reading, hreads⟩ := h
    rwa [hreads.read_eq]
  rcases mem_or_exists_append text with hcolon | ⟨front, lastText, rfl, hlast⟩
  · exact ⟨_, .unrelated hcolon⟩
  · cases hnumber : number? lastText with
    | none => exact ⟨_, .noNumber hlast (number?_eq_none_iff.mp hnumber)⟩
    | some m =>
      have hlastNumber := number?_eq_some_iff.mp hnumber
      by_cases hends : EndsInLine front
      · obtain ⟨file, lineText, n, hline, rfl⟩ := hends
        cases hm : inRange m with
        | false => exact ⟨_, .badColumn hline hlastNumber hm⟩
        | true =>
          cases hn : inRange n with
          | false => exact ⟨_, .badLineBefore hline hlastNumber hm hn⟩
          | true => exact ⟨_, .column hline hlastNumber hn hm⟩
      · cases hm : inRange m with
        | false => exact ⟨_, .badLine hlastNumber hends hm⟩
        | true => exact ⟨_, .line hlastNumber hends hm⟩

/-! ## Comments -/

/-- Nothing is dropped from a line that does not end in a carriage return. -/
theorem dropEnding_of_getLast? (h : cs.getLast? ≠ some '\r') : dropEnding ['\r'] cs = cs := by
  unfold dropEnding
  rw [if_neg]
  rw [List.isSuffixOf_iff_suffix]
  rintro ⟨front, rfl⟩
  exact h List.getLast?_concat

/-- A directive does not end in a return if what it is about does not. -/
theorem getLast?_directiveWord_append (h : cs.getLast? ≠ some '\r') :
    (directiveWord ++ cs).getLast? ≠ some '\r' := by
  rw [List.getLast?_append]
  cases hlast : cs.getLast? with
  | none => decide
  | some c => rwa [hlast] at h

/-- A comment that applies is a candidate with its text. -/
theorem Applies.candidate?_eq {comment : List Char} (h : Applies place comment anchor text) :
    candidate? place (String.ofList comment) = some ⟨anchor, text⟩ := by
  cases h with
  | line hplace hlast =>
    rw [candidate?_line, if_pos hplace, dropEnding_of_getLast? (getLast?_directiveWord_append hlast),
      operand?_append]
    rfl
  | lineReturn hplace =>
    rw [candidate?_line, if_pos hplace, ← List.append_assoc, dropEnding_append, operand?_append]
    rfl
  | block hline =>
    have hinline : '\n' ∉ directiveWord ++ (text ++ ['*', '/']) :=
      List.not_mem_append (by decide) (List.not_mem_append hline (by decide))
    rw [candidate?_inline hinline, ← List.append_assoc, dropEnding_append, operand?_append]
    rfl

/-- A comment deserves what is made of it. -/
theorem Deserves.verdict_eq {comment : List Char} (h : Deserves place comment v) :
    verdict place (String.ofList comment) = v := by
  unfold verdict
  cases h with
  | offLine hplace => rw [candidate?_line, if_neg hplace]
  | spread hline => rw [candidate?_block hline]
  | read happlies hreads =>
    rw [happlies.candidate?_eq]
    dsimp only
    rw [hreads.read_eq]

/-- A comment that may be a directive deserves one verdict only. -/
theorem deserves_iff {p : Passage} (h : p.mayDirect) (place : Place) :
    Deserves place p.chars v ↔ v = verdict place (String.ofList p.chars) := by
  -- It deserves no other verdict than this one, so it is enough that it deserves any.
  suffices hv : ∃ v, Deserves place p.chars v by
    refine ⟨fun hv => hv.verdict_eq.symm, ?_⟩
    rintro rfl
    obtain ⟨v, hv⟩ := hv
    rwa [hv.verdict_eq]
  cases p with
  | blank | stray | openComment => cases h
  | lineComment cs =>
    obtain ⟨rest, rfl⟩ := List.isPrefixOf_iff_prefix.mp h
    by_cases hplace : place.column = 1
    · by_cases hlast : rest.getLast? = some '\r'
      · obtain ⟨text, rfl⟩ := List.getLast?_eq_some_iff.mp hlast
        exact ⟨_, .read (.lineReturn hplace) (reads_read text)⟩
      · exact ⟨_, .read (.line hplace hlast) (reads_read rest)⟩
    · exact ⟨_, .offLine hplace⟩
  | blockComment cs =>
    obtain ⟨text, rfl⟩ := List.isPrefixOf_iff_prefix.mp h
    by_cases hline : '\n' ∈ text
    · exact ⟨_, .spread (by simp [hline])⟩
    · rw [Passage.chars, List.append_assoc]
      exact ⟨_, .read (.block hline) (reads_read text)⟩

/-- The parser `q` is `p` after the verdict on a comment at `place`. With a column, an empty file name stands
for the current one. -/
def Verdict.Takes (place : Place) (p q : Parser) : Verdict → Prop
  | ignored => q = p
  | followed anchor directive => q = { p with
      base := {
        filename := if directive.filename = "" ∧ directive.column?.isSome then p.base.filename
          else directive.filename
        anchor
        line := directive.line
        column := directive.column?.getD 0 } }
  | rejected offset cause => q.base = p.base ∧ q.count = p.count + 1 ∧
      q.diagnostics = p.diagnostics ++ [⟨⟨p.base, ⟨place.line, place.column + offset⟩⟩, cause⟩]

end LineDirective

/-- A parser with a handler takes what a comment deserves. -/
theorem Parser.takes_hear {p : Parser} (ht : p.tolerant = true) (place : Place) (comment : String) :
    (LineDirective.verdict place comment).Takes place p (p.hear (.directive place comment)) := by
  have ha : ¬p.aborted = true := by simp [aborted, ht]
  unfold hear direct LineDirective.verdict
  rw [if_neg ha]
  dsimp only
  cases LineDirective.candidate? place comment with
  | none => exact rfl
  | some candidate =>
    dsimp only
    cases LineDirective.read candidate.text with
    | unrelated => exact rfl
    | rejected offset cause =>
      -- Marker and word come before the offset in both ways of counting.
      have hcolumn : place.column + 2 + "line ".length + offset =
          place.column + (2 + CharStream.directiveWord.length + offset) := by
        rw [← Nat.add_assoc, ← Nat.add_assoc]
        rfl
      refine ⟨rfl, rfl, (diagnostics_diagnose ht _ _).trans ?_⟩
      rw [← hcolumn]
      rfl
    | accepted directive =>
      change { p with base := directive.toBase candidate.anchor p.base } = _
      unfold LineDirective.toBase
      simp

end FrontEnd
