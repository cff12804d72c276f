import FrontEnd.Lexeme.Comment
import FrontEnd.Proofs.Endings.Text
import FrontEnd.Proofs.Places.Offset
import Mathlib.Algebra.GroupWithZero.Nat
import Mathlib.Data.String.Basic

/-!
# Directives as they are written

A directive is written as its file name, its line and perhaps its column, with colons before the numbers. Read
from the right, that is the directive again (`LineDirective.read_written`), also if there are colons in the
file name; only a file name without a column must not end like one with a line.

A position is displayed like a directive (`Pos.display_eq`). A directive in a comment sets up a base against
which the places behind the comment are displayed as the directive says, counted on from it
(`LineDirective.display_belowLine`, `LineDirective.display_behindBlock`).
-/

namespace FrontEnd

/-- The bytes of some characters are those of each of them. -/
theorem utf8ByteSize_eq_sum (cs : List Char) :
    (String.ofList cs).utf8ByteSize = (cs.map Char.utf8Size).sum := by
  rw [String.utf8ByteSize_ofList]
  induction cs with
  | nil => rfl
  | cons c cs ih => rw [String.utf8Len_cons, ih, List.map_cons, List.sum_cons, Nat.add_comm]

namespace LineDirective

open CharStream (directiveWord)

variable {d : LineDirective} {n : Nat} {cs ds front back : List Char} {place : Place}

/-- The digits of a number. -/
def digits (n : Nat) : List Char := Nat.toDigits 10 n

/-- The directive as it is written behind the word for one. -/
def written (d : LineDirective) : List Char :=
  d.filename.toList ++ ':' :: (digits d.line ++ d.column?.elim [] fun c => ':' :: digits c)

/-- The characters end in a colon and digits. -/
def EndsInNumber (cs : List Char) : Prop :=
  ∃ front digits, cs = front ++ ':' :: digits ∧ digits ≠ [] ∧ digits.all Char.isDigit

/-- The directive has a file name and numbers in range, and is not mistaken for another one. -/
structure Proper (d : LineDirective) : Prop where
  filename_ne : d.filename ≠ ""
  line : inRange d.line
  column : ∀ c, d.column? = some c → inRange c
  bare : d.column? = none → ¬EndsInNumber d.filename.toList

/-! ## Lengths in bytes -/

/-- Lengths in bytes add up. -/
theorem byteLength_append (front back : List Char) :
    byteLength (front ++ back) = byteLength front + byteLength back := by
  induction front with
  | nil => exact (Nat.zero_add _).symm
  | cons c front ih => rw [List.cons_append, byteLength, byteLength, ih, Nat.add_assoc]

/-- The length in bytes adds up the bytes of the characters. -/
theorem byteLength_eq_sum (cs : List Char) : byteLength cs = (cs.map Char.utf8Size).sum := by
  induction cs with
  | nil => rfl
  | cons c cs ih => rw [byteLength, ih, List.map_cons, List.sum_cons]

/-! ## Reading what is written -/

/-- Every number has a digit. -/
theorem digits_ne_nil (n : Nat) : digits n ≠ [] := Nat.toDigits_ne_nil

/-- The digits of a number are decimal digits. -/
theorem all_isDigit_digits (n : Nat) : (digits n).all Char.isDigit :=
  List.all_eq_true.mpr fun _ hc => Nat.isDigit_of_mem_toDigits (by decide) (by decide) hc

/-- Nothing but digits is in a number. -/
theorem not_mem_digits {c : Char} (hc : c.isDigit = false) (n : Nat) : c ∉ digits n := by
  intro hmem
  rw [List.all_eq_true.mp (all_isDigit_digits n) c hmem] at hc
  cases hc

/-- The digits of a number are read as it, if it fits into 64 bits. -/
theorem number?_digits (h : n < UInt64.size) : number? (digits n) = some n := by
  have hvalue : (digits n).foldl (fun n c => 10 * n + (c.toNat - '0'.toNat)) 0 = n :=
    Nat.ofDigitChars_ten_toDigits
  unfold number?
  rw [if_pos ⟨digits_ne_nil n, all_isDigit_digits n⟩]
  dsimp only
  rw [hvalue, if_pos h]

/-- A number in range is read as it. -/
theorem number?_of_inRange (h : inRange n) : number? (digits n) = some n := by
  unfold inRange at h
  rw [Bool.and_eq_true, decide_eq_true_eq, decide_eq_true_eq] at h
  exact number?_digits (Nat.lt_of_le_of_lt h.2 (by decide))

/-- What is read as a number is made of digits. -/
theorem digits_of_number? (h : number? cs = some n) : cs ≠ [] ∧ cs.all Char.isDigit := by
  unfold number? at h
  split at h
  · assumption
  · cases h

/-- Without a colon there is nothing to split. -/
theorem splitLast?_eq_none (h : ':' ∉ cs) : splitLast? cs = none := by
  induction cs with
  | nil => rfl
  | cons c cs ih =>
    rw [List.mem_cons, not_or] at h
    rw [splitLast?, ih h.2]
    exact if_neg fun hc => h.1 hc.symm

/-- Text is split at its last colon. -/
theorem splitLast?_append (front : List Char) (h : ':' ∉ back) :
    splitLast? (front ++ ':' :: back) = some (front, back) := by
  induction front with
  | nil => rw [List.nil_append, splitLast?, splitLast?_eq_none h, if_pos rfl]
  | cons c front ih => rw [List.cons_append, splitLast?, ih]

/-- What is split has a colon in between. -/
theorem eq_append_of_splitLast? (h : splitLast? cs = some (front, back)) : cs = front ++ ':' :: back := by
  induction cs generalizing front with
  | nil => cases h
  | cons c cs ih =>
    rw [splitLast?] at h
    split at h
    · next hsplit =>
      cases h
      rw [ih hsplit, List.cons_append]
    · split at h
      · next hc =>
        cases h
        rw [hc, List.nil_append]
      · cases h

/-- A directive with a line in range is accepted. -/
theorem withLine_of_inRange (h : inRange n) (file lineText : List Char) (column? : Option Nat) :
    withLine file lineText n column? = .accepted ⟨String.ofList file, n, column?⟩ := if_pos h

/-- There is no colon in a number. -/
theorem not_mem_of_number? (h : number? cs = some n) : ':' ∉ cs := fun hmem =>
  absurd (List.all_eq_true.mp (digits_of_number? h).2 ':' hmem) (by decide)

/-- Behind a file name that does not end in another number, a number is a line. -/
theorem read_line {file lineText : List Char} (hline : number? lineText = some n)
    (hfile : ∀ front back m, file = front ++ ':' :: back → number? back ≠ some m) :
    read (file ++ ':' :: lineText) = withLine file lineText n none := by
  unfold read
  rw [splitLast?_append _ (not_mem_of_number? hline)]
  dsimp only
  rw [hline]
  dsimp only
  split
  · rfl
  · next front back hsplit =>
    split
    · rfl
    · next hnumber => exact absurd hnumber (hfile _ _ _ (eq_append_of_splitLast? hsplit))

/-- Of two numbers one is a line and the other a column. -/
theorem read_column {file lineText columnText : List Char} {m : Nat} (hline : number? lineText = some n)
    (hcolumn : number? columnText = some m) : read (file ++ ':' :: lineText ++ ':' :: columnText) =
      if inRange m then withLine file lineText n (some m)
      else .rejected (byteLength (file ++ ':' :: lineText) + 1) (.badColumn (String.ofList columnText)) := by
  unfold read
  rw [splitLast?_append _ (not_mem_of_number? hcolumn)]
  dsimp only
  rw [hcolumn, splitLast?_append _ (not_mem_of_number? hline)]
  dsimp only
  rw [hline]

/-- What is written is read. -/
theorem read_written (h : d.Proper) : read d.written = .accepted d := by
  obtain ⟨filename, line, column?⟩ := d
  have hline : inRange line := h.line
  cases column? with
  | none =>
    have htext : written ⟨filename, line, none⟩ = filename.toList ++ ':' :: digits line := by
      unfold written
      rw [Option.elim_none, List.append_nil]
    rw [htext, read_line (number?_of_inRange hline), withLine_of_inRange hline, String.ofList_toList]
    -- The file name would end like one with a line.
    exact fun front back m he hnumber => h.bare rfl ⟨front, back, he, digits_of_number? hnumber⟩
  | some column =>
    have hcolumn : inRange column := h.column column rfl
    have htext : written ⟨filename, line, some column⟩ =
        (filename.toList ++ ':' :: digits line) ++ ':' :: digits column := by
      unfold written
      rw [Option.elim_some, List.append_assoc, List.cons_append]
    rw [htext, read_column (number?_of_inRange hline) (number?_of_inRange hcolumn), if_pos hcolumn,
      withLine_of_inRange hline, String.ofList_toList]

/-! ## Comments -/

/-- Behind the word for a directive stands what it is about. -/
theorem operand?_append (cs : List Char) : operand? (directiveWord ++ cs) = some cs := by
  unfold operand?
  dsimp only
  have hword : directiveWord.isPrefixOf (directiveWord ++ cs) :=
    List.isPrefixOf_iff_prefix.mpr (List.prefix_append ..)
  rw [show "line ".toList = directiveWord from rfl, if_pos hword, List.drop_left]

/-- An ending that is there is dropped. -/
theorem dropEnding_append (ending cs : List Char) : dropEnding ending (cs ++ ending) = cs := by
  unfold dropEnding
  rw [if_pos (List.isSuffixOf_iff_suffix.mpr (List.suffix_append ..)), List.length_append,
    Nat.add_sub_cancel, List.take_left]

/-- What is made of a block comment on one line. -/
theorem candidate?_inline {cs : List Char} (h : '\n' ∉ cs) (place : Place) :
    candidate? place (String.ofList ('/' :: '*' :: cs)) =
      (operand? (dropEnding ['*', '/'] cs)).map
        (⟨⟨place.line, place.column + (String.ofList ('/' :: '*' :: cs)).utf8ByteSize⟩, ·⟩) := by
  unfold candidate?
  rw [String.toList_ofList]
  exact if_neg fun hmem => h (List.contains_iff_mem.mp hmem)

/-- What is written ends in a digit. -/
theorem exists_written_concat (d : LineDirective) : ∃ cs c, d.written = cs ++ [c] ∧ c.isDigit := by
  have hend (cs : List Char) (n : Nat) : ∃ ds c, cs ++ ':' :: digits n = ds ++ [c] ∧ c.isDigit := by
    obtain ⟨ds, c, hdigits⟩ := List.eq_nil_or_concat (digits n) |>.resolve_left (digits_ne_nil n)
    refine ⟨cs ++ ':' :: ds, c, by rw [hdigits]; simp, ?_⟩
    exact List.all_eq_true.mp (all_isDigit_digits n) c (hdigits ▸ by simp)
  unfold written
  cases d.column? with
  | none =>
    rw [Option.elim_none, List.append_nil]
    exact hend _ _
  | some column =>
    rw [Option.elim_some, ← List.cons_append, ← List.append_assoc]
    exact hend _ _

/-- What may end a line before its newline. -/
def lineEndings : List (List Char) := [[], ['\r']]

/-- A line comment with the directive is a candidate for the next line. -/
theorem candidate?_lineWritten (hplace : place.column = 1) {ending : List Char}
    (hending : ending ∈ lineEndings) :
    candidate? place (String.ofList ('/' :: '/' :: (directiveWord ++ (d.written ++ ending)))) =
      some ⟨⟨place.line + 1, 1⟩, d.written⟩ := by
  have hdrop : dropEnding ['\r'] (directiveWord ++ (d.written ++ ending)) = directiveWord ++ d.written := by
    rcases List.mem_cons.mp hending with rfl | hending
    · obtain ⟨cs, c, hcs, hdigit⟩ := exists_written_concat d
      unfold dropEnding
      rw [List.append_nil, if_neg]
      rw [hcs, ← List.append_assoc, List.isSuffixOf_iff_suffix]
      rintro ⟨front, hfront⟩
      obtain rfl : '\r' = c := (List.append_inj_right' hfront rfl |> List.singleton_inj.mp)
      exact absurd hdigit (by decide)
    · rw [List.mem_singleton.mp hending, ← List.append_assoc, dropEnding_append]
  rw [candidate?_line, if_pos hplace, hdrop, operand?_append]
  rfl

/-- A directive stands on one line, if its file name does. -/
theorem newline_not_mem_written (hline : '\n' ∉ d.filename.toList) : '\n' ∉ directiveWord ++ d.written := by
  have hword : '\n' ∉ directiveWord := by decide
  have hdigits (n : Nat) : '\n' ∉ digits n := not_mem_digits (by decide) n
  unfold written
  cases d.column? <;> simp [hline, hdigits, hword]

/-- A block comment with the directive, on one line, is a candidate for what comes right behind it. -/
theorem candidate?_blockWritten (hline : '\n' ∉ d.filename.toList) (place : Place) :
    candidate? place (String.ofList ('/' :: '*' :: (directiveWord ++ d.written ++ ['*', '/']))) =
      some ⟨⟨place.line, place.column +
        (String.ofList ('/' :: '*' :: (directiveWord ++ d.written ++ ['*', '/']))).utf8ByteSize⟩,
        d.written⟩ := by
  have hwritten : '\n' ∉ directiveWord ++ d.written ++ ['*', '/'] :=
    List.not_mem_append (newline_not_mem_written hline) (by decide)
  rw [candidate?_inline hwritten, dropEnding_append, operand?_append]
  rfl

/-- A file name that is there stays, whatever file is the current one. -/
theorem toBase_of_ne (h : d.filename ≠ "") (anchor : Place) (current : Base) :
    d.toBase anchor current = ⟨d.filename, anchor, d.line, d.column?.getD 0⟩ := by
  have hempty : d.filename.isEmpty = false := by simpa using h
  unfold toBase
  rw [hempty]
  rfl

/-! ## Displaying -/

/-- The directive as a text. -/
def text (d : LineDirective) : String := String.ofList d.written

/-- What the directive in a line comment makes of a place below it, the comment being on the given line: its
line and column for the start of the next line, and counted on from there. -/
def belowLine (d : LineDirective) (line : Nat) (place : Place) : LineDirective where
  filename := d.filename
  line := d.line + place.line - line - 1
  column? := d.column?.map fun column =>
    if place.line = line + 1 then column + place.column - 1 else place.column

/-- What the directive in a block comment that ends right before `stop` makes of a place behind it. -/
def behindBlock (d : LineDirective) (stop place : Place) : LineDirective where
  filename := d.filename
  line := d.line + place.line - stop.line
  column? := d.column?.map fun column =>
    if place.line = stop.line then column + place.column - stop.column else place.column

end LineDirective

namespace Pos

/-- The position as the directive that it is displayed like. -/
def shown (p : Pos) : LineDirective where
  filename := p.base.filename
  line := p.reportedLine
  column? := if p.reportedColumn = 0 then none else some p.reportedColumn

/-- A number is displayed by its digits. -/
theorem toList_toString (n : Nat) : (toString n).toList = LineDirective.digits n := by
  rw [Nat.toString_eq_ofList_toDigits, String.toList_ofList]
  rfl

/-- A position is displayed as a directive is written. -/
theorem display_eq (p : Pos) : p.display = p.shown.text := by
  have hline : (p.base.filename ++ ":" ++ toString p.reportedLine).toList =
      p.base.filename.toList ++ ':' :: LineDirective.digits p.reportedLine := by
    rw [String.toList_append, String.toList_append, toList_toString, List.append_assoc]
    rfl
  refine String.toList_inj.mp ?_
  unfold LineDirective.text
  rw [String.toList_ofList]
  change (if p.reportedColumn = 0 then p.base.filename ++ ":" ++ toString p.reportedLine
    else p.base.filename ++ ":" ++ toString p.reportedLine ++ ":" ++ toString p.reportedColumn).toList = _
  unfold shown LineDirective.written
  dsimp only
  split
  · rw [hline, Option.elim_none, List.append_nil]
  · rw [String.toList_append, String.toList_append, hline, toList_toString, Option.elim_some,
      List.append_assoc, List.append_assoc]
    rfl

/-- The displayed position is read as a directive for what it shows. -/
theorem read_display {p : Pos} (h : p.shown.Proper) :
    LineDirective.read p.display.toList = .accepted p.shown := by
  rw [display_eq, LineDirective.text, String.toList_ofList, LineDirective.read_written h]

end Pos

namespace LineDirective

variable {d : LineDirective} {p : Pos} {base : Base}

/-- A number that a directive may name can be added to the line, and to the column, in 32 bits. -/
structure InReach (place : Place) : Prop where
  line_lt : Base.largestNumber + place.line < UInt32.size
  column_lt : Base.largestNumber + place.column < UInt32.size

/-- A number in range is positive and not too large. -/
theorem pos_of_inRange {n : Nat} (h : inRange n) : 0 < n ∧ n ≤ Base.largestNumber := by
  unfold inRange at h
  rwa [Bool.and_eq_true, decide_eq_true_eq, decide_eq_true_eq] at h

/-- Against the base that a directive sets up, a place is shown as the directive says. -/
theorem shown_of_base (h : d.Proper) {anchor : Place}
    (hbase : p.base = ⟨d.filename, anchor, d.line, d.column?.getD 0⟩) (hcolumn : 0 < p.place.column)
    (hreach : InReach p.place) :
    p.shown = ⟨d.filename, d.line + (p.place.line - anchor.line), d.column?.map fun column =>
      if p.place.line = anchor.line then column + (p.place.column - anchor.column) else p.place.column⟩ := by
  obtain ⟨hline, hcolumn'⟩ := hreach
  -- No sum starts over: a directive names small numbers only.
  have hreported : p.reportedLine = d.line + (p.place.line - anchor.line) := by
    have hrange := (pos_of_inRange h.line).2
    unfold Pos.reportedLine
    rw [hbase]
    exact Nat.mod_eq_of_lt (by dsimp only; omega)
  unfold Pos.shown
  rw [hreported]
  unfold Pos.reportedColumn
  rw [hbase]
  dsimp only
  cases hd : d.column? with
  | none => rfl
  | some column =>
    obtain ⟨hpos, hrange⟩ := pos_of_inRange (h.column column hd)
    have hsum : (column + (p.place.column - anchor.column)) % UInt32.size =
        column + (p.place.column - anchor.column) := Nat.mod_eq_of_lt (by omega)
    rw [Option.getD_some, if_neg (Nat.ne_of_gt hpos), Option.map_some, hsum, if_neg]
    split
    · omega
    · omega

/-- Below a line comment, places are displayed as its directive says. -/
theorem display_belowLine (h : d.Proper) {line : Nat} (hbase : p.base = d.toBase ⟨line + 1, 1⟩ base)
    (hline : line < p.place.line) (hcolumn : 0 < p.place.column) (hreach : InReach p.place) :
    p.display = (d.belowLine line p.place).text := by
  rw [toBase_of_ne h.filename_ne] at hbase
  rw [Pos.display_eq, shown_of_base h hbase hcolumn hreach]
  unfold belowLine
  congr 2
  · dsimp only
    omega
  · refine congrArg (d.column?.map ·) (funext fun column => ?_)
    dsimp only
    split <;> omega

/-- Behind a block comment, places are displayed as its directive says. -/
theorem display_behindBlock (h : d.Proper) {stop : Place} (hbase : p.base = d.toBase stop base)
    (hstop : stop ≤ p.place) (hcolumn : 0 < p.place.column) (hreach : InReach p.place) :
    p.display = (d.behindBlock stop p.place).text := by
  have hplace : stop.line < p.place.line ∨ stop.line = p.place.line ∧ stop.column ≤ p.place.column := hstop
  rw [toBase_of_ne h.filename_ne] at hbase
  rw [Pos.display_eq, shown_of_base h hbase hcolumn hreach]
  unfold behindBlock
  congr 2
  · omega
  · refine congrArg (d.column?.map ·) (funext fun column => ?_)
    split <;> omega

end LineDirective

end FrontEnd
