import FrontEnd.Diagnostic
import FrontEnd.Position

/-!
# Line directives

A comment whose text starts with `line ` may say that what follows it comes from another file:
`file:line` or `file:line:column`, read from the right, since file names may hold colons. A line
comment speaks for the lines after it and must start its line; a block comment speaks for what comes
right after it and must not contain a newline. A comment without a colon is no directive after all,
and numbers that are none or out of range are faults.

Offsets into the text count bytes, like columns.
-/

namespace FrontEnd

/-- What a comment says about positions. -/
structure LineDirective where
  filename : String
  line : Nat
  column? : Option Nat
deriving DecidableEq, Repr, Inhabited

namespace LineDirective

/-- The number of bytes of some characters. -/
def byteLength : List Char → Nat
  | [] => 0
  | c :: cs => c.utf8Size + byteLength cs

/-- The number that a text consists of, if it fits into 64 bits. -/
def number? (digits : List Char) : Option Nat :=
  if digits ≠ [] ∧ digits.all Char.isDigit then
    let n := digits.foldl (fun n c => 10 * n + (c.toNat - '0'.toNat)) 0
    if n < UInt64.size then some n else none
  else none

/-- The characters before the last colon and those after it. -/
def splitLast? : List Char → Option (List Char × List Char)
  | [] => none
  | c :: cs =>
    match splitLast? cs with
    | some (front, back) => some (c :: front, back)
    | none => if c = ':' then some ([], cs) else none

/-- Whether a line or column number is in range. -/
def inRange (n : Nat) : Bool := 0 < n && n ≤ Base.largestNumber

/-- What a text comes to that may be a directive. -/
inductive Reading where
  /-- there is no colon in it -/
  | unrelated
  /-- the text at this offset is not the number that it should be -/
  | rejected (offset : Nat) (cause : Cause)
  | accepted (directive : LineDirective)
deriving DecidableEq, Repr, Inhabited

/-- The directive with a line number that has been found after `file`, if it is in range. -/
def withLine (file lineText : List Char) (line : Nat) (column? : Option Nat) : Reading :=
  if inRange line then .accepted ⟨String.ofList file, line, column?⟩
  else .rejected (byteLength file + 1) (.badLine (String.ofList lineText))

/-- Read the text after `line `. Of two trailing numbers the last is a column; what stands before a
single one is all file name, even if it ends in another colon. -/
def read (text : List Char) : Reading :=
  match splitLast? text with
  | none => .unrelated
  | some (front, lastText) =>
    match number? lastText with
    | none => .rejected (byteLength front + 1) (.badLine (String.ofList lastText))
    | some last =>
      match splitLast? front with
      | none => withLine front lastText last none
      | some (file, lineText) =>
        match number? lineText with
        -- The colon in front belongs to the file name, and the one number is the line.
        | none => withLine front lastText last none
        | some line =>
          if inRange last then withLine file lineText line (some last)
          else .rejected (byteLength front + 1) (.badColumn (String.ofList lastText))

/-- The base that a directive sets up from its anchor on. With a column, an empty file name stands for
the current one. -/
def toBase (d : LineDirective) (anchor : Place) (current : Base) : Base where
  filename := if d.filename.isEmpty && d.column?.isSome then current.filename else d.filename
  anchor
  line := d.line
  column := d.column?.getD 0

/-! ## Comments -/

/-- A comment that has the form of a directive: the place from which it speaks, and its text after
`line `. -/
structure Candidate where
  anchor : Place
  text : List Char
deriving DecidableEq, Repr, Inhabited

/-- What stands in a comment that must start with `line `. -/
def operand? (body : List Char) : Option (List Char) :=
  let word := "line ".toList
  if word.isPrefixOf body then some (body.drop word.length) else none

/-- The characters without a given ending. -/
def dropEnding (ending cs : List Char) : List Char :=
  if ending.isSuffixOf cs then cs.take (cs.length - ending.length) else cs

/-- The candidate in a comment at `place`, markers included, if it has the form of a directive. -/
def candidate? (place : Place) (comment : String) : Option Candidate :=
  match comment.toList with
  | '/' :: '*' :: cs =>
    if cs.contains '\n' then none
    else
      (operand? (dropEnding ['*', '/'] cs)).map
        (⟨⟨place.line, place.column + comment.utf8ByteSize⟩, ·⟩)
  | '/' :: '/' :: cs =>
    if place.column = 1 then (operand? (dropEnding ['\r'] cs)).map (⟨⟨place.line + 1, 1⟩, ·⟩)
    else none
  | _ => none

/-- The place in the comment where its text after `line ` starts. -/
def operandPlace (place : Place) : Place :=
  ⟨place.line, place.column + 2 + "line ".length⟩

end LineDirective

end FrontEnd
