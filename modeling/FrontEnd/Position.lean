/-!
# Places and reported positions

A `Place` is where a byte stands in a source: its line and its column, both counted from one, the
column in bytes. What a reader of a diagnostic sees may differ from that, because a source can be
generated from another file and say so in a line directive. A `Base` records one such origin: the
place where it takes effect (its anchor), and the file, line and column that this place counts as.
A `Pos` is a place together with the base it is reported against.

Lines after the anchor are shifted by a constant. Columns are shifted on the anchor's own line only,
and a base whose column is zero has no columns to report at all.

Lines and columns are kept in 32 bits where a program counts them. Here they are natural numbers, and
a place `Fits` if 32 bits hold it. Sources that are not too long have only such places, and there the
two ways of counting agree. What is reported is a sum, which starts over at `UInt32.size`.
-/

namespace FrontEnd

/-- A line and a column of a source, both counted from one; columns count bytes. -/
structure Place where
  line : Nat
  column : Nat
deriving DecidableEq, Repr, Inhabited

/-- The line and the column can be kept in 32 bits. -/
def Place.Fits (p : Place) : Prop := p.line < UInt32.size ∧ p.column < UInt32.size

instance (p : Place) : Decidable p.Fits := inferInstanceAs (Decidable (_ ∧ _))

/-- The first place of a source. -/
def Place.first : Place := ⟨1, 1⟩

/-- An origin for reported positions: the anchor counts as `line` and `column` of `filename`, where
column zero says that columns are unknown. -/
structure Base where
  filename : String
  anchor : Place
  line : Nat
  column : Nat
deriving DecidableEq, Repr, Inhabited

/-- The base of a file that is reported as it stands. -/
def Base.file (filename : String) : Base := ⟨filename, .first, 1, 1⟩

/-- The largest line or column that a line directive may name. -/
def Base.largestNumber : Nat := 1024 * 1024 * 1024

/-- A place and the base that it is reported against. -/
structure Pos where
  base : Base
  place : Place
deriving DecidableEq, Repr, Inhabited

namespace Pos

/-- The line shown to the user, a sum in 32 bits. A place above the anchor counts as being on the
anchor's line. -/
def reportedLine (p : Pos) : Nat :=
  (p.base.line + (p.place.line - p.base.anchor.line)) % UInt32.size

/-- The column shown to the user, zero if the base does not know columns. On the anchor's line it is a
sum in 32 bits. -/
def reportedColumn (p : Pos) : Nat :=
  if p.base.column = 0 then 0
  else if p.place.line = p.base.anchor.line then
    (p.base.column + (p.place.column - p.base.anchor.column)) % UInt32.size
  else p.place.column

/-- The text of a position: file, line and column, separated by colons, with no column where it is
unknown. -/
def display (p : Pos) : String :=
  let line := s!"{p.base.filename}:{p.reportedLine}"
  if p.reportedColumn = 0 then line else s!"{line}:{p.reportedColumn}"

/-- A file's own base reports every place of it unchanged, if that fits. -/
theorem reported_file (filename : String) {place : Place} (h : place.Fits)
    (hl : 0 < place.line) (hc : 0 < place.column) :
    reportedLine ⟨.file filename, place⟩ = place.line ∧
      reportedColumn ⟨.file filename, place⟩ = place.column := by
  have hline : 1 + (place.line - 1) = place.line := Nat.add_sub_cancel' hl
  have hcolumn : 1 + (place.column - 1) = place.column := Nat.add_sub_cancel' hc
  constructor
  · change (1 + (place.line - 1)) % UInt32.size = place.line
    rw [hline, Nat.mod_eq_of_lt h.1]
  · change (if place.line = 1 then (1 + (place.column - 1)) % UInt32.size else place.column) = place.column
    rw [hcolumn, Nat.mod_eq_of_lt h.2, ite_self]

end Pos

end FrontEnd
