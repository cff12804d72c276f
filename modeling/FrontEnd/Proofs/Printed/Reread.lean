import FrontEnd.Proofs.Grammar.Spelling
import FrontEnd.Proofs.Grammar.Unplaced
import FrontEnd.Proofs.Words.Clean
import FrontEnd.Proofs.Trees.Sound
import FrontEnd.Tree.Layout
import Mathlib.Logic.Basic

/-!
# Expressions that can be read back

An expression is printable if it has no bad parts and its words are words of the language, whether a parser
would ever build it or not. The tree that its text is read as, `Expr.reread`, has the parentheses that
were written and keeps a comparison `a < b` as `b > a`; without parentheses it is the mirrored expression
(`Expr.bare_reread`).
-/

namespace FrontEnd

/-! ## What is printable -/

/-- A literal as it may stand in a source. -/
structure Literal.IsProper (l : Literal) : Prop where
  valid : IsLiteral l.kind l.text.toList
  clean : IsClean l.text.toList
  fine : l.bad = false

/-- Whether the expression is an integer without a mark for its notation, so that a point after it would
belong to it. -/
def Expr.isPlainInt : Expr → Bool
  | .literal l => l.kind = .int && decide (IsDigits .decimal l.text.toList)
  | _ => false

/-- A name, or a slice type of names, nested any number of times. -/
inductive Expr.IsPlainType : Expr → Prop
  | name {n : Ident} : isIdentifier n.text → IsPlainType (.name n)
  | slice {pos : Pos} {elem : Expr} : elem.IsPlainType → IsPlainType (.sliceType pos elem)

/-- An expression of proper words, with operators that may stand where they do, and no selection from an
integer that would take the point. -/
inductive Expr.IsPrintable : Expr → Prop
  | name {n : Ident} : isIdentifier n.text → IsPrintable (.name n)
  | literal {l : Literal} : l.IsProper → IsPrintable (.literal l)
  | unary {pos : Pos} {op : Operator} {x : Expr} : op.isUnary → x.IsPrintable →
      IsPrintable (.unary pos op x)
  | binary {pos : Pos} {op : Operator} {x y : Expr} : op ≠ .not → x.IsPrintable → y.IsPrintable →
      IsPrintable (.binary pos op x y)
  | selector {pos : Pos} {x : Expr} {field : Ident} : x.IsPrintable → x.isPlainInt = false →
      isIdentifier field.text → IsPrintable (.selector pos x field)
  | index {pos : Pos} {x i : Expr} : x.IsPrintable → i.IsPrintable → IsPrintable (.index pos x i)
  | call {pos : Pos} {callee : Expr} {args : List Expr} : callee.IsPrintable →
      (∀ arg ∈ args, arg.IsPrintable) → IsPrintable (.call pos callee args)
  | sliceType {pos : Pos} {elem : Expr} : elem.IsPlainType → IsPrintable (.sliceType pos elem)
  | sliceLit {pos : Pos} {elem : Expr} {elems : List Expr} : elem.IsPlainType →
      (∀ elem ∈ elems, elem.IsPrintable) → IsPrintable (.sliceLit pos elem elems)
  | paren {pos : Pos} {x : Expr} : x.IsPrintable → IsPrintable (.paren pos x)

namespace Expr

/-! ## What is read back -/

/-- The expression in parentheses if it needs them. -/
def parenthesizedIf (needed : Bool) (x : Expr) : Expr := if needed then .paren default x else x

mutual

/-- What the text of an expression is read as. -/
def reread : Expr → Expr
  | .name n => .name n
  | .literal l => .literal l
  | .unary pos op x => .unary pos op (parenthesizedIf x.binding?.isSome x.reread)
  | .binary pos op x y =>
    operation pos op (parenthesizedIf (x.bindsLooser op) x.reread)
      (parenthesizedIf (y.bindsNoTighter op) y.reread)
  | .selector pos x field => .selector pos (parenthesizedIf x.isOperation x.reread) field
  | .index pos x i => .index pos (parenthesizedIf x.isOperation x.reread) i.reread
  | .call pos callee args => .call pos (parenthesizedIf callee.isOperation callee.reread) (rereadEach args)
  | .sliceType pos elem => .sliceType pos elem.reread
  | .sliceLit pos elem elems => .sliceLit pos elem.reread (rereadEach elems)
  | .paren pos x => .paren pos x.reread
  | .bad pos => .bad pos

/-- What the text of each of some expressions is read as. -/
def rereadEach : List Expr → List Expr
  | [] => []
  | x :: xs => x.reread :: rereadEach xs

end

mutual

/-- The expression without parentheses. -/
def unparenthesized : Expr → Expr
  | .name n => .name n
  | .literal l => .literal l
  | .unary pos op x => .unary pos op x.unparenthesized
  | .binary pos op x y => .binary pos op x.unparenthesized y.unparenthesized
  | .selector pos x field => .selector pos x.unparenthesized field
  | .index pos x i => .index pos x.unparenthesized i.unparenthesized
  | .call pos callee args => .call pos callee.unparenthesized (unparenthesizedEach args)
  | .sliceType pos elem => .sliceType pos elem.unparenthesized
  | .sliceLit pos elem elems => .sliceLit pos elem.unparenthesized (unparenthesizedEach elems)
  | .paren _ x => x.unparenthesized
  | .bad pos => .bad pos

/-- The expressions without parentheses. -/
def unparenthesizedEach : List Expr → List Expr
  | [] => []
  | x :: xs => x.unparenthesized :: unparenthesizedEach xs

end

/-- The parentheses around an expression are among those that are left out. -/
theorem unparenthesized_unparen (x : Expr) : x.unparen.unparenthesized = x.unparenthesized := by
  fun_induction unparen x with
  | case1 _ x ih => exact ih
  | case2 x _ => rfl

mutual

/-- The expression with every comparison `a < b` turned into `b > a`. -/
def mirrored : Expr → Expr
  | .name n => .name n
  | .literal l => .literal l
  | .unary pos op x => .unary pos op x.mirrored
  | .binary pos op x y =>
    if op = .less then .binary pos .greater y.mirrored x.mirrored else .binary pos op x.mirrored y.mirrored
  | .selector pos x field => .selector pos x.mirrored field
  | .index pos x i => .index pos x.mirrored i.mirrored
  | .call pos callee args => .call pos callee.mirrored (mirroredEach args)
  | .sliceType pos elem => .sliceType pos elem.mirrored
  | .sliceLit pos elem elems => .sliceLit pos elem.mirrored (mirroredEach elems)
  | .paren pos x => .paren pos x.mirrored
  | .bad pos => .bad pos

/-- The expressions with every comparison `a < b` turned into `b > a`. -/
def mirroredEach : List Expr → List Expr
  | [] => []
  | x :: xs => x.mirrored :: mirroredEach xs

end

/-- Nothing but the structure of an expression: without positions and without parentheses. -/
def bare (x : Expr) : Expr := x.unplaced.unparenthesized

/-- Parentheses are left out of what is bare. -/
theorem bare_parenthesizedIf (needed : Bool) (x : Expr) : (parenthesizedIf needed x).bare = x.bare := by
  cases needed <;> rfl

/-- An operation without places and parentheses, with `<` the other way round. -/
theorem bare_operation (pos : Pos) (op : Operator) (x y : Expr) : (operation pos op x y).bare =
    if op = .less then .binary default .greater y.bare x.bare else .binary default op x.bare y.bare := by
  unfold operation
  split <;> rfl

mutual

/-- What is read back is the mirrored expression, up to positions and parentheses. -/
theorem bare_reread (x : Expr) : x.reread.bare = x.mirrored.bare := by
  -- Parentheses are not part of a bare tree, so what printing adds and what the source had both drop out.
  match x with
  | .name _ | .literal _ | .bad _ => rfl
  | .unary _ op x =>
    have hx := (bare_parenthesizedIf x.binding?.isSome x.reread).trans (bare_reread x)
    exact congrArg (Expr.unary default op) hx
  | .binary pos op x y =>
    have hx := (bare_parenthesizedIf (x.bindsLooser op) x.reread).trans (bare_reread x)
    have hy := (bare_parenthesizedIf (y.bindsNoTighter op) y.reread).trans (bare_reread y)
    have hmirrored := bare_operation pos op x.mirrored y.mirrored
    rw [reread, bare_operation, hx, hy, ← hmirrored]
    rfl
  | .selector _ x field =>
    have hx := (bare_parenthesizedIf x.isOperation x.reread).trans (bare_reread x)
    exact congrArg (Expr.selector default · field.unplaced) hx
  | .index _ x i =>
    have hx := (bare_parenthesizedIf x.isOperation x.reread).trans (bare_reread x)
    exact congrArg₂ (Expr.index default) hx (bare_reread i)
  | .call _ callee args =>
    have hcallee := (bare_parenthesizedIf callee.isOperation callee.reread).trans (bare_reread callee)
    exact congrArg₂ (Expr.call default) hcallee (bareEach_reread args)
  | .sliceType _ elem => exact congrArg (Expr.sliceType default) (bare_reread elem)
  | .sliceLit _ elem elems =>
    exact congrArg₂ (Expr.sliceLit default) (bare_reread elem) (bareEach_reread elems)
  | .paren _ x => exact bare_reread x

/-- Several expressions that are read back are the same without places and parentheses. -/
theorem bareEach_reread (xs : List Expr) : unparenthesizedEach (unplacedEach (rereadEach xs)) =
    unparenthesizedEach (unplacedEach (mirroredEach xs)) := by
  match xs with
  | [] => rfl
  | x :: xs => exact congrArg₂ List.cons (bare_reread x) (bareEach_reread xs)

end

end Expr

end FrontEnd
