import FrontEnd.Parser.File
import Mathlib.Data.List.SplitBy
import Mathlib.Tactic.Common

/-!
# Positions mapped

What has positions, with a function applied to each of them: the parts of a tree, failures and diagnostics.
The text of a tree does not depend on positions (`Stmt.text_mapPos`).
-/

namespace FrontEnd

variable (f : Pos → Pos)

/-- The identifier with its position mapped. -/
def Ident.mapPos (name : Ident) : Ident := { name with pos := f name.pos }

/-- The literal with its position mapped. -/
def Literal.mapPos (l : Literal) : Literal := { l with pos := f l.pos }

mutual

/-- The expression with its positions mapped. -/
def Expr.mapPos : Expr → Expr
  | .name n => .name (n.mapPos f)
  | .literal l => .literal (l.mapPos f)
  | .unary pos op x => .unary (f pos) op x.mapPos
  | .binary pos op x y => .binary (f pos) op x.mapPos y.mapPos
  | .selector pos x field => .selector (f pos) x.mapPos (field.mapPos f)
  | .index pos x i => .index (f pos) x.mapPos i.mapPos
  | .call pos callee args => .call (f pos) callee.mapPos (Expr.mapPosEach args)
  | .sliceType pos elem => .sliceType (f pos) elem.mapPos
  | .sliceLit pos elem elems => .sliceLit (f pos) elem.mapPos (Expr.mapPosEach elems)
  | .paren pos x => .paren (f pos) x.mapPos
  | .bad pos => .bad (f pos)

/-- The expressions with their positions mapped. -/
def Expr.mapPosEach : List Expr → List Expr
  | [] => []
  | x :: xs => x.mapPos :: Expr.mapPosEach xs

end

/-- The parameter with its positions mapped. -/
def Param.mapPos (p : Param) : Param := ⟨f p.pos, p.name.mapPos f, p.type.mapPos f⟩

/-- The group with its position mapped. -/
def Group.mapPos (g : Group) : Group := { g with pos := f g.pos }

mutual

/-- The block with its positions mapped. -/
def Block.mapPos : Block → Block
  | .mk pos stmts rbrace => .mk (f pos) (Stmt.mapPosEach stmts) (f rbrace)

/-- The statement, if there is one, with its positions mapped. -/
def Stmt.mapPos? : Option Stmt → Option Stmt
  | none => none
  | some s => some s.mapPos

/-- The block, if there is one, with its positions mapped. -/
def Block.mapPos? : Option Block → Option Block
  | none => none
  | some b => some b.mapPos

/-- The statement with its positions mapped. -/
def Stmt.mapPos : Stmt → Stmt
  | .block body => .block body.mapPos
  | .ifStmt pos init? cond thenBlock else? =>
    .ifStmt (f pos) (Stmt.mapPos? init?) (cond.mapPos f) thenBlock.mapPos (Stmt.mapPos? else?)
  | .whileStmt pos cond body => .whileStmt (f pos) (cond.mapPos f) body.mapPos
  | .forStmt pos init? cond? post? body =>
    .forStmt (f pos) (Stmt.mapPos? init?) (cond?.map (Expr.mapPos f)) (Stmt.mapPos? post?) body.mapPos
  | .returnStmt pos result? => .returnStmt (f pos) (result?.map (Expr.mapPos f))
  | .breakStmt pos => .breakStmt (f pos)
  | .empty pos => .empty (f pos)
  | .expr x => .expr (x.mapPos f)
  | .assign pos op? lhs rhs => .assign (f pos) op? (lhs.mapPos f) (rhs.mapPos f)
  | .incDec pos op x => .incDec (f pos) op (x.mapPos f)
  | .define pos lhs rhs => .define (f pos) (lhs.mapPos f) (rhs.mapPos f)
  | .decls pos ds => .decls (f pos) (Decl.mapPosEach ds)

/-- The statements with their positions mapped. -/
def Stmt.mapPosEach : List Stmt → List Stmt
  | [] => []
  | s :: ss => s.mapPos :: Stmt.mapPosEach ss

/-- What is declared, with its positions mapped. -/
def Spec.mapPos : Spec → Spec
  | .importSpec path? => .importSpec (path?.map (Literal.mapPos f))
  | .typeSpec name isAlias type => .typeSpec (name.mapPos f) isAlias (type.mapPos f)
  | .varSpec name type? value? =>
    .varSpec (name.mapPos f) (type?.map (Expr.mapPos f)) (value?.map (Expr.mapPos f))
  | .funcSpec name params result? body? =>
    .funcSpec (name.mapPos f) (params.map (Param.mapPos f)) (result?.map (Expr.mapPos f))
      (Block.mapPos? body?)
  | .operSpec lhs overload rhs result body? =>
    .operSpec (lhs.mapPos f) overload (rhs.mapPos f) (result.mapPos f) (Block.mapPos? body?)

/-- The declaration with its positions mapped. -/
def Decl.mapPos : Decl → Decl
  | .mk pos group? spec => .mk (f pos) (group?.map (Group.mapPos f)) spec.mapPos

/-- The declarations with their positions mapped. -/
def Decl.mapPosEach : List Decl → List Decl
  | [] => []
  | d :: ds => d.mapPos :: Decl.mapPosEach ds

end

/-- The file with its positions mapped. -/
def File.mapPos (file : File) : File :=
  ⟨f file.pos, file.moduleName.mapPos f, Decl.mapPosEach f file.decls⟩

/-- The diagnostic with its position mapped. -/
def Diagnostic.mapPos (d : Diagnostic) : Diagnostic := { d with pos := f d.pos }

/-- The failure with its position mapped. -/
def Failure.mapPos : Failure → Failure
  | .missingHeader pos found => .missingHeader (f pos) found
  | .aborted first => .aborted (first.mapPos f)

/-- What comes of reading a file, with its positions mapped. -/
def Failure.mapPosIn : Except Failure File → Except Failure File
  | .error failure => .error (failure.mapPos f)
  | .ok file => .ok (file.mapPos f)

/-! ## Lists -/

/-- Mapping in several expressions is mapping in each of them. -/
theorem Expr.mapPosEach_eq_map (xs : List Expr) : Expr.mapPosEach f xs = xs.map (Expr.mapPos f) := by
  induction xs with
  | nil => rfl
  | cons x xs ih => rw [Expr.mapPosEach, ih, List.map_cons]

/-- Mapping in several statements is mapping in each of them. -/
theorem Stmt.mapPosEach_eq_map (ss : List Stmt) : Stmt.mapPosEach f ss = ss.map (Stmt.mapPos f) := by
  induction ss with
  | nil => rfl
  | cons s ss ih => rw [Stmt.mapPosEach, ih, List.map_cons]

/-- Mapping in several declarations is mapping in each of them. -/
theorem Decl.mapPosEach_eq_map (ds : List Decl) : Decl.mapPosEach f ds = ds.map (Decl.mapPos f) := by
  induction ds with
  | nil => rfl
  | cons d ds ih => rw [Decl.mapPosEach, ih, List.map_cons]

/-- Mapping in a statement that may be there. -/
theorem Stmt.mapPos?_eq_map (s? : Option Stmt) : Stmt.mapPos? f s? = s?.map (Stmt.mapPos f) := by
  cases s? <;> simp [Stmt.mapPos?]

/-- Mapping in a block that may be there. -/
theorem Block.mapPos?_eq_map (b? : Option Block) : Block.mapPos? f b? = b?.map (Block.mapPos f) := by
  cases b? <;> simp [Block.mapPos?]

/-! ## Positions of nodes -/

/-- The position of an expression is mapped with it. -/
@[simp] theorem Expr.pos_mapPos (x : Expr) : (x.mapPos f).pos = f x.pos := by
  cases x <;> simp only [Expr.mapPos] <;> rfl

/-- The position of a block is mapped with it. -/
@[simp] theorem Block.pos_mapPos (b : Block) : (b.mapPos f).pos = f b.pos := by
  cases b
  simp only [Block.mapPos]
  rfl

/-- The position of a statement is mapped with it. -/
@[simp] theorem Stmt.pos_mapPos (s : Stmt) : (s.mapPos f).pos = f s.pos := by
  cases s <;> simp only [Stmt.mapPos] <;> first | rfl | exact Block.pos_mapPos f _ | exact Expr.pos_mapPos f _

/-- The text of an identifier does not depend on its position. -/
@[simp] theorem Ident.text_mapPos (name : Ident) : (name.mapPos f).text = name.text := rfl

/-- The text of a literal does not depend on its position. -/
@[simp] theorem Literal.text_mapPos (l : Literal) : (l.mapPos f).text = l.text := rfl

/-- The keyword for what is declared does not depend on positions. -/
@[simp] theorem Spec.keyword_mapPos (s : Spec) : (s.mapPos f).keyword = s.keyword := by
  cases s <;> simp only [Spec.mapPos] <;> rfl

/-! ## Texts -/

namespace Expr

/-- Whether there is an operation of two operands does not depend on positions. -/
@[simp] theorem binaryOp?_mapPos (x : Expr) : (x.mapPos f).binaryOp? = x.binaryOp? := by
  cases x <;> simp only [Expr.mapPos] <;> rfl

/-- Nor does it whether there is an operation. -/
@[simp] theorem isOperation_mapPos (x : Expr) : (x.mapPos f).isOperation = x.isOperation := by
  cases x <;> simp only [Expr.mapPos] <;> rfl

/-- How an expression binds does not depend on positions. -/
@[simp] theorem binding?_mapPos (x : Expr) : (x.mapPos f).binding? = x.binding? := by
  unfold binding?
  rw [binaryOp?_mapPos]

/-- Nor does it whether an expression binds looser than an operator. -/
@[simp] theorem bindsLooser_mapPos (x : Expr) (op : Operator) :
    (x.mapPos f).bindsLooser op = x.bindsLooser op := by
  unfold bindsLooser
  rw [binding?_mapPos]

/-- Nor does it whether an expression binds no tighter than an operator. -/
@[simp] theorem bindsNoTighter_mapPos (x : Expr) (op : Operator) :
    (x.mapPos f).bindsNoTighter op = x.bindsNoTighter op := by
  unfold bindsNoTighter
  rw [binding?_mapPos]

mutual

/-- The pieces of an expression do not depend on positions. -/
@[simp] theorem pieces_mapPos (x : Expr) : (x.mapPos f).pieces = x.pieces := by
  cases x with
  | name n => simp only [Expr.mapPos, Expr.pieces, Ident.text_mapPos]
  | literal l => simp only [Expr.mapPos, Expr.pieces, Literal.text_mapPos]
  | unary pos op x => simp only [Expr.mapPos, Expr.pieces, pieces_mapPos x, binding?_mapPos]
  | binary pos op x y =>
    simp only [Expr.mapPos, Expr.pieces, pieces_mapPos x, pieces_mapPos y, bindsLooser_mapPos,
      bindsNoTighter_mapPos]
  | selector pos x field =>
    simp only [Expr.mapPos, Expr.pieces, pieces_mapPos x, isOperation_mapPos, Ident.text_mapPos]
  | index pos x i =>
    simp only [Expr.mapPos, Expr.pieces, pieces_mapPos x, pieces_mapPos i, isOperation_mapPos]
  | call pos callee args =>
    simp only [Expr.mapPos, Expr.pieces, pieces_mapPos callee, piecesEach_mapPos args, isOperation_mapPos]
  | sliceType pos elem => simp only [Expr.mapPos, Expr.pieces, pieces_mapPos elem]
  | sliceLit pos elem elems =>
    simp only [Expr.mapPos, Expr.pieces, pieces_mapPos elem, piecesEach_mapPos elems]
  | paren pos x => simp only [Expr.mapPos, Expr.pieces, pieces_mapPos x]
  | bad pos => simp only [Expr.mapPos, Expr.pieces]

/-- The pieces of several expressions do not depend on positions. -/
@[simp] theorem piecesEach_mapPos (xs : List Expr) : piecesEach (mapPosEach f xs) = piecesEach xs := by
  cases xs with
  | nil => simp only [mapPosEach, piecesEach]
  | cons x xs => simp only [mapPosEach, piecesEach, pieces_mapPos x, piecesEach_mapPos xs]

end

end Expr

/-- The pieces of a parameter do not depend on positions. -/
@[simp] theorem Param.pieces_mapPos (p : Param) : (p.mapPos f).pieces = p.pieces := by
  simp only [Param.mapPos, Param.pieces, Ident.text_mapPos, Expr.pieces_mapPos]

namespace LaidDecl

/-- The laid out declaration with the position of its group mapped. -/
def mapPos (d : LaidDecl) : LaidDecl := { d with group? := d.group?.map (Group.mapPos f) }

/-- Whether declarations are in one group depends on its number, not on its position. -/
theorem sameGroup_mapPos (d e : LaidDecl) : sameGroup (d.mapPos f) (e.mapPos f) = sameGroup d e := by
  obtain ⟨_ | g, _, _⟩ := d <;> obtain ⟨_ | h, _, _⟩ := e <;> rfl

/-- How deep members of a group stand does not depend on its position. -/
theorem memberDepth_map (group? : Option Group) (depth : Nat) :
    memberDepth (group?.map (Group.mapPos f)) depth = memberDepth group? depth := by
  cases group? <;> rfl

/-- The pieces of declarations that stand together do not depend on positions. -/
theorem clusterPieces_map (depth : Nat) (ds : List LaidDecl) :
    clusterPieces depth (ds.map (mapPos f)) = clusterPieces depth ds := by
  cases ds with
  | nil => rfl
  | cons d ds =>
    obtain ⟨_ | g, keyword, pieces⟩ := d
    · rfl
    · unfold clusterPieces
      simp only [List.map_cons, mapPos, Option.map_some, List.flatMap_cons, List.flatMap_map, Group.mapPos]

/-- The declarations are gathered alike. -/
theorem splitBy_map (ds : List LaidDecl) :
    (ds.map (mapPos f)).splitBy sameGroup = (ds.splitBy sameGroup).map (List.map (mapPos f)) := by
  have hloop (ds : List LaidDecl) (d : LaidDecl) (gathered : List LaidDecl) (before : List (List LaidDecl)) :
      List.splitBy.loop sameGroup (ds.map (mapPos f)) (d.mapPos f) (gathered.map (mapPos f))
          (before.map (List.map (mapPos f))) =
        (List.splitBy.loop sameGroup ds d gathered before).map (List.map (mapPos f)) := by
    induction ds generalizing d gathered before with
    | nil => simp [List.splitBy.loop]
    | cons e ds ih =>
      rw [List.map_cons, List.splitBy.loop, List.splitBy.loop, sameGroup_mapPos]
      cases sameGroup d e with
      | true => exact ih e (d :: gathered) before
      | false =>
        have hnext := ih e [] ((d :: gathered).reverse :: before)
        rwa [List.map_cons, List.map_reverse, List.map_cons] at hnext
  cases ds with
  | nil => rfl
  | cons d ds => exact hloop ds d [] []

/-- Which declarations stand together does not depend on positions. -/
theorem clusters_map (depth : Nat) (ds : List LaidDecl) :
    clusters depth (ds.map (mapPos f)) = clusters depth ds := by
  unfold clusters
  rw [splitBy_map, List.map_map]
  exact List.map_congr_left fun cluster _ => clusterPieces_map f depth cluster

end LaidDecl

mutual

/-- The pieces of a block do not depend on positions. -/
theorem Block.pieces_mapPos (depth : Nat) (b : Block) : (b.mapPos f).pieces depth = b.pieces depth := by
  cases b with
  | mk pos stmts rbrace => simp only [Block.mapPos, Block.pieces, Stmt.piecesOfLines_mapPos _ stmts]

/-- The pieces of statements on lines do not depend on positions. -/
theorem Stmt.piecesOfLines_mapPos (depth : Nat) (ss : List Stmt) :
    Stmt.piecesOfLines depth (Stmt.mapPosEach f ss) = Stmt.piecesOfLines depth ss := by
  cases ss with
  | nil => simp only [Stmt.mapPosEach]
  | cons s ss =>
    simp only [Stmt.mapPosEach, Stmt.piecesOfLines, Stmt.pieces_mapPos _ s, Stmt.piecesOfLines_mapPos _ ss]

/-- The pieces of a statement that may be there do not depend on positions. -/
theorem Stmt.pieces?_mapPos (depth : Nat) (s? : Option Stmt) :
    Stmt.pieces? depth (Stmt.mapPos? f s?) = Stmt.pieces? depth s? := by
  cases s? with
  | none => simp only [Stmt.mapPos?]
  | some s => simp only [Stmt.mapPos?, Stmt.pieces?, Stmt.pieces_mapPos _ s]

/-- The pieces of a statement do not depend on positions. -/
theorem Stmt.pieces_mapPos (depth : Nat) (s : Stmt) : (s.mapPos f).pieces depth = s.pieces depth := by
  cases s with
  | block body => simp only [Stmt.mapPos, Stmt.pieces, Block.pieces_mapPos _ body]
  | ifStmt pos init? cond thenBlock else? =>
    simp only [Stmt.mapPos, Stmt.pieces, Stmt.pieces?_mapPos _ init?, Expr.pieces_mapPos,
      Block.pieces_mapPos _ thenBlock, Stmt.pieces?_mapPos _ else?]
  | whileStmt pos cond body =>
    simp only [Stmt.mapPos, Stmt.pieces, Expr.pieces_mapPos, Block.pieces_mapPos _ body]
  | forStmt pos init? cond? post? body =>
    simp only [Stmt.mapPos, Stmt.pieces, Stmt.pieces?_mapPos _ init?, Stmt.pieces?_mapPos _ post?,
      Block.pieces_mapPos _ body]
    cases cond? with
    | none => rfl
    | some cond =>
      -- `pieces` reads the condition only under what it found of the other two clauses.
      cases Stmt.pieces? depth init? <;> cases Stmt.pieces? depth post? <;>
        simp only [Option.map_some, Option.elim_some, Expr.pieces_mapPos]
  | returnStmt pos result? =>
    cases result? <;>
      simp only [Stmt.mapPos, Stmt.pieces, Option.map_some, Option.map_none, Option.elim_some, Option.elim_none,
        Expr.pieces_mapPos]
  | breakStmt pos => simp only [Stmt.mapPos, Stmt.pieces]
  | empty pos => simp only [Stmt.mapPos, Stmt.pieces]
  | expr x => simp only [Stmt.mapPos, Stmt.pieces, Expr.pieces_mapPos]
  | assign pos op? lhs rhs => simp only [Stmt.mapPos, Stmt.pieces, Expr.pieces_mapPos]
  | incDec pos op x => simp only [Stmt.mapPos, Stmt.pieces, Expr.pieces_mapPos]
  | define pos lhs rhs => simp only [Stmt.mapPos, Stmt.pieces, Expr.pieces_mapPos]
  | decls pos ds =>
    cases ds with
    | nil => simp only [Stmt.mapPos, Decl.mapPosEach, Stmt.pieces]
    | cons d ds =>
      -- The first declaration of a statement is laid out apart from its followers; the clusters are taken of
      -- all of them together.
      have hlaid := LaidDecl.clusters_map f depth (Decl.laid depth d :: Decl.laidEach depth ds)
      rw [List.map_cons] at hlaid
      simp only [Stmt.mapPos, Decl.mapPosEach, Stmt.pieces, Decl.laid_mapPos _ d, Decl.laidEach_mapPos _ ds,
        hlaid]

/-- The pieces of a body that may be there do not depend on positions. -/
theorem Block.piecesAfter_mapPos (depth : Nat) (b? : Option Block) :
    Block.piecesAfter depth (Block.mapPos? f b?) = Block.piecesAfter depth b? := by
  cases b? with
  | none => simp only [Block.mapPos?]
  | some b => simp only [Block.mapPos?, Block.piecesAfter, Block.pieces_mapPos _ b]

/-- The pieces of what is declared do not depend on positions. -/
theorem Spec.pieces_mapPos (depth : Nat) (s : Spec) : (s.mapPos f).pieces depth = s.pieces depth := by
  cases s with
  | importSpec path? =>
    cases path? <;>
      simp only [Spec.mapPos, Spec.pieces, Option.map_some, Option.map_none, Option.elim_some, Option.elim_none,
        Literal.text_mapPos]
  | typeSpec name isAlias type =>
    simp only [Spec.mapPos, Spec.pieces, Ident.text_mapPos, Expr.pieces_mapPos]
  | varSpec name type? value? =>
    cases type? <;> cases value? <;>
      simp only [Spec.mapPos, Spec.pieces, Option.map_some, Option.map_none, Option.elim_some, Option.elim_none,
        Ident.text_mapPos, Expr.pieces_mapPos]
  | funcSpec name params result? body? =>
    -- Of a specification only the parameters are a list; each is laid out by itself.
    have hparams : (params.map (Param.mapPos f)).map Param.pieces = params.map Param.pieces := by
      rw [List.map_map]
      exact List.map_congr_left fun p _ => p.pieces_mapPos f
    cases result? <;>
      simp only [Spec.mapPos, Spec.pieces, Option.map_some, Option.map_none, Option.elim_some, Option.elim_none,
        Ident.text_mapPos, Expr.pieces_mapPos, hparams, Block.piecesAfter_mapPos _ body?]
  | operSpec lhs overload rhs result body? =>
    simp only [Spec.mapPos, Spec.pieces, Param.pieces_mapPos, Expr.pieces_mapPos,
      Block.piecesAfter_mapPos _ body?]

/-- A declaration is laid out before or after its positions are mapped. -/
theorem Decl.laid_mapPos (depth : Nat) (d : Decl) :
    Decl.laid depth (d.mapPos f) = (Decl.laid depth d).mapPos f := by
  cases d with
  | mk pos group? spec =>
    simp only [Decl.mapPos, Decl.laid, LaidDecl.memberDepth_map, Spec.keyword_mapPos,
      Spec.pieces_mapPos _ spec, LaidDecl.mapPos]

/-- Several declarations are laid out before or after their positions are mapped. -/
theorem Decl.laidEach_mapPos (depth : Nat) (ds : List Decl) :
    Decl.laidEach depth (Decl.mapPosEach f ds) = (Decl.laidEach depth ds).map (LaidDecl.mapPos f) := by
  cases ds with
  | nil => simp only [Decl.mapPosEach, Decl.laidEach, List.map_nil]
  | cons d ds =>
    simp only [Decl.mapPosEach, Decl.laidEach, List.map_cons, Decl.laid_mapPos _ d, Decl.laidEach_mapPos _ ds]

end

/-- The text of a statement does not depend on positions. -/
@[simp] theorem Stmt.text_mapPos (s : Stmt) : (s.mapPos f).text = s.text := by
  unfold Stmt.text
  rw [Stmt.pieces_mapPos]

end FrontEnd
