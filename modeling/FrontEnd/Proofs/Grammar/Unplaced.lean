import FrontEnd.Tree

/-!
# Trees without positions

Trees are the same up to positions if they are equal once all their positions have been erased. The
numbers of groups are kept.
-/

namespace FrontEnd

/-- The identifier without its position. -/
def Ident.unplaced (name : Ident) : Ident := ⟨default, name.text⟩

/-- The literal without its position. -/
def Literal.unplaced (l : Literal) : Literal := ⟨default, l.text, l.kind, l.bad⟩

mutual

/-- The expression without positions. -/
def Expr.unplaced : Expr → Expr
  | .name n => .name n.unplaced
  | .literal l => .literal l.unplaced
  | .unary _ op x => .unary default op x.unplaced
  | .binary _ op x y => .binary default op x.unplaced y.unplaced
  | .selector _ x field => .selector default x.unplaced field.unplaced
  | .index _ x i => .index default x.unplaced i.unplaced
  | .call _ callee args => .call default callee.unplaced (Expr.unplacedEach args)
  | .sliceType _ elem => .sliceType default elem.unplaced
  | .sliceLit _ elem elems => .sliceLit default elem.unplaced (Expr.unplacedEach elems)
  | .paren _ x => .paren default x.unplaced
  | .bad _ => .bad default

/-- The expressions without positions. -/
def Expr.unplacedEach : List Expr → List Expr
  | [] => []
  | x :: xs => x.unplaced :: Expr.unplacedEach xs

end

/-- The parameter without positions. -/
def Param.unplaced (p : Param) : Param := ⟨default, p.name.unplaced, p.type.unplaced⟩

/-- The group without its position. -/
def Group.unplaced (g : Group) : Group := ⟨g.id, default, g.keyword⟩

mutual

/-- The block without positions. -/
def Block.unplaced : Block → Block
  | .mk _ stmts _ => .mk default (Stmt.unplacedEach stmts) default

/-- The statement, if there is one, without positions. -/
def Stmt.unplaced? : Option Stmt → Option Stmt
  | none => none
  | some s => some s.unplaced

/-- The block, if there is one, without positions. -/
def Block.unplaced? : Option Block → Option Block
  | none => none
  | some b => some b.unplaced

/-- The statement without positions. -/
def Stmt.unplaced : Stmt → Stmt
  | .block body => .block body.unplaced
  | .ifStmt _ init? cond thenBlock else? =>
    .ifStmt default (Stmt.unplaced? init?) cond.unplaced thenBlock.unplaced (Stmt.unplaced? else?)
  | .whileStmt _ cond body => .whileStmt default cond.unplaced body.unplaced
  | .forStmt _ init? cond? post? body =>
    .forStmt default (Stmt.unplaced? init?) (cond?.map Expr.unplaced) (Stmt.unplaced? post?)
      body.unplaced
  | .returnStmt _ result? => .returnStmt default (result?.map Expr.unplaced)
  | .breakStmt _ => .breakStmt default
  | .empty _ => .empty default
  | .expr x => .expr x.unplaced
  | .assign _ op? lhs rhs => .assign default op? lhs.unplaced rhs.unplaced
  | .incDec _ op x => .incDec default op x.unplaced
  | .define _ lhs rhs => .define default lhs.unplaced rhs.unplaced
  | .decls _ ds => .decls default (Decl.unplacedEach ds)

/-- The statements without positions. -/
def Stmt.unplacedEach : List Stmt → List Stmt
  | [] => []
  | s :: ss => s.unplaced :: Stmt.unplacedEach ss

/-- What is declared, without positions. -/
def Spec.unplaced : Spec → Spec
  | .importSpec path? => .importSpec (path?.map Literal.unplaced)
  | .typeSpec name isAlias type => .typeSpec name.unplaced isAlias type.unplaced
  | .varSpec name type? value? =>
    .varSpec name.unplaced (type?.map Expr.unplaced) (value?.map Expr.unplaced)
  | .funcSpec name params result? body? =>
    .funcSpec name.unplaced (params.map Param.unplaced) (result?.map Expr.unplaced)
      (Block.unplaced? body?)
  | .operSpec lhs overload rhs result body? =>
    .operSpec lhs.unplaced overload rhs.unplaced result.unplaced (Block.unplaced? body?)

/-- The declaration without positions. -/
def Decl.unplaced : Decl → Decl
  | .mk _ group? spec => .mk default (group?.map Group.unplaced) spec.unplaced

/-- The declarations without positions. -/
def Decl.unplacedEach : List Decl → List Decl
  | [] => []
  | d :: ds => d.unplaced :: Decl.unplacedEach ds

end

/-- Several declarations without places are each without. -/
theorem Decl.unplacedEach_eq_map (ds : List Decl) : Decl.unplacedEach ds = ds.map Decl.unplaced := by
  induction ds with
  | nil => rfl
  | cons d ds ih => rw [Decl.unplacedEach, ih, List.map_cons]

/-- Declarations behind declarations, without places. -/
theorem Decl.unplacedEach_append (ds ds' : List Decl) :
    Decl.unplacedEach (ds ++ ds') = Decl.unplacedEach ds ++ Decl.unplacedEach ds' := by
  simp only [Decl.unplacedEach_eq_map, List.map_append]

/-- The file without positions. -/
def File.unplaced (f : File) : File :=
  ⟨default, f.moduleName.unplaced, Decl.unplacedEach f.decls⟩

end FrontEnd
