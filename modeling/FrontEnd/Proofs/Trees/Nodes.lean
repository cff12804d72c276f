import FrontEnd.Parser.Stmt

/-!
# The nodes of a tree

A tree is taken apart into nodes, each of which has parts in the order of the source. What holds
everywhere in a tree is said of its nodes one by one (`Node.Each`). Expressions that stand where only a
type may are nodes of their own kind; of these only names and slice types have parts.

The declarations of a tree, at any depth, are those of its parts (`Node.decls_eq`).
-/

namespace FrontEnd

/-- A part of a tree. -/
inductive Node where
  | decl (d : Decl)
  | spec (s : Spec)
  | param (p : Param)
  | block (b : Block)
  | stmt (s : Stmt)
  | expr (x : Expr)
  /-- an expression in the place of a type -/
  | type (x : Expr)
  | ident (name : Ident)
  | literal (l : Literal)

namespace Node

/-- What a node is put together from. -/
def parts : Node → List Node
  | .decl d => [.spec d.spec]
  | .spec (.importSpec path?) => path?.toList.map literal
  | .spec (.typeSpec name _ t) => [ident name, type t]
  | .spec (.varSpec name type? value?) => ident name :: (type?.toList.map type ++ value?.toList.map expr)
  | .spec (.funcSpec name params result? body?) =>
    ident name :: (params.map param ++ result?.toList.map type ++ body?.toList.map block)
  | .spec (.operSpec lhs _ rhs result body?) =>
    param lhs :: param rhs :: type result :: body?.toList.map block
  | .param p => [ident p.name, type p.type]
  | .block b => b.stmts.map stmt
  | .stmt (.block b) => [block b]
  | .stmt (.ifStmt _ init? cond thenBlock else?) =>
    init?.toList.map stmt ++ [expr cond, block thenBlock] ++ else?.toList.map stmt
  | .stmt (.whileStmt _ cond body) => [expr cond, block body]
  | .stmt (.forStmt _ init? cond? post? body) =>
    init?.toList.map stmt ++ cond?.toList.map expr ++ post?.toList.map stmt ++ [block body]
  | .stmt (.returnStmt _ result?) => result?.toList.map expr
  | .stmt (.breakStmt _) | .stmt (.empty _) => []
  | .stmt (.expr x) | .stmt (.incDec _ _ x) => [expr x]
  | .stmt (.assign _ _ lhs rhs) | .stmt (.define _ lhs rhs) => [expr lhs, expr rhs]
  | .stmt (.decls _ ds) => ds.map decl
  | .expr (.name n) | .type (.name n) => [ident n]
  | .expr (.literal l) => [literal l]
  | .expr (.unary _ _ x) | .expr (.paren _ x) => [expr x]
  | .expr (.binary _ _ x y) | .expr (.index _ x y) => [expr x, expr y]
  | .expr (.selector _ x field) => [expr x, ident field]
  | .expr (.call _ callee args) => expr callee :: args.map expr
  | .expr (.sliceType _ elem) | .type (.sliceType _ elem) => [type elem]
  | .expr (.sliceLit _ elem elems) => type elem :: elems.map expr
  | .expr (.bad _) | .type _ | .ident _ | .literal _ => []

/-- The first node is the second or somewhere in it. -/
inductive Within (m : Node) : Node → Prop
  | self : Within m m
  | part {p n} : p ∈ n.parts → Within m p → Within m n

/-- Something holds of the node and of all nodes in it. -/
def Each (P : Node → Prop) (n : Node) : Prop := ∀ m, Within m n → P m

section

variable {P Q : Node → Prop} {n : Node}

/-- What holds of each part of a node holds of the node and of each part of its parts. -/
theorem each_iff : n.Each P ↔ P n ∧ ∀ m ∈ n.parts, m.Each P := by
  constructor
  · exact fun h => ⟨h n .self, fun p hp m hm => h m (.part hp hm)⟩
  · rintro ⟨hn, hparts⟩ m (_ | ⟨hp, hm⟩)
    · exact hn
    · exact hparts _ hp m hm

/-- What holds of each part may say less. -/
theorem Each.mono (h : n.Each P) (hPQ : ∀ m, P m → Q m) : n.Each Q := fun m hm => hPQ m (h m hm)

end

/-- The node and what is in it, down to some depth. -/
def downTo : Nat → Node → List Node
  | 0, n => [n]
  | depth + 1, n => n :: n.parts.flatMap (downTo depth)

/-- What is found down to some depth is in the node. -/
theorem within_of_mem_downTo {depth : Nat} {m n : Node} (h : m ∈ n.downTo depth) : Within m n := by
  induction depth generalizing n with
  | zero =>
    rw [List.mem_singleton.mp h]
    exact .self
  | succ depth ih =>
    rcases List.mem_cons.mp h with rfl | h
    · exact .self
    · obtain ⟨p, hp, hm⟩ := List.mem_flatMap.mp h
      exact .part hp (ih hm)

end Node

/-- What the clause of an `if` or `for` is put together from. -/
def ParseM.Clause.nodes (clause : ParseM.Clause) : List Node :=
  clause.init?.toList.map .stmt ++ clause.cond?.toList.map .expr ++ clause.post?.toList.map .stmt

/-- What a file is put together from. -/
def File.parts (f : File) : List Node := .ident f.moduleName :: f.decls.map .decl

/-- Something holds of all nodes of the file. -/
def File.Each (P : Node → Prop) (f : File) : Prop := ∀ n ∈ f.parts, n.Each P

/-! ## Declarations at any depth -/

mutual

/-- The declarations in a block. -/
def Block.inner : Block → List Decl
  | .mk _ stmts _ => Stmt.innerOfEach stmts

/-- The declarations in a block that may be absent. -/
def Block.inner? : Option Block → List Decl
  | none => []
  | some b => b.inner

/-- The declarations in statements. -/
def Stmt.innerOfEach : List Stmt → List Decl
  | [] => []
  | s :: ss => s.inner ++ Stmt.innerOfEach ss

/-- The declarations in a statement that may be absent. -/
def Stmt.inner? : Option Stmt → List Decl
  | none => []
  | some s => s.inner

/-- The declarations in a statement. -/
def Stmt.inner : Stmt → List Decl
  | .block body => body.inner
  | .ifStmt _ init? _ thenBlock else? => Stmt.inner? init? ++ thenBlock.inner ++ Stmt.inner? else?
  | .whileStmt _ _ body => body.inner
  | .forStmt _ init? _ post? body => Stmt.inner? init? ++ Stmt.inner? post? ++ body.inner
  | .decls _ ds => Decl.withInnerEach ds
  | .returnStmt .. | .breakStmt _ | .empty _ | .expr _ | .assign .. | .incDec .. | .define .. => []

/-- The declarations in the body of a function. -/
def Spec.inner : Spec → List Decl
  | .funcSpec _ _ _ body? | .operSpec _ _ _ _ body? => Block.inner? body?
  | .importSpec _ | .typeSpec .. | .varSpec .. => []

/-- A declaration and those in its body. -/
def Decl.withInner : Decl → List Decl
  | .mk pos group? spec => .mk pos group? spec :: spec.inner

/-- Declarations and those in their bodies. -/
def Decl.withInnerEach : List Decl → List Decl
  | [] => []
  | d :: ds => d.withInner ++ Decl.withInnerEach ds

end

/-- All declarations of a file, in the order of the source. -/
def File.allDecls (f : File) : List Decl := Decl.withInnerEach f.decls

/-- The declarations in several statements are those in each. -/
theorem Stmt.innerOfEach_eq (ss : List Stmt) : Stmt.innerOfEach ss = ss.flatMap Stmt.inner := by
  induction ss with
  | nil => rfl
  | cons s ss ih => rw [Stmt.innerOfEach, ih, List.flatMap_cons]

/-- Several declarations with what is in them, one by one. -/
theorem Decl.withInnerEach_eq (ds : List Decl) :
    Decl.withInnerEach ds = ds.flatMap Decl.withInner := by
  induction ds with
  | nil => rfl
  | cons d ds ih => rw [Decl.withInnerEach, ih, List.flatMap_cons]

/-- Declarations with nothing in them. -/
theorem Decl.flatMap_withInner {ds : List Decl} (h : ∀ d ∈ ds, d.spec.inner = []) :
    ds.flatMap Decl.withInner = ds := by
  induction ds with
  | nil => rfl
  | cons d ds ih =>
    obtain ⟨pos, group?, spec⟩ := d
    have hinner : spec.inner = [] := h _ List.mem_cons_self
    rw [List.flatMap_cons, ih fun d hd => h d (List.mem_cons_of_mem _ hd), Decl.withInner, hinner,
      List.singleton_append]

/-- The declarations in a statement that may be there. -/
theorem Stmt.inner?_eq (s? : Option Stmt) : Stmt.inner? s? = s?.toList.flatMap Stmt.inner := by
  cases s? with
  | none => rfl
  | some s => rw [Stmt.inner?, Option.toList_some, List.flatMap_singleton]

/-- The declarations in a block that may be there. -/
theorem Block.inner?_eq (b? : Option Block) : Block.inner? b? = b?.toList.flatMap Block.inner := by
  cases b? with
  | none => rfl
  | some b => rw [Block.inner?, Option.toList_some, List.flatMap_singleton]

namespace Node

/-- The declarations in a node, itself included. -/
def decls : Node → List Decl
  | .decl d => d.withInner
  | .spec s => s.inner
  | .block b => b.inner
  | .stmt s => s.inner
  | .param _ | .expr _ | .type _ | .ident _ | .literal _ => []

/-- The declarations in nodes of one kind. -/
theorem flatMap_decls_map {α : Type} (f : α → Node) (g : α → List Decl) (h : ∀ x, (f x).decls = g x)
    (xs : List α) : (xs.map f).flatMap decls = xs.flatMap g := by
  rw [List.flatMap_map]
  exact congrArg (fun k => xs.flatMap k) (funext h)

/-- The declarations of a node that is none are those of its parts. -/
theorem decls_eq {n : Node} (h : ∀ d, n ≠ .decl d) : n.decls = n.parts.flatMap decls := by
  -- Expressions, types, parameters and literals hold no declarations.
  have hnone {α : Type} (f : α → Node) (hf : ∀ x, (f x).decls = []) (xs : List α) :
      (xs.map f).flatMap decls = [] := by
    rw [flatMap_decls_map f (fun _ => []) hf]
    simp
  have hexpr := hnone expr fun _ => rfl
  have htype := hnone type fun _ => rfl
  have hparam := hnone param fun _ => rfl
  have hliteral := hnone literal fun _ => rfl
  have hblock := flatMap_decls_map block Block.inner fun _ => rfl
  have hstmt := flatMap_decls_map stmt Stmt.inner fun _ => rfl
  have hdecl := flatMap_decls_map decl Decl.withInner fun _ => rfl
  -- For the rest the two sides are compared part by part.
  cases n with
  | decl d => exact absurd rfl (h d)
  | param | ident | literal => rfl
  | expr x => cases x <;> simp [parts, decls, hexpr]
  | type x => cases x <;> rfl
  | spec s =>
    cases s <;>
      simp [parts, decls, Spec.inner, hexpr, htype, hparam, hliteral, hblock, Block.inner?_eq]
  | block b =>
    obtain ⟨pos, ss, rbrace⟩ := b
    simp [parts, decls, Block.inner, Block.stmts, Stmt.innerOfEach_eq, hstmt]
  | stmt s =>
    cases s <;>
      simp [parts, decls, Stmt.inner, hexpr, hstmt, hdecl, Stmt.inner?_eq, Decl.withInnerEach_eq]

end Node

end FrontEnd
