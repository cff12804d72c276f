import FrontEnd.Proofs.Lexemes
import FrontEnd.Proofs.Trees.Nodes

/-!
# Sound and complete nodes

Whatever is wrong with a source, the nodes of its tree are sound: operators stand only where they may,
the other case of an `if` is an `if` or a block, and the members of a group are what its keyword says
(`Node.Sound`). If nothing is wrong, they are complete as well: there are no holes, and names, literals
and types are what they should be (`Node.Complete`). A file is sound or complete if its nodes are and
its declarations are in order (`File.Sound`, `File.Complete`).
-/

namespace FrontEnd

/-- Whether the expression is a type. -/
def Expr.isType : Expr → Bool
  | .name _ | .sliceType .. => true
  | _ => false

/-- Whether the statement may come after `else`. -/
def Stmt.isBranch : Stmt → Bool
  | .ifStmt .. | .block _ => true
  | _ => false

/-- What holds of a node in any tree. In a run that was cut short, an `if` may be missing after its
`else`. A definition at the end of the clause of a `for` is excused by its position and that of the
block after it. -/
def Node.Sound (cut : Prop) (excused : Pos → Pos → Prop) : Node → Prop
  | .expr (.unary _ op _) => op.isUnary
  | .expr (.binary _ op _ _) => op ≠ .not ∧ op ≠ .less
  | .type x => x.isType ∨ x.isBad
  | .stmt (.incDec _ op _) => op.isStep
  | .stmt (.assign _ op? _ _) => ∀ op, op? = some op → op.isAssignable
  | .stmt (.ifStmt _ _ _ _ else?) => ∀ s, else? = some s → cut ∨ s.isBranch
  | .stmt (.forStmt _ _ _ post? body) => ∀ pos x y, post? = some (.define pos x y) → excused pos body.pos
  | .decl d => ∀ g, d.group? = some g → d.spec.keyword = g.keyword
  | _ => True

/-- A node is sound where more is excused. -/
theorem Node.Sound.mono {cut cut' : Prop} {excused excused' : Pos → Pos → Prop} {n : Node}
    (h : n.Sound cut excused) (hcut : cut → cut')
    (hexcused : ∀ pos pos', excused pos pos' → excused' pos pos') : n.Sound cut' excused' := by
  cases n with
  | stmt s =>
    cases s with
    | ifStmt => exact fun s hs => (h s hs).imp_left hcut
    | forStmt => exact fun pos x y hs => hexcused _ _ (h pos x y hs)
    | _ => exact h
  | expr x => cases x <;> exact h
  | _ => exact h

/-- Where there is a definition at the end of the clause of a `for`. -/
def Node.loopDefinition? : Node → Option Pos
  | .stmt (.forStmt _ _ _ (some (.define pos _ _)) _) => some pos
  | _ => none

/-- A definition that a loop must not have has been excused. -/
theorem Node.Sound.excused {cut : Prop} {excused : Pos → Pos → Prop} {n : Node} (h : n.Sound cut excused)
    {pos : Pos} (hpos : n.loopDefinition? = some pos) : ∃ block, excused pos block := by
  unfold Node.loopDefinition? at hpos
  split at hpos
  · cases hpos
    exact ⟨_, h _ _ _ rfl⟩
  · cases hpos

/-- Whether the text is a name: it starts as a name may, goes on as a name may, and is no keyword. -/
def isIdentifier (text : String) : Bool :=
  match text.toList with
  | [] => false
  | c :: cs => isNameStart c && cs.all isNamePart && (Keyword.ofSpelling? text).isNone

/-- What holds of a node of a tree if nothing was wrong with the source. -/
def Node.Complete : Node → Prop
  | .expr x => x.isBad = false
  | .type x => x.isType
  | .ident name => isIdentifier name.text
  | .literal l => l.bad = false
  | .spec (.importSpec path?) => ∃ path, path? = some path ∧ path.kind = .string
  | .spec (.varSpec _ type? value?) => type?.isSome ∨ value?.isSome
  | .spec (.operSpec _ _ _ _ body?) => body?.isSome
  -- only at the top of a file there are imports
  | .stmt (.decls _ ds) => ∀ d ∈ ds, d.spec.keyword ≠ .importWord
  | _ => True

/-- The nodes are sound, and groups are in one piece: between two members of a group there are only its
members, and groups of one number are the same. -/
structure File.Sound (excused : Pos → Pos → Prop) (f : File) : Prop where
  each : f.Each (Node.Sound False excused)
  together : ∀ {a b : Decl} {between : List Decl} {g g' : Group},
    (a :: (between ++ [b])).Sublist f.allDecls → a.group? = some g → b.group? = some g' →
      g.id = g'.id → g = g' ∧ ∀ d ∈ between, d.group? = some g

/-- All imports come before everything else. -/
def ImportsFirst (ds : List Decl) : Prop := ∃ imports others, ds = imports ++ others ∧
  (∀ d ∈ imports, d.spec.keyword = .importWord) ∧ ∀ d ∈ others, d.spec.keyword ≠ .importWord

/-- The nodes are complete, and all imports come first. -/
structure File.Complete (f : File) : Prop where
  each : f.Each Node.Complete
  importsFirst : ImportsFirst f.decls

/-- A tree is sound where more is excused. -/
theorem File.Sound.mono {excused excused' : Pos → Pos → Prop} {f : File} (h : f.Sound excused)
    (hexcused : ∀ pos pos', excused pos pos' → excused' pos pos') : f.Sound excused' where
  each n hn := (h.each n hn).mono fun _ hm => hm.mono id hexcused
  together := h.together

end FrontEnd
