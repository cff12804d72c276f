import FrontEnd.Parser.File

/-!
# How trees are spelled

Which lexemes a tree is read from, production by production. A relation such as `SpellsExpr` holds of
a tree and two lists of lexemes, the second of which is what is left of the first after the tree.
Positions are free: lexemes do not determine them. Groups are numbered in the order in which they
open, so the relations for what may contain groups also have the number of groups before the tree and
after it.

Nothing is said about what may follow a tree, with one exception: after a slice type there is no
opening brace, since that would open the elements of a slice.
-/

namespace FrontEnd

/-- The operator at a lexeme, if it is an operator that may be binary or unary. -/
def Lexeme.operator? (l : Lexeme) : Option Operator :=
  if l.token = .op ∨ l.token = .star then l.op? else none

/-- The first token of some lexemes, or the end of the input. -/
def peek (ts : List Lexeme) : Token := (ts.head?.map Lexeme.token).getD .eof

/-- Behind the last lexeme is the end of the input. -/
@[simp] theorem peek_nil : peek [] = .eof := rfl

/-- The first token is that of the first lexeme. -/
@[simp] theorem peek_cons (l : Lexeme) (ts : List Lexeme) : peek (l :: ts) = l.token := rfl

/-! ## Optional parts and lists -/

section

variable {α : Type} (S : α → List Lexeme → List Lexeme → Prop)

/-- Something that may be absent. -/
inductive Optionally : Option α → List Lexeme → List Lexeme → Prop
  | none {ts} : Optionally none ts ts
  | some {x ts us} : S x ts us → Optionally (some x) ts us

/-- Things with separators between them, and perhaps one after the last. -/
inductive Listed (separator : Token) : List α → List Lexeme → List Lexeme → Prop
  | nil {ts} : Listed separator [] ts ts
  | last {x ts us} : S x ts us → Listed separator [x] ts us
  | cons {x xs l ts us vs} : S x ts (l :: us) → l.token = separator → Listed separator xs us vs →
      Listed separator (x :: xs) ts vs

end

/-! ## Types and expressions -/

/-- A type. -/
inductive SpellsType : Expr → List Lexeme → List Lexeme → Prop
  | name (pos) {l ts} : l.token = .name → SpellsType (.name ⟨pos, l.literal⟩) (l :: ts) ts
  | slice (pos) {l r elem ts us} : l.token = .lbrack → r.token = .rbrack → SpellsType elem ts us →
      SpellsType (.sliceType pos elem) (l :: r :: ts) us

/-- A binary operation. A comparison `a < b` is kept as `b > a`. -/
def Expr.operation (pos : Pos) (op : Operator) (x y : Expr) : Expr :=
  if op = .less then .binary pos .greater y x else .binary pos op x y

/-- What is read as an expression or as a part of one. -/
inductive ExprPhrase where
  /-- an expression of operators that bind more strongly than `floor` -/
  | binary (floor : Nat) (x : Expr)
  | unary (x : Expr)
  | primary (x : Expr)
  /-- expressions with commas between them -/
  | list (xs : List Expr)

/-- An expression or a part of one. -/
inductive SpellsExpr : ExprPhrase → List Lexeme → List Lexeme → Prop
  | operation (pos) {floor l op x y ts us vs} : l.operator? = some op → floor < op.precedence →
      SpellsExpr (.binary (op.precedence - 1) x) ts (l :: us) →
      SpellsExpr (.binary op.precedence y) us vs →
      SpellsExpr (.binary floor (.operation pos op x y)) ts vs
  | operand {floor x ts us} : SpellsExpr (.unary x) ts us → SpellsExpr (.binary floor x) ts us
  | unary (pos) {l op x ts us} : l.operator? = some op → op.isUnary → SpellsExpr (.unary x) ts us →
      SpellsExpr (.unary (.unary pos op x)) (l :: ts) us
  | primary {x ts us} : SpellsExpr (.primary x) ts us → SpellsExpr (.unary x) ts us
  | name (pos) {l ts} : l.token = .name → SpellsExpr (.primary (.name ⟨pos, l.literal⟩)) (l :: ts) ts
  | literal (pos) {l ts} : l.token = .literal →
      SpellsExpr (.primary (.literal ⟨pos, l.literal, l.kind, l.bad⟩)) (l :: ts) ts
  | sliceType {pos elem ts us} : SpellsType (.sliceType pos elem) ts us → peek us ≠ .lbrace →
      SpellsExpr (.primary (.sliceType pos elem)) ts us
  | sliceLit {pos elem xs l r ts us vs} : SpellsType (.sliceType pos elem) ts (l :: us) →
      l.token = .lbrace → SpellsExpr (.list xs) us (r :: vs) → r.token = .rbrace →
      SpellsExpr (.primary (.sliceLit pos elem xs)) ts vs
  | paren (pos) {l r x ts us} : l.token = .lparen → SpellsExpr (.binary 0 x) ts (r :: us) →
      r.token = .rparen → SpellsExpr (.primary (.paren pos x)) (l :: ts) us
  | selector (pos pos') {d f x ts us} : SpellsExpr (.primary x) ts (d :: f :: us) → d.token = .dot →
      f.token = .name → SpellsExpr (.primary (.selector pos x ⟨pos', f.literal⟩)) ts us
  | index (pos) {l r x i ts us vs} : SpellsExpr (.primary x) ts (l :: us) → l.token = .lbrack →
      SpellsExpr (.binary 0 i) us (r :: vs) → r.token = .rbrack →
      SpellsExpr (.primary (.index pos x i)) ts vs
  | call (pos) {l r x xs ts us vs} : SpellsExpr (.primary x) ts (l :: us) → l.token = .lparen →
      SpellsExpr (.list xs) us (r :: vs) → r.token = .rparen →
      SpellsExpr (.primary (.call pos x xs)) ts vs
  | nil {ts} : SpellsExpr (.list []) ts ts
  | last {x ts us} : SpellsExpr (.binary 0 x) ts us → SpellsExpr (.list [x]) ts us
  | cons {l x xs ts us vs} : SpellsExpr (.binary 0 x) ts (l :: us) → l.token = .comma →
      SpellsExpr (.list xs) us vs → SpellsExpr (.list (x :: xs)) ts vs

/-- A whole expression. -/
abbrev SpellsWhole (x : Expr) (ts us : List Lexeme) : Prop := SpellsExpr (.binary 0 x) ts us

/-! ## Declarations that may be grouped -/

/-- What is declared after `import`, `type` or `var`. -/
inductive SpellsSpec : Spec → List Lexeme → List Lexeme → Prop
  | path (pos) {l ts} : l.token = .literal → l.kind = .string →
      SpellsSpec (.importSpec (some ⟨pos, l.literal, l.kind, l.bad⟩)) (l :: ts) ts
  | type (pos) {l x ts us} : l.token = .name → SpellsType x ts us →
      SpellsSpec (.typeSpec ⟨pos, l.literal⟩ false x) (l :: ts) us
  | synonym (pos) {l e x ts us} : l.token = .name → e.token = .assign → SpellsType x ts us →
      SpellsSpec (.typeSpec ⟨pos, l.literal⟩ true x) (l :: e :: ts) us
  | value (pos) {l e x ts us} : l.token = .name → e.token = .assign → SpellsWhole x ts us →
      SpellsSpec (.varSpec ⟨pos, l.literal⟩ none (some x)) (l :: e :: ts) us
  | typed (pos) {l t ts us} : l.token = .name → SpellsType t ts us →
      SpellsSpec (.varSpec ⟨pos, l.literal⟩ (some t) none) (l :: ts) us
  | typedValue (pos) {l e t x ts us vs} : l.token = .name → SpellsType t ts (e :: us) →
      e.token = .assign → SpellsWhole x us vs →
      SpellsSpec (.varSpec ⟨pos, l.literal⟩ (some t) (some x)) (l :: ts) vs

/-- A member of a group, or with none a declaration on its own. -/
inductive SpellsMember (keyword : Keyword) (group? : Option Group) :
    Decl → List Lexeme → List Lexeme → Prop
  | mk (pos) {spec ts us} : SpellsSpec spec ts us → spec.keyword = keyword →
      SpellsMember keyword group? (.mk pos group? spec) ts us

/-- One declaration after its keyword, or a group of them. -/
inductive SpellsGroup (keyword : Keyword) :
    List Decl → Nat → List Lexeme → Nat → List Lexeme → Prop
  | single {d g ts us} : SpellsMember keyword none d ts us → SpellsGroup keyword [d] g ts g us
  | group (pos) {ds l r g ts us} : l.token = .lparen →
      Listed (SpellsMember keyword (some ⟨g, pos, keyword⟩)) .semi ds ts (r :: us) →
      r.token = .rparen → SpellsGroup keyword ds g (l :: ts) (g + 1) us

/-! ## Statements -/

/-- An expression, by itself or as part of an assignment, a definition or an increment. -/
inductive SpellsSimple : Stmt → List Lexeme → List Lexeme → Prop
  | expr {x ts us} : SpellsWhole x ts us → SpellsSimple (.expr x) ts us
  | assign (pos) {l x y ts us vs} : SpellsWhole x ts (l :: us) → l.token = .assign →
      SpellsWhole y us vs → SpellsSimple (.assign pos none x y) ts vs
  | assignOp (pos) {l x y ts us vs} : SpellsWhole x ts (l :: us) → l.token = .assignOp →
      SpellsWhole y us vs → SpellsSimple (.assign pos l.op? x y) ts vs
  | incDec (pos) {l x ts us} : SpellsWhole x ts (l :: us) → l.token = .incOp →
      SpellsSimple (.incDec pos (l.op?.getD .add) x) ts us
  | define (pos) {l x y ts us vs} : SpellsWhole x ts (l :: us) → l.token = .define →
      SpellsWhole y us vs → SpellsSimple (.define pos x y) ts vs

/-- Whether the statement is a definition. -/
def Stmt.isDefine : Stmt → Bool
  | .define .. => true
  | _ => false

/-- A simple statement that is no definition. -/
def SpellsPost (s : Stmt) (ts us : List Lexeme) : Prop := SpellsSimple s ts us ∧ s.isDefine = false

/-- The clause of an `if` or `for`. -/
inductive SpellsClause : Construct → ParseM.Clause → List Lexeme → List Lexeme → Prop
  | always {ts} : SpellsClause .forClause ⟨none, none, none⟩ ts ts
  | cond {c x ts us} : SpellsWhole x ts us → SpellsClause c ⟨none, some x, none⟩ ts us
  | ifParts {init? x l ts us vs} : Optionally SpellsSimple init? ts (l :: us) → l.token = .semi →
      SpellsWhole x us vs → SpellsClause .ifClause ⟨init?, some x, none⟩ ts vs
  | forParts {init? cond? post? l m ts us vs ws} : Optionally SpellsSimple init? ts (l :: us) →
      l.token = .semi → Optionally SpellsWhole cond? us (m :: vs) → m.token = .semi →
      Optionally SpellsPost post? vs ws → SpellsClause .forClause ⟨init?, cond?, post?⟩ ts ws

/-- What is read as a statement or as a part of one. -/
inductive StmtPhrase where
  | block (b : Block)
  /-- statements with separators between them -/
  | stmts (ss : List Stmt)
  | stmt (s : Stmt)
  /-- an `if` with what belongs to it -/
  | ifStmt (s : Stmt)
  /-- what belongs to an `if` after its block -/
  | elseBranch (s? : Option Stmt)

/-- A statement or a part of one. -/
inductive SpellsStmt : StmtPhrase → Nat → List Lexeme → Nat → List Lexeme → Prop
  | block (pos rbrace) {ss l r g ts g' us} : l.token = .lbrace →
      SpellsStmt (.stmts ss) g ts g' (r :: us) → r.token = .rbrace →
      SpellsStmt (.block (.mk pos ss rbrace)) g (l :: ts) g' us
  | nil {g ts} : SpellsStmt (.stmts []) g ts g ts
  | empty (pos) {ss l g ts g' us} : l.token = .semi → SpellsStmt (.stmts ss) g ts g' us →
      SpellsStmt (.stmts (.empty pos :: ss)) g (l :: ts) g' us
  | last {s g ts g' us} : SpellsStmt (.stmt s) g ts g' us → SpellsStmt (.stmts [s]) g ts g' us
  | cons {s ss l g ts g' us g'' vs} : SpellsStmt (.stmt s) g ts g' (l :: us) → l.token = .semi →
      SpellsStmt (.stmts ss) g' us g'' vs → SpellsStmt (.stmts (s :: ss)) g ts g'' vs
  | simple {s g ts us} : SpellsSimple s ts us → SpellsStmt (.stmt s) g ts g us
  | decls (pos) {keyword ds l g ts g' us} : l.token = .keyword keyword →
      keyword = .varWord ∨ keyword = .typeWord → SpellsGroup keyword ds g ts g' us →
      SpellsStmt (.stmt (.decls pos ds)) g (l :: ts) g' us
  | nested {b g ts g' us} : SpellsStmt (.block b) g ts g' us →
      SpellsStmt (.stmt (.block b)) g ts g' us
  | branch {s g ts g' us} : SpellsStmt (.ifStmt s) g ts g' us → SpellsStmt (.stmt s) g ts g' us
  | whileStmt (pos) {cond b l g ts us g' vs} : l.token = .keyword .whileWord →
      SpellsWhole cond ts us → SpellsStmt (.block b) g us g' vs →
      SpellsStmt (.stmt (.whileStmt pos cond b)) g (l :: ts) g' vs
  | forStmt (pos) {clause b l g ts us g' vs} : l.token = .keyword .forWord →
      SpellsClause .forClause clause ts us → SpellsStmt (.block b) g us g' vs →
      SpellsStmt (.stmt (.forStmt pos clause.init? clause.cond? clause.post? b)) g (l :: ts) g' vs
  | returnStmt (pos) {result? l g ts us} : l.token = .keyword .returnWord →
      Optionally SpellsWhole result? ts us →
      SpellsStmt (.stmt (.returnStmt pos result?)) g (l :: ts) g us
  | breakStmt (pos) {l g ts} : l.token = .keyword .breakWord →
      SpellsStmt (.stmt (.breakStmt pos)) g (l :: ts) g ts
  | ifStmt (pos) {init? cond b else? l g ts us g' vs g'' ws} : l.token = .keyword .ifWord →
      SpellsClause .ifClause ⟨init?, some cond, none⟩ ts us → SpellsStmt (.block b) g us g' vs →
      SpellsStmt (.elseBranch else?) g' vs g'' ws →
      SpellsStmt (.ifStmt (.ifStmt pos init? cond b else?)) g (l :: ts) g'' ws
  | noElse {g ts} : SpellsStmt (.elseBranch none) g ts g ts
  | elseIf {s l g ts g' us} : l.token = .keyword .elseWord → SpellsStmt (.ifStmt s) g ts g' us →
      SpellsStmt (.elseBranch (some s)) g (l :: ts) g' us
  | elseBlock {b l g ts g' us} : l.token = .keyword .elseWord → SpellsStmt (.block b) g ts g' us →
      SpellsStmt (.elseBranch (some (.block b))) g (l :: ts) g' us

/-! ## Files -/

/-- The body of a function, if there is one. -/
inductive SpellsBody : Option Block → Nat → List Lexeme → Nat → List Lexeme → Prop
  | none {g ts} : SpellsBody none g ts g ts
  | some {b g ts g' us} : SpellsStmt (.block b) g ts g' us → SpellsBody (some b) g ts g' us

/-- A name and a type. -/
inductive SpellsParam : Param → List Lexeme → List Lexeme → Prop
  | mk (pos pos') {l t ts us} : l.token = .name → SpellsType t ts us →
      SpellsParam ⟨pos, ⟨pos', l.literal⟩, t⟩ (l :: ts) us

/-- The declarations at the top of a file that start with a keyword. -/
inductive SpellsTop : Keyword → List Decl → Nat → List Lexeme → Nat → List Lexeme → Prop
  | group {keyword ds l g ts g' us} : l.token = .keyword keyword →
      keyword = .importWord ∨ keyword = .typeWord ∨ keyword = .varWord →
      SpellsGroup keyword ds g ts g' us → SpellsTop keyword ds g (l :: ts) g' us
  | func (pos pos') {params result? body? k n l r g ts us g' vs} : k.token = .keyword .funcWord →
      n.token = .name → l.token = .lparen → Listed SpellsParam .comma params ts (r :: us) →
      r.token = .rparen → Optionally SpellsType result? us vs → SpellsBody body? g vs g' ws →
      SpellsTop .funcWord
        [.mk pos none (.funcSpec ⟨pos', n.literal⟩ params result? body?)] g (k :: n :: l :: ts) g' ws
  | oper (pos) {lhs overload rhs result body k n l r l' r' g ts us vs ws g' xs} :
      k.token = .keyword .operWord → l.token = .lparen → SpellsParam lhs ts (r :: n :: l' :: us) →
      r.token = .rparen → n.token = .name → Overload.ofName? n.literal = some overload →
      l'.token = .lparen → SpellsParam rhs us (r' :: vs) → r'.token = .rparen →
      SpellsType result vs ws → SpellsStmt (.block body) g ws g' xs →
      SpellsTop .operWord
        [.mk pos none (.operSpec lhs overload rhs result (some body))] g (k :: l :: ts) g' xs

/-- The declarations of a file, directly after an import or at the beginning, or else directly after
something other than an import, where no import may come. -/
inductive SpellsDecls : Bool → List Decl → Nat → List Lexeme → Nat → Prop
  | nil {afterImport g} : SpellsDecls afterImport [] g [] g
  | empty {afterImport ds l g ts g'} : l.token = .semi → SpellsDecls afterImport ds g ts g' →
      SpellsDecls afterImport ds g (l :: ts) g'
  | last {afterImport keyword ds g ts g'} : SpellsTop keyword ds g ts g' [] →
      (keyword = .importWord → afterImport = true) → SpellsDecls afterImport ds g ts g'
  | cons {afterImport keyword ds rest l g ts g' us g''} : SpellsTop keyword ds g ts g' (l :: us) →
      l.token = .semi → (keyword = .importWord → afterImport = true) →
      SpellsDecls (decide (keyword = .importWord)) rest g' us g'' →
      SpellsDecls afterImport (ds ++ rest) g ts g''

/-- A file. -/
inductive SpellsFile : File → List Lexeme → Prop
  | mk (pos pos') {ds k n l ts g} : k.token = .keyword .moduleWord → n.token = .name →
      l.token = .semi → SpellsDecls true ds 0 ts g →
      SpellsFile ⟨pos, ⟨pos', n.literal⟩, ds⟩ (k :: n :: l :: ts)

/-! ## What comes next -/

/-- No operator that comes next binds more strongly than `bound`. -/
def Weak (bound : Nat) (ts : List Lexeme) : Prop :=
  ∀ op, ts.head?.bind Lexeme.operator? = some op → op.precedence ≤ bound

/-- Whether an operand goes on with the token. -/
def Token.extendsOperand : Token → Bool
  | .dot | .lbrack | .lparen => true
  | _ => false

/-- Neither does an operand go on with what comes next nor an expression of any operators. -/
structure Stops (ts : List Lexeme) : Prop where
  operand : (peek ts).extendsOperand = false
  weak : Weak 0 ts

/-- Whether an expression goes on with the token. -/
def Token.extendsExpr : Token → Bool
  | .op | .star => true
  | t => t.extendsOperand

/-- Where neither an operand nor an operation goes on, expressions stop. -/
theorem stops_of_token {ts : List Lexeme} (h : (peek ts).extendsExpr = false) : Stops ts := by
  constructor
  · cases ht : peek ts <;> first | rfl | (rw [ht] at h; exact h)
  · intro op ho
    cases ts with
    | nil => cases ho
    | cons l us =>
      change l.operator? = some op at ho
      unfold Lexeme.operator? at ho
      split at ho
      · next hl => rcases hl with hl | hl <;> (rw [peek_cons, hl] at h; cases h)
      · cases ho

/-! ## What is spelled takes lexemes -/

/-- A type takes a lexeme. -/
theorem SpellsType.length_lt {x : Expr} {ts us : List Lexeme} (h : SpellsType x ts us) :
    us.length < ts.length := by
  induction h with
  | name => exact Nat.lt_succ_self _
  | slice _ _ _ _ ih => exact Nat.lt_succ_of_lt (Nat.lt_succ_of_lt ih)

/-- The number of lexemes that a phrase takes at the least. -/
def ExprPhrase.least : ExprPhrase → Nat
  | .list _ => 0
  | _ => 1

/-- A phrase takes as many lexemes as it must. -/
theorem SpellsExpr.length_le {e : ExprPhrase} {ts us : List Lexeme} (h : SpellsExpr e ts us) :
    us.length + e.least ≤ ts.length := by
  induction h with
  | sliceType hx => exact hx.length_lt
  | sliceLit hx =>
    have := hx.length_lt
    simp only [ExprPhrase.least, List.length_cons] at *
    omega
  | _ =>
    simp only [ExprPhrase.least, List.length_cons] at *
    omega

/-- An expression takes a lexeme. -/
theorem SpellsExpr.length_lt {floor : Nat} {x : Expr} {ts us : List Lexeme}
    (h : SpellsExpr (.binary floor x) ts us) : us.length < ts.length := h.length_le

section

variable {α : Type} {S : α → List Lexeme → List Lexeme → Prop} {ts us : List Lexeme}

/-- What may be absent takes no lexemes back. -/
theorem Optionally.length_le {x? : Option α} (h : Optionally S x? ts us)
    (hS : ∀ {x ts us}, S x ts us → us.length < ts.length) : us.length ≤ ts.length := by
  cases h with
  | none => exact Nat.le_refl _
  | some hx => exact Nat.le_of_lt (hS hx)

/-- Things with separators take no lexemes back. -/
theorem Listed.length_le {separator : Token} {xs : List α} (h : Listed S separator xs ts us)
    (hS : ∀ {x ts us}, S x ts us → us.length < ts.length) : us.length ≤ ts.length := by
  induction h with
  | nil => exact Nat.le_refl _
  | last hx => exact Nat.le_of_lt (hS hx)
  | cons hx _ _ ih =>
    have := hS hx
    rw [List.length_cons] at this
    omega

end

/-- What is declared takes a lexeme. -/
theorem SpellsSpec.length_lt {spec : Spec} {ts us : List Lexeme} (h : SpellsSpec spec ts us) :
    us.length < ts.length := by
  cases h with
  | path => exact Nat.lt_succ_self _
  | type _ _ ht | typed _ _ ht => exact Nat.lt_succ_of_lt ht.length_lt
  | synonym _ _ _ ht => exact Nat.lt_succ_of_lt (Nat.lt_succ_of_lt ht.length_lt)
  | value _ _ _ hx => exact Nat.lt_succ_of_lt (Nat.lt_succ_of_lt hx.length_lt)
  | typedValue _ _ ht _ hx =>
    have h₁ := ht.length_lt
    have h₂ := hx.length_lt
    rw [List.length_cons] at *
    omega

/-- A member of a group takes a lexeme. -/
theorem SpellsMember.length_lt {keyword : Keyword} {group? : Option Group} {d : Decl}
    {ts us : List Lexeme} (h : SpellsMember keyword group? d ts us) : us.length < ts.length := by
  cases h with
  | mk _ hs => exact hs.length_lt

/-- A declaration or a group of them takes a lexeme. -/
theorem SpellsGroup.length_lt {keyword : Keyword} {ds : List Decl} {g g' : Nat}
    {ts us : List Lexeme} (h : SpellsGroup keyword ds g ts g' us) : us.length < ts.length := by
  cases h with
  | single hd => exact hd.length_lt
  | group _ _ hds =>
    have := hds.length_le SpellsMember.length_lt
    rw [List.length_cons] at *
    omega

/-- A simple statement takes a lexeme. -/
theorem SpellsSimple.length_lt {s : Stmt} {ts us : List Lexeme} (h : SpellsSimple s ts us) :
    us.length < ts.length := by
  cases h with
  | expr hx => exact hx.length_lt
  | incDec _ hx =>
    have := hx.length_lt
    rw [List.length_cons] at this
    omega
  | assign _ hx _ hy | assignOp _ hx _ hy | define _ hx _ hy =>
    have h₁ := hx.length_lt
    have h₂ := hy.length_lt
    rw [List.length_cons] at h₁
    omega

/-- A clause takes no lexemes back. -/
theorem SpellsClause.length_le {c : Construct} {clause : ParseM.Clause} {ts us : List Lexeme}
    (h : SpellsClause c clause ts us) : us.length ≤ ts.length := by
  cases h with
  | always => exact Nat.le_refl _
  | cond hx => exact Nat.le_of_lt hx.length_lt
  | ifParts hi _ hx =>
    have h₁ := hi.length_le SpellsSimple.length_lt
    have h₂ := hx.length_lt
    rw [List.length_cons] at h₁
    omega
  | forParts hi _ hx _ hp =>
    have h₁ := hi.length_le SpellsSimple.length_lt
    have h₂ := hx.length_le SpellsExpr.length_lt
    have h₃ := hp.length_le fun h => h.1.length_lt
    rw [List.length_cons] at h₁ h₂
    omega

/-- The number of lexemes that a phrase takes at the least. -/
def StmtPhrase.least : StmtPhrase → Nat
  | .stmts _ | .elseBranch _ => 0
  | _ => 1

/-- A phrase takes as many lexemes as it must. -/
theorem SpellsStmt.length_le {s : StmtPhrase} {g g' : Nat} {ts us : List Lexeme}
    (h : SpellsStmt s g ts g' us) : us.length + s.least ≤ ts.length := by
  induction h with
  | simple hs => exact hs.length_lt
  | decls _ _ _ hds => exact Nat.lt_succ_of_lt hds.length_lt
  | whileStmt _ _ hx | returnStmt _ _ hx =>
    first | have := hx.length_lt | have := hx.length_le SpellsExpr.length_lt
    simp only [StmtPhrase.least, List.length_cons] at *
    omega
  | forStmt _ _ hc | ifStmt _ _ hc =>
    have := hc.length_le
    simp only [StmtPhrase.least, List.length_cons] at *
    omega
  | _ =>
    simp only [StmtPhrase.least, List.length_cons] at *
    omega

/-- A block takes a lexeme. -/
theorem SpellsStmt.length_lt {b : Block} {g g' : Nat} {ts us : List Lexeme}
    (h : SpellsStmt (.block b) g ts g' us) : us.length < ts.length := h.length_le

/-- A parameter takes a lexeme. -/
theorem SpellsParam.length_lt {param : Param} {ts us : List Lexeme} (h : SpellsParam param ts us) :
    us.length < ts.length := by
  cases h with
  | mk _ _ _ ht => exact Nat.lt_succ_of_lt ht.length_lt

/-- A body that may be absent takes no lexemes back. -/
theorem SpellsBody.length_le {body? : Option Block} {g g' : Nat} {ts us : List Lexeme}
    (h : SpellsBody body? g ts g' us) : us.length ≤ ts.length := by
  cases h with
  | none => exact Nat.le_refl _
  | some hb => exact Nat.le_of_lt hb.length_lt

/-- A declaration at the top of a file takes a lexeme. -/
theorem SpellsTop.length_lt {keyword : Keyword} {ds : List Decl} {g g' : Nat} {ts us : List Lexeme}
    (h : SpellsTop keyword ds g ts g' us) : us.length < ts.length := by
  cases h with
  | group _ _ hds => exact Nat.lt_succ_of_lt hds.length_lt
  | func _ _ _ _ _ hps _ hresult hbody =>
    have h₁ := hps.length_le SpellsParam.length_lt
    have h₂ := hresult.length_le SpellsType.length_lt
    have h₃ := hbody.length_le
    simp only [List.length_cons] at *
    omega
  | oper _ _ _ hlhs _ _ _ _ hrhs _ hresult hbody =>
    have h₁ := hlhs.length_lt
    have h₂ := hrhs.length_lt
    have h₃ := hresult.length_lt
    have h₄ := hbody.length_lt
    simp only [List.length_cons] at *
    omega

/-! ## What starts with what -/

/-- Whether an expression may start with the token. -/
def Token.startsExpr : Token → Bool
  | .name | .literal | .lparen | .lbrack | .op | .star => true
  | _ => false

/-- Whether a statement may start with the token. -/
def Token.startsStmt : Token → Bool
  | .lbrace => true
  | .keyword k =>
    k ∈ [.varWord, .typeWord, .ifWord, .whileWord, .forWord, .returnWord, .breakWord]
  | t => t.startsExpr

/-- Operators are tokens of one class, but for the star. -/
theorem Lexeme.token_of_operator? {l : Lexeme} {op : Operator} (h : l.operator? = some op) :
    l.token = .op ∨ l.token = .star := by
  unfold Lexeme.operator? at h
  split at h
  · next ht => exact ht
  · cases h

/-- With an operator an expression may start. -/
theorem Lexeme.startsExpr_of_operator? {l : Lexeme} {op : Operator} (h : l.operator? = some op) :
    l.token.startsExpr = true := by
  rcases Lexeme.token_of_operator? h with ht | ht <;> rw [ht] <;> rfl

/-- A type starts with a name or a bracket. -/
theorem SpellsType.first {x : Expr} {ts us : List Lexeme} (h : SpellsType x ts us) :
    peek ts = .name ∨ peek ts = .lbrack := by
  cases h with
  | name _ hl => exact .inl hl
  | slice _ hl => exact .inr hl

/-- A slice type starts with a bracket. -/
theorem SpellsType.slice_first {pos : Pos} {x : Expr} {ts us : List Lexeme}
    (h : SpellsType (.sliceType pos x) ts us) : peek ts = .lbrack := by
  cases h with
  | slice _ hl => exact hl

/-- A phrase that takes a lexeme starts like an expression. -/
theorem SpellsExpr.first_of_least {e : ExprPhrase} {ts us : List Lexeme} (h : SpellsExpr e ts us)
    (he : e.least = 1) : (peek ts).startsExpr = true := by
  induction h with
  | operation _ _ _ _ _ ihx | index _ _ _ _ _ ihx | call _ _ _ _ _ ihx => exact ihx rfl
  | operand _ ih | primary _ ih | selector _ _ _ _ _ ih => exact ih rfl
  | unary _ ho => exact Lexeme.startsExpr_of_operator? ho
  | name _ hl | literal _ hl | paren _ hl =>
    rw [peek_cons, hl]
    rfl
  | sliceType hx | sliceLit hx =>
    rw [hx.slice_first]
    rfl
  | nil | last | cons => cases he

/-- No operator comes before an operand. -/
theorem SpellsExpr.operator?_eq_none {x : Expr} {ts us : List Lexeme}
    (h : SpellsExpr (.primary x) ts us) : ts.head?.bind Lexeme.operator? = none := by
  have hnone {l : Lexeme} {us : List Lexeme} (hop : l.token ≠ .op) (hstar : l.token ≠ .star) :
      (l :: us).head?.bind Lexeme.operator? = none := by
    change l.operator? = none
    unfold Lexeme.operator?
    rw [if_neg (by simp [hop, hstar])]
  have hslice {pos : Pos} {x : Expr} {ts us : List Lexeme} (h : SpellsType (.sliceType pos x) ts us) :
      ts.head?.bind Lexeme.operator? = none := by
    cases h with
    | slice _ hl => exact hnone (by simp [hl]) (by simp [hl])
  generalize he : ExprPhrase.primary x = e at h
  induction h generalizing x with
  | name _ hl | literal _ hl | paren _ hl => exact hnone (by simp [hl]) (by simp [hl])
  | sliceType hx | sliceLit hx => exact hslice hx
  | selector _ _ _ _ _ ih => exact ih rfl
  | index _ _ _ _ _ ih | call _ _ _ _ _ ih => exact ih rfl
  | _ => cases he

/-- What an expression starts with. -/
theorem SpellsExpr.first {floor : Nat} {x : Expr} {ts us : List Lexeme}
    (h : SpellsExpr (.binary floor x) ts us) : (peek ts).startsExpr = true := h.first_of_least rfl

/-- What is declared starts with a name or a literal. -/
theorem SpellsSpec.first {spec : Spec} {ts us : List Lexeme} (h : SpellsSpec spec ts us) :
    peek ts = .name ∨ peek ts = .literal := by
  cases h with
  | path _ hl => exact .inr hl
  | type _ hl | synonym _ hl | value _ hl | typed _ hl | typedValue _ hl => exact .inl hl

/-- A simple statement starts like an expression. -/
theorem SpellsSimple.first {s : Stmt} {ts us : List Lexeme} (h : SpellsSimple s ts us) :
    (peek ts).startsExpr = true := by
  cases h with
  | expr hx | assign _ hx | assignOp _ hx | incDec _ hx | define _ hx => exact hx.first

/-- What starts an expression starts a statement. -/
theorem Token.startsStmt_of_startsExpr {t : Token} (h : t.startsExpr = true) :
    t.startsStmt = true := by
  cases t <;> first | rfl | cases h

/-- A block starts with a brace. -/
theorem SpellsStmt.block_first {b : Block} {g g' : Nat} {ts us : List Lexeme}
    (h : SpellsStmt (.block b) g ts g' us) : peek ts = .lbrace := by
  cases h with
  | block _ _ hl => exact hl

/-- An `if` starts with its keyword. -/
theorem SpellsStmt.if_first {s : Stmt} {g g' : Nat} {ts us : List Lexeme}
    (h : SpellsStmt (.ifStmt s) g ts g' us) : peek ts = .keyword .ifWord := by
  cases h with
  | ifStmt _ hl => exact hl

/-- What a statement starts with. -/
theorem SpellsStmt.first {s : Stmt} {g g' : Nat} {ts us : List Lexeme}
    (h : SpellsStmt (.stmt s) g ts g' us) : (peek ts).startsStmt = true := by
  have hkeyword {l : Lexeme} {us : List Lexeme} {k : Keyword} (hl : l.token = .keyword k)
      (hk : (Token.keyword k).startsStmt = true) : (peek (l :: us)).startsStmt = true := by
    rw [peek_cons, hl]
    exact hk
  cases h with
  | simple hs => exact Token.startsStmt_of_startsExpr hs.first
  | decls _ hl hk => exact hkeyword hl (by rcases hk with rfl | rfl <;> rfl)
  | nested hb =>
    rw [hb.block_first]
    rfl
  | branch hs =>
    rw [hs.if_first]
    rfl
  | whileStmt _ hl | forStmt _ hl | returnStmt _ hl | breakStmt _ hl => exact hkeyword hl rfl

/-- Before a closing brace there are no statements. -/
theorem SpellsStmt.stmts_eq_nil {ss : List Stmt} {g g' : Nat} {ts us : List Lexeme}
    (h : SpellsStmt (.stmts ss) g ts g' us) (hts : peek ts = .rbrace) :
    ss = [] ∧ g' = g ∧ us = ts := by
  cases h with
  | nil => exact ⟨rfl, rfl, rfl⟩
  | empty _ hl =>
    rw [peek_cons, hl] at hts
    cases hts
  | last hs | cons hs =>
    have := hs.first
    rw [hts] at this
    cases this

/-- A declaration at the top of a file starts with its keyword. -/
theorem SpellsTop.first {keyword : Keyword} {ds : List Decl} {g g' : Nat} {ts us : List Lexeme}
    (h : SpellsTop keyword ds g ts g' us) : peek ts = .keyword keyword := by
  cases h with
  | group hl | func _ _ hl | oper _ hl => exact hl

end FrontEnd
