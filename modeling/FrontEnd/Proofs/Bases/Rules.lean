import FrontEnd.Parser.File
import FrontEnd.Proofs.Bases.Points

/-!
# The rules of the grammar point to lexemes

One theorem for each rule, in the order of the grammar, up to `points_file`: whatever is in `G`, as long as
all lexemes are there, so are the positions in the tree and those of all complaints. Rules that call each
other are taken together, by induction on their budget.
-/

namespace FrontEnd

/-- The positions of what a run yields are in `G`: those of the tree or of what is there instead of a header.
If a diagnostic has finished the run, it is in `D`. -/
def Failure.Lies (G : Pos → Prop) (D : Diagnostic → Prop) : Except Failure File → Prop
  | .ok f => f.Stands G
  | .error (.missingHeader pos _) => G pos
  | .error (.aborted d) => D d

/-- What lies in smaller sets lies in larger ones. -/
theorem Failure.Lies.mono {G H : Pos → Prop} {D E : Diagnostic → Prop} {result : Except Failure File}
    (h : Lies G D result) (hGH : ∀ pos, G pos → H pos) (hDE : ∀ d, D d → E d) : Lies H E result := by
  cases result with
  | ok f => exact File.Stands.mono h hGH
  | error failure =>
    cases failure with
    | missingHeader => exact hGH _ h
    | aborted => exact hDE _ h

namespace ParseM

open Node (AllStand)

variable {G : Pos → Prop} {α : Type} {W : α → Prop}

/-- The action yields something whose nodes are in `G`. -/
abbrev PointsTo (G : Pos → Prop) (nodes : α → List Node) (m : ParseM α) : Prop :=
  Points G (fun x => AllStand G (nodes x)) m

/-- What the action yields has no positions. -/
abbrev PointsOnly (G : Pos → Prop) (m : ParseM α) : Prop := Points G (fun _ => True) m

/-! ## The basic actions -/

/-- Looking at the kind of the current lexeme yields no position. -/
theorem points_token : PointsOnly G token := .get fun _ _ => .done trivial

/-- The current position is in `G`, like that of every lexeme. -/
theorem points_here : Points G G here := .get fun _ hp => .done hp

/-- The current lexeme carries no position of a node. -/
theorem points_current : PointsOnly G current := .get fun _ _ => .done trivial

/-- Going on to the next lexeme complains about nothing. -/
theorem points_next : PointsOnly G next := .ofMove .next nofun

/-- A line of the trace is no complaint. -/
theorem points_remark (text : String) : PointsOnly G (remark text) := .ofMove (.trace _) nofun

/-- Running out of budget is no complaint. -/
theorem points_starve : PointsOnly G starve := .ofMove .starve nofun

/-- The number of a new group is no position. -/
theorem points_newGroup : PointsOnly G newGroup :=
  .look (fun p => do modify Move.newGroup.apply; return p.groups) fun _ _ =>
    (Points.ofMove .newGroup nofun).bind fun _ _ => .done trivial

/-- A complaint that looks back points into `G` if it looks back to a position in `G`. -/
theorem points_complainAt {pos : Pos} (hpos : G pos) {c : Complaint} (hc : c.looksBack) :
    PointsOnly G (complainAt pos c) :=
  .move (.lookBack pos c hc) (pure ()) (fun _ _ _ he => by cases he; exact hpos) (.done trivial)

/-- A complaint at the current lexeme does not look back. -/
theorem points_complain (c : Complaint) : PointsOnly G (complain c) := .ofMove (.complain c) nofun

/-- Searching for one of the tokens skips lexemes and says nothing. -/
theorem points_search (follow : List Token) (n : Nat) : PointsOnly G (search follow n) := by
  induction n with
  | zero => exact .done trivial
  | succ n ih =>
    refine .get fun p _ => ?_
    split
    · exact .done trivial
    · exact points_next.bind fun _ _ => ih

/-- Recovery says nothing itself: the complaint has come before. -/
theorem points_recover (follow : List Token) : PointsOnly G (recover follow) := by
  rw [recover_eq]
  refine (points_remark _).bind fun _ _ => .get fun p _ => ?_
  split
  · split
    · exact .done trivial
    · exact points_next
  · exact points_search follow _

/-- Tracing a rule adds no position. -/
theorem points_traced (rule : Rule) {action : ParseM α} (h : Points G W action) :
    Points G W (traced rule action) :=
  (Points.ofMove (.enter rule) nofun).bind fun _ _ => h.bind fun x hx =>
    .move .leave (pure x) nofun (.done hx)

/-- Taking a token if it is there complains about nothing. -/
theorem points_got (t : Token) : PointsOnly G (got t) := by
  refine points_token.bind fun t' _ => ?_
  split
  · exact points_next.bind fun _ _ => .done trivial
  · exact .done trivial

/-- Asking for a token complains at the current lexeme only. -/
theorem points_want (t : Token) : PointsOnly G (want t) := by
  refine (points_got t).bind fun b _ => ?_
  split
  · exact .done trivial
  · exact points_complain _

/-- Taking an assignment, also one that is misspelt, complains at the current lexeme only. -/
theorem points_gotAssign : PointsOnly G gotAssign := by
  refine points_token.bind fun t _ => ?_
  split
  · exact (points_complain _).bind fun _ _ => points_next.bind fun _ _ => .done trivial
  · exact points_next.bind fun _ _ => .done trivial
  · exact .done trivial

/-- The elements of a list are in `W` if its element rule yields nothing else. -/
theorem points_list (kind : ListKind) {element : ParseM α} (h : Points G W element) (budget : Nat) :
    Points G (fun xs => ∀ x ∈ xs, W x) (list kind element budget) := by
  have hnil : ∀ x ∈ ([] : List α), W x := fun _ hx => (List.not_mem_nil hx).elim
  induction budget with
  | zero => exact points_starve.bind fun _ _ => .done hnil
  | succ budget ih =>
    -- An element that has been read stays in the list, whatever follows it.
    have rest {x : α} (hx : W x) :
        Points G (fun xs => ∀ x ∈ xs, W x) (do return x :: (← list kind element budget)) :=
      ih.bind fun xs hxs => .done (List.forall_mem_cons.mpr ⟨hx, hxs⟩)
    refine points_token.bind fun t _ => ?_
    split
    · exact (points_want _).bind fun _ _ => .done hnil
    · refine h.bind fun x hx => (points_got _).bind fun b _ => ?_
      split
      · exact rest hx
      · refine points_token.bind fun t _ => ?_
        split
        · exact rest hx
        · refine (points_complain _).bind fun _ _ => (points_recover _).bind fun _ _ =>
            points_token.bind fun t _ => ?_
          split
          · exact rest hx
          · exact .done (List.forall_mem_singleton.mpr hx)

/-- The position of an identifier is that of a lexeme, also if there is none and a hole takes its place. -/
theorem points_ident : Points G (fun name => G name.pos) ident := by
  refine points_here.bind fun pos hpos => points_token.bind fun t _ => ?_
  split
  · exact points_current.bind fun l _ => points_next.bind fun _ _ => .done hpos
  · exact (points_complain _).bind fun _ _ => (points_recover _).bind fun _ _ => .done hpos

/-- The position of a literal is that of its lexeme. -/
theorem points_literal : Points G (fun l => G l.pos) literal :=
  points_here.bind fun _ hpos => points_current.bind fun _ _ => points_next.bind fun _ _ => .done hpos

/-- A hole stands at the current lexeme. -/
theorem points_hole : Points G (fun x => ∃ pos, G pos ∧ x = .bad pos) hole :=
  points_here.bind fun pos hpos => .done ⟨pos, hpos, rfl⟩

/-! ## Types -/

/-- The rules for types point to lexemes, whatever their budget. -/
theorem points_types (budget : Nat) :
    PointsTo G (fun x? : Option Expr => x?.toList.map .type) (type? budget) ∧
      PointsTo G (fun x : Expr => [.type x]) (sliceElem budget) := by
  have hole : PointsTo G (fun x : Expr => [.type x]) hole :=
    points_hole.mono fun x ⟨pos, hpos, hx⟩ => by simp [hx, hpos]
  -- A type and the element of a slice call one another, so both halves go through one induction on the budget.
  induction budget with
  | zero =>
    exact ⟨points_starve.bind fun _ _ => .done Node.allStand_nil, points_starve.bind fun _ _ => hole⟩
  | succ budget ih =>
    obtain ⟨htype, helem⟩ := ih
    constructor
    · refine points_token.bind fun t _ => ?_
      split
      · refine points_ident.bind fun name hname => .done ?_
        have hnode : (Node.type (.name name)).Stands G := .at rfl hname (by simpa [Node.parts] using hname)
        simpa using hnode
      · refine points_here.bind fun pos hpos => helem.bind fun x hx => .done ?_
        have hnode : (Node.type (.sliceType pos x)).Stands G := .at rfl hpos hx
        simpa using hnode
      · exact .done Node.allStand_nil
    · refine points_traced _ (points_next.bind fun _ _ => (points_want _).bind fun _ _ =>
        htype.bind fun x? hx => ?_)
      split
      · exact .done hx
      · exact hole.bind fun bad hbad => (points_complain _).bind fun _ _ => .done hbad

/-- The rule for types points to lexemes. -/
theorem points_type? (budget : Nat) :
    PointsTo G (fun x? : Option Expr => x?.toList.map .type) (type? budget) := (points_types budget).1

/-- The rule for what stands behind the brackets of a slice type points to lexemes. -/
theorem points_sliceElem (budget : Nat) : PointsTo G (fun x : Expr => [.type x]) (sliceElem budget) :=
  (points_types budget).2

/-! ## Expressions -/

/-- The action yields an expression with positions in `G`. -/
abbrev PointsExpr (G : Pos → Prop) (m : ParseM Expr) : Prop := Points G (fun x => (Node.expr x).Stands G) m

/-- The rules for expressions point to lexemes with a given budget. -/
structure PointedExprs (G : Pos → Prop) (budget : Nat) : Prop where
  expr : PointsExpr G (ParseM.expr budget)
  binaryExpr : ∀ floor, PointsExpr G (ParseM.binaryExpr floor budget)
  binaryRest : ∀ floor x, (Node.expr x).Stands G → PointsExpr G (ParseM.binaryRest floor x budget)
  unaryExpr : PointsExpr G (ParseM.unaryExpr budget)
  primaryExpr : PointsExpr G (ParseM.primaryExpr budget)
  primaryRest : ∀ x, (Node.expr x).Stands G → PointsExpr G (ParseM.primaryRest x budget)
  operand : PointsExpr G (ParseM.operand budget)

/-- A hole in an expression points to a lexeme. -/
theorem points_holeExpr : PointsExpr G hole :=
  points_hole.mono fun x ⟨pos, hpos, hx⟩ => by simpa [hx] using hpos

/-- Without any budget the rules for expressions yield holes at the current lexeme or what they have. -/
theorem pointedExprs_zero : PointedExprs G 0 where
  expr := points_starve.bind fun _ _ => points_holeExpr
  binaryExpr _ := points_starve.bind fun _ _ => points_holeExpr
  binaryRest _ _ hx := points_starve.bind fun _ _ => .done hx
  unaryExpr := points_starve.bind fun _ _ => points_holeExpr
  primaryExpr := points_starve.bind fun _ _ => points_holeExpr
  primaryRest _ hx := points_starve.bind fun _ _ => .done hx
  operand := points_starve.bind fun _ _ => points_holeExpr

section

variable {budget : Nat} (h : PointedExprs G budget)
include h

/-- The rule for lists of expressions points to lexemes. -/
theorem points_exprs (kind : ListKind) :
    PointsTo G (fun xs : List Expr => xs.map .expr) (list kind (expr budget) budget) :=
  (points_list kind h.expr budget).mono fun _ => Node.allStand_map.mpr

/-- What follows the left operand: an operation has the position of its operator, also the one with its operands
exchanged. -/
theorem points_binaryRest_succ (floor : Nat) {x : Expr} (hx : (Node.expr x).Stands G) :
    PointsExpr G (binaryRest floor x (budget + 1)) := by
  refine .get fun p _ => ?_
  split
  · next op _ =>
    split
    · refine points_here.bind fun pos hpos => (points_remark _).bind fun _ _ =>
        points_next.bind fun _ _ => (h.binaryExpr _).bind fun y hy => ?_
      have hxy : (Node.expr (.binary pos op x y)).Stands G := .at rfl hpos (by simp [Node.parts, hx, hy])
      -- `<` is read as `>` the other way round. The operands change places, and the positions stay.
      have hyx : (Node.expr (.binary pos .greater y x)).Stands G :=
        .at rfl hpos (by simp [Node.parts, hx, hy])
      split
      · exact h.binaryRest _ _ hyx
      · exact h.binaryRest _ _ hxy
    · exact .done hx
  · exact .done hx

/-- A unary operation has the position of its operator. -/
theorem points_unaryExpr_succ : PointsExpr G (unaryExpr (budget + 1)) := by
  refine points_traced _ (.get fun p _ => ?_)
  split
  · exact points_here.bind fun pos hpos => points_next.bind fun _ _ => h.unaryExpr.bind fun x hx =>
      .done (.at rfl hpos (by simp [Node.parts, hx]))
  · exact h.primaryExpr

/-- A selector, an index and a call have the position of the dot, the bracket or the parenthesis. -/
theorem points_primaryRest_succ {x : Expr} (hx : (Node.expr x).Stands G) :
    PointsExpr G (primaryRest x (budget + 1)) := by
  refine points_here.bind fun pos hpos => points_token.bind fun t _ => ?_
  split
  · refine points_next.bind fun _ _ => points_token.bind fun t _ => ?_
    split
    · exact points_ident.bind fun field hfield =>
        h.primaryRest _ (.at rfl hpos (by simp [Node.parts, hx, hfield]))
    · exact (points_complain _).bind fun _ _ => (points_recover _).bind fun _ _ => h.primaryRest _ hx
  · exact points_next.bind fun _ _ => h.expr.bind fun i hi => (points_want _).bind fun _ _ =>
      h.primaryRest _ (.at rfl hpos (by simp [Node.parts, hx, hi]))
  · exact points_next.bind fun _ _ =>
      (points_traced _ (points_exprs h _)).bind fun args hargs =>
        h.primaryRest _ (.at rfl hpos (by simp [Node.parts, hx, hargs]))
  · exact .done hx

/-- An operand has the position of its first lexeme. -/
theorem points_operand_succ : PointsExpr G (operand (budget + 1)) := by
  refine points_traced _ (points_token.bind fun t _ => ?_)
  split
  · exact points_ident.bind fun name hname => (points_remark _).bind fun _ _ =>
      .done (.at rfl hname (by simp [Node.parts, hname]))
  · exact points_literal.bind fun l hl => (points_remark _).bind fun _ _ =>
      .done (.at rfl hl (by simp [Node.parts, hl]))
  · refine points_here.bind fun pos hpos => (points_sliceElem _).bind fun elem helem =>
      points_token.bind fun t _ => ?_
    split
    · exact points_next.bind fun _ _ => (points_exprs h _).bind fun elems helems =>
        .done (.at rfl hpos (Node.allStand_append.mpr ⟨helem, helems⟩))
    · exact .done (.at rfl hpos helem)
  · exact points_here.bind fun pos hpos => points_next.bind fun _ _ => h.expr.bind fun x hx =>
      (points_want _).bind fun _ _ => .done (.at rfl hpos (by simp [Node.parts, hx]))
  · exact points_holeExpr.bind fun bad hbad => (points_complain _).bind fun _ _ =>
      (points_recover _).bind fun _ _ => .done hbad

end

/-- The rules for expressions point to lexemes, whatever their budget. -/
theorem pointedExprs (budget : Nat) : PointedExprs G budget := by
  induction budget with
  | zero => exact pointedExprs_zero
  | succ budget ih =>
    exact {
      expr := points_traced _ (ih.binaryExpr 0)
      binaryExpr := fun floor => ih.unaryExpr.bind fun x hx => ih.binaryRest floor x hx
      binaryRest := fun floor _ hx => points_binaryRest_succ ih floor hx
      unaryExpr := points_unaryExpr_succ ih
      primaryExpr := points_traced _ (ih.operand.bind fun x hx => ih.primaryRest x hx)
      primaryRest := fun _ hx => points_primaryRest_succ ih hx
      operand := points_operand_succ ih }

/-- The rule for expressions points to lexemes. -/
theorem points_expr (budget : Nat) : PointsExpr G (expr budget) := (pointedExprs budget).expr

/-! ## Declarations that may be grouped -/

/-- The action yields something to be declared with positions in `G`, or nothing. -/
abbrev PointsSpec (G : Pos → Prop) (m : ParseM (Option Spec)) : Prop :=
  PointsTo G (fun s? : Option Spec => s?.toList.map .spec) m

/-- What is declared has no position of its own, only its parts have some. -/
theorem allStand_spec {s : Spec} (h : AllStand G (Node.parts (.spec s))) :
    AllStand G ((some s).toList.map .spec) := by
  have hspec : (Node.spec s).Stands G := .mk (fun _ hpos => (List.not_mem_nil hpos).elim) h
  simpa using hspec

/-- The rule for what is imported points to lexemes; it looks back to a path that is no string. -/
theorem points_importSpec : PointsSpec G importSpec := by
  refine points_traced _ (points_token.bind fun t _ => ?_)
  split
  · refine points_literal.bind fun path hpath => ?_
    have hspec {l : Literal} (hl : G l.pos) : AllStand G ((some (Spec.importSpec (some l))).toList.map .spec) :=
      allStand_spec (by simp [Node.parts, hl])
    split
    · exact .done (hspec hpath)
    · exact (points_complainAt hpath rfl).bind fun _ _ => .done (hspec hpath)
  · exact (points_complain _).bind fun _ _ => (points_recover _).bind fun _ _ =>
      .done (allStand_spec Node.allStand_nil)

/-- The rule for a declared type points to lexemes, with a hole for a type that is missing. -/
theorem points_typeSpec (budget : Nat) : PointsSpec G (typeSpec budget) := by
  refine points_traced _ (points_ident.bind fun name hname => points_gotAssign.bind fun isAlias _ =>
    (points_type? _).bind fun type? htype => ?_)
  have rest {type : Expr} (ht : (Node.type type).Stands G) : PointsSpec G (do
      remark ("id: " ++ name.text)
      return some (Spec.typeSpec name isAlias type)) :=
    (points_remark _).bind fun _ _ => .done (allStand_spec (by simp [Node.parts, hname, ht]))
  split
  · exact rest (by simpa using htype)
  · refine points_hole.bind fun bad hhole => (points_complain _).bind fun _ _ =>
      (points_recover _).bind fun _ _ => rest ?_
    obtain ⟨pos, hpos, rfl⟩ := hhole
    simpa using hpos

/-- The rule for declared variables points to lexemes. -/
theorem points_varSpec (budget : Nat) : PointsSpec G (varSpec budget) := by
  refine points_traced _ (points_ident.bind fun name hname => (points_remark _).bind fun _ _ =>
    points_gotAssign.bind fun b _ => ?_)
  split
  · exact (points_expr _).bind fun x hx => .done (allStand_spec (by simp [Node.parts, hname, hx]))
  · refine (points_type? _).bind fun type? htype => ?_
    split
    · have ht : (Node.type _).Stands G := (Node.allStand_cons.mp htype).1
      refine points_gotAssign.bind fun b _ => ?_
      split
      · exact (points_expr _).bind fun x hx =>
          .done (allStand_spec (by simp [Node.parts, hname, ht, hx]))
      · exact .done (allStand_spec (by simp [Node.parts, hname, ht]))
    · exact (points_complain _).bind fun _ _ => (points_recover _).bind fun _ _ =>
        .done Node.allStand_nil

/-- The action yields declarations with positions in `G`. -/
abbrev PointsDecls (G : Pos → Prop) (m : ParseM (List Decl)) : Prop :=
  PointsTo G (fun ds : List Decl => ds.map .decl) m

/-- Where there is something to declare, the declaration of it is in `G` as well. -/
theorem allStand_decl {s? : Option Spec} {pos : Pos} {group? : Option Group} (hpos : G pos)
    (hgroup : ∀ g, group? = some g → G g.pos) (h : AllStand G (s?.toList.map .spec)) :
    AllStand G ((s?.map (Decl.mk pos group?)).toList.map .decl) := by
  cases s? with
  | none => exact Node.allStand_nil
  | some s =>
    have hdecl : (Node.decl (.mk pos group? s)).Stands G := by
      refine .mk (List.forall_mem_cons.mpr ⟨hpos, fun pos' hpos' => ?_⟩) h
      obtain ⟨g, hg, rfl⟩ := List.mem_map.mp hpos'
      exact hgroup g (Option.mem_toList.mp hg)
    simpa using hdecl

/-- The declarations that are there are in `G` if all that may be there are. -/
theorem allStand_filterMap {xs : List (Option Decl)}
    (h : ∀ x? ∈ xs, AllStand G (x?.toList.map .decl)) : AllStand G ((xs.filterMap id).map .decl) := by
  refine Node.allStand_map.mpr fun d hd => ?_
  obtain ⟨x?, hx, he⟩ := List.mem_filterMap.mp hd
  exact h x? hx _ (List.mem_map_of_mem (Option.mem_toList.mpr he))

/-- A rule for something to be declared may be used in a group as well, whose position is that of its
parenthesis. -/
theorem points_grouped (keyword : Keyword) {pos : Pos} (hpos : G pos) {spec : ParseM (Option Spec)}
    (h : PointsSpec G spec) (budget : Nat) : PointsDecls G (grouped keyword pos spec budget) := by
  refine points_token.bind fun t _ => ?_
  split
  · refine points_newGroup.bind fun id _ => points_here.bind fun opening hopening =>
      points_next.bind fun _ _ => ?_
    refine (points_list (W := fun d? : Option Decl => AllStand G (d?.toList.map .decl)) _ ?_ _).bind
      fun ds? hds => .done (allStand_filterMap hds)
    exact points_here.bind fun pos hpos => h.bind fun spec? hspec =>
      .done (allStand_decl hpos (fun g hg => by cases hg; exact hopening) hspec)
  · exact h.bind fun spec? hspec => .done (allStand_decl hpos nofun hspec)

/-! ## Clauses and simple statements -/

/-- The action yields a statement with positions in `G`. -/
abbrev PointsStmt (G : Pos → Prop) (m : ParseM Stmt) : Prop := Points G (fun s => (Node.stmt s).Stands G) m

/-- The action yields a statement with positions in `G`, or nothing. -/
abbrev PointsStmt? (G : Pos → Prop) (m : ParseM (Option Stmt)) : Prop :=
  PointsTo G (fun s? : Option Stmt => s?.toList.map .stmt) m

/-- An expression statement has the position of its expression. -/
theorem stands_exprStmt {x : Expr} (hx : (Node.expr x).Stands G) : (Node.stmt (.expr x)).Stands G :=
  .at rfl (hx.pos List.mem_cons_self) (by simp [Node.parts, hx])

/-- A statement that must be there is one that may be there. -/
theorem PointsStmt.some {m : ParseM Stmt} (h : PointsStmt G m) :
    PointsStmt? G (do return Option.some (← m)) :=
  h.bind fun s hs => .done (by simpa using hs)

/-- The rule for simple statements points to lexemes: those that are no expressions have the position of their
operator. -/
theorem points_simpleStmt (budget : Nat) : PointsStmt G (simpleStmt budget) := by
  refine points_traced _ ((points_expr _).bind fun lhs hlhs => points_here.bind fun pos hpos =>
    points_current.bind fun l _ => points_token.bind fun t _ => ?_)
  split
  · exact points_next.bind fun _ _ => (points_expr _).bind fun rhs hrhs =>
      .done (.at rfl hpos (by simp [Node.parts, hlhs, hrhs]))
  · exact points_next.bind fun _ _ => (points_expr _).bind fun rhs hrhs =>
      .done (.at rfl hpos (by simp [Node.parts, hlhs, hrhs]))
  · exact points_next.bind fun _ _ => .done (.at rfl hpos (by simp [Node.parts, hlhs]))
  · exact points_next.bind fun _ _ => (points_expr _).bind fun rhs hrhs =>
      .done (.at rfl hpos (by simp [Node.parts, hlhs, hrhs]))
  · exact .done (stands_exprStmt hlhs)

/-- The action yields an expression with positions in `G`, or nothing. -/
abbrev PointsExpr? (G : Pos → Prop) (m : ParseM (Option Expr)) : Prop :=
  PointsTo G (fun x? : Option Expr => x?.toList.map .expr) m

/-- Whether a statement serves as a condition is decided without looking at any more lexemes. What is complained
about has the position of the statement or of the separator. -/
theorem points_condition (c : Construct) (stmt? : Option Stmt) (separator? : Option (Pos × String))
    (hstmt : AllStand G (stmt?.toList.map .stmt))
    (hseparator : ∀ sep, separator? = some sep → G sep.1) :
    PointsExpr? G (condition c stmt? separator?) := by
  unfold condition
  split
  · exact .done (by simpa [Node.parts] using (Node.allStand_cons.mp hstmt).1.parts)
  · have hpos : G (Stmt.pos _) := (Node.allStand_cons.mp hstmt).1.pos List.mem_cons_self
    exact (points_complainAt hpos rfl).bind fun _ _ => .done Node.allStand_nil
  · split
    · next pos reason =>
      have hpos : G pos := hseparator _ rfl
      have hbad : AllStand G ((some (Expr.bad pos)).toList.map .expr) := by simpa using hpos
      split
      · split
        · exact (points_complainAt hpos rfl).bind fun _ _ => .done hbad
        · exact (points_complainAt hpos rfl).bind fun _ _ => .done hbad
      · exact .done Node.allStand_nil
    · exact .done Node.allStand_nil

/-- The separator in a clause has the position of its lexeme. -/
theorem points_clauseSeparator :
    Points G (fun sep? : Option (Pos × String) => ∀ sep, sep? = some sep → G sep.1) clauseSeparator := by
  refine points_token.bind fun t _ => ?_
  split
  · exact points_here.bind fun pos hpos => points_current.bind fun l _ => points_next.bind fun _ _ =>
      .done fun sep hsep => by cases hsep; exact hpos
  · refine (points_want _).bind fun _ _ => points_token.bind fun t _ => ?_
    split
    · exact .done nofun
    · exact (points_recover _).bind fun _ _ => .done nofun

/-- The rule for the statement behind each round points to lexemes; it looks back to a declaration there. -/
theorem points_postStmt (budget : Nat) : PointsStmt? G (postStmt budget) := by
  refine (points_want _).bind fun _ _ => points_token.bind fun t _ => ?_
  split
  · exact .done Node.allStand_nil
  · refine (points_simpleStmt _).bind fun s hs => ?_
    have hsome : AllStand G ((some s).toList.map .stmt) := by simpa using hs
    split
    · exact (points_complainAt (hs.pos List.mem_cons_self) rfl).bind fun _ _ => .done hsome
    · exact .done hsome

/-- The rule for what follows the first separator of a `for` points to lexemes. -/
theorem points_forTail (budget : Nat) : PointsTo G
    (fun x : Option Stmt × Option Stmt => x.1.toList.map .stmt ++ x.2.toList.map .stmt)
    (forTail budget) := by
  refine points_token.bind fun t _ => ?_
  split
  · exact (points_postStmt _).bind fun post? hpost => .done hpost
  · exact (points_complain _).bind fun _ _ => .done Node.allStand_nil
  · exact (points_simpleStmt _).bind fun cond hcond => (points_postStmt _).bind fun post? hpost =>
      .done (by simpa using ⟨hcond, hpost⟩)

/-- The rule for what comes first in a clause points to lexemes. -/
theorem points_clauseInit (c : Construct) (budget : Nat) : PointsStmt? G (clauseInit c budget) := by
  refine points_token.bind fun t _ => ?_
  split
  · exact .done Node.allStand_nil
  · refine (points_got _).bind fun b _ => ?_
    dsimp only
    split
    · exact (points_complain _).bind fun _ _ => PointsStmt.some (points_simpleStmt _)
    · exact PointsStmt.some (points_simpleStmt _)

/-- The rule for what stands before the block of a statement points to lexemes. -/
theorem points_clause (c : Construct) (budget : Nat) :
    PointsTo G Clause.nodes (clause c budget) := by
  -- The cases follow the clause: nothing but a block, a condition alone, or the two or three parts of a header
  -- with semicolons.
  refine (points_want _).bind fun _ _ => points_token.bind fun t _ => ?_
  split
  · split
    · exact (points_complain _).bind fun _ _ => points_holeExpr.bind fun bad hbad =>
        .done (by simpa [Clause.nodes] using hbad)
    · exact .done Node.allStand_nil
  · refine (points_clauseInit _ _).bind fun init? hinit => points_token.bind fun t _ => ?_
    split
    · exact (points_condition _ _ none hinit nofun).bind fun cond? hcond =>
        .done (by simpa [Clause.nodes] using hcond)
    · refine points_clauseSeparator.bind fun separator? hseparator => ?_
      split
      · refine (points_forTail _).bind fun tail htail => ?_
        -- What stands of the tail is the condition's nodes and then those of the post statement.
        obtain ⟨hfirst, hsecond⟩ := Node.allStand_append.mp htail
        exact (points_condition _ _ _ hfirst hseparator).bind fun cond? hcond =>
          .done (by simpa [Clause.nodes] using ⟨hinit, hcond, hsecond⟩)
      · refine points_token.bind fun t _ => ?_
        split
        · exact (points_condition _ none _ Node.allStand_nil hseparator).bind fun cond? hcond =>
            .done (by simpa [Clause.nodes] using ⟨hinit, hcond⟩)
        · exact (points_simpleStmt _).bind fun cond hcond =>
            (points_condition _ (some cond) _ (by simpa using hcond) hseparator).bind
              fun cond? hcond => .done (by simpa [Clause.nodes] using ⟨hinit, hcond⟩)

/-- The rule for declarations among statements points to lexemes. -/
theorem points_declStmt (keyword : Keyword) (budget : Nat) : PointsStmt G (declStmt keyword budget) := by
  refine points_traced _ (points_here.bind fun pos hpos => points_next.bind fun _ _ => ?_)
  split
  · exact (points_grouped _ hpos (points_typeSpec _) _).bind fun ds hds => .done (.at rfl hpos hds)
  · exact (points_grouped _ hpos (points_varSpec _) _).bind fun ds hds => .done (.at rfl hpos hds)

/-! ## Statements -/

/-- The action yields a block with positions in `G`. -/
abbrev PointsBlock (G : Pos → Prop) (m : ParseM Block) : Prop := Points G (fun b => (Node.block b).Stands G) m

/-- The rules for statements point to lexemes with a given budget. -/
structure PointedStmts (G : Pos → Prop) (budget : Nat) : Prop where
  block : ∀ after?, PointsBlock G (ParseM.block after? budget)
  stmtList : PointsTo G (fun ss : List Stmt => ss.map .stmt) (ParseM.stmtList budget)
  stmts : PointsTo G (fun ss : List Stmt => ss.map .stmt) (ParseM.stmts budget)
  stmt? : PointsStmt? G (ParseM.stmt? budget)
  ifStmt : PointsStmt G (ParseM.ifStmt budget)
  elseBranch : PointsStmt? G (ParseM.elseBranch budget)
  whileStmt : PointsStmt G (ParseM.whileStmt budget)
  forStmt : PointsStmt G (ParseM.forStmt budget)

/-- A block has the positions of its two braces and those in its statements. -/
theorem stands_block {pos rbrace : Pos} {ss : List Stmt} (hpos : G pos) (hrbrace : G rbrace)
    (h : AllStand G (ss.map .stmt)) : (Node.block (.mk pos ss rbrace)).Stands G :=
  .mk (by simpa [Node.positions, Block.pos, Block.rbrace] using ⟨hpos, hrbrace⟩) h

/-- A block as a statement has the position of the block. -/
theorem stands_blockStmt {b : Block} (hb : (Node.block b).Stands G) : (Node.stmt (.block b)).Stands G :=
  .at rfl (hb.pos List.mem_cons_self) (by simpa [Node.parts] using hb)

/-- Without any budget the rules for statements yield nothing, or what is empty, at the current lexeme. -/
theorem pointedStmts_zero : PointedStmts G 0 := by
  have hempty : PointsStmt G (do starve; return .empty (← here)) :=
    points_starve.bind fun _ _ => points_here.bind fun _ hpos => .done (.at rfl hpos Node.allStand_nil)
  exact {
    block := fun _ => points_starve.bind fun _ _ => points_here.bind fun _ hpos =>
      points_here.bind fun _ hrbrace => .done (stands_block hpos hrbrace Node.allStand_nil)
    stmtList := points_starve.bind fun _ _ => .done Node.allStand_nil
    stmts := points_starve.bind fun _ _ => .done Node.allStand_nil
    stmt? := points_starve.bind fun _ _ => .done Node.allStand_nil
    ifStmt := hempty
    elseBranch := points_starve.bind fun _ _ => .done Node.allStand_nil
    whileStmt := hempty
    forStmt := hempty }

section

variable {budget : Nat} (h : PointedStmts G budget)
include h

/-- The rule for blocks: both braces have the position of a lexeme, also where one is missing. -/
theorem points_block_succ (after? : Option Construct) : PointsBlock G (block after? (budget + 1)) := by
  have rest {pos : Pos} (hpos : G pos) : PointsBlock G (do
      let stmts ← stmtList budget
      let rbrace ← here
      want .rbrace
      return Block.mk pos stmts rbrace) :=
    h.stmtList.bind fun ss hss => points_here.bind fun rbrace hrbrace =>
      (points_want _).bind fun _ _ => .done (stands_block hpos hrbrace hss)
  refine points_traced _ (points_here.bind fun pos hpos => (points_got _).bind fun b _ => ?_)
  split
  · exact rest hpos
  · refine (points_complain _).bind fun _ _ => (points_recover _).bind fun _ _ =>
      points_here.bind fun rbrace hrbrace => (points_got _).bind fun b _ => ?_
    split
    · exact .done (stands_block hpos hrbrace Node.allStand_nil)
    · exact rest hpos

/-- The rule for statements: each one that is read is kept, whatever follows it. -/
theorem points_stmts_succ : PointsTo G (fun ss : List Stmt => ss.map .stmt) (stmts (budget + 1)) := by
  -- However a statement ends, the list goes on in the same way.
  have rest {s : Stmt} (hs : (Node.stmt s).Stands G) :
      PointsTo G (fun ss : List Stmt => ss.map .stmt) (do return s :: (← stmts budget)) :=
    h.stmts.bind fun ss hss => .done (by simpa using ⟨hs, hss⟩)
  refine points_token.bind fun t _ => ?_
  split
  · exact .done Node.allStand_nil
  · refine h.stmt?.bind fun s? hs => ?_
    split
    · exact .done Node.allStand_nil
    · have hs := (Node.allStand_cons.mp hs).1
      refine (points_got _).bind fun b _ => ?_
      split
      · exact rest hs
      · refine points_token.bind fun t _ => ?_
        split
        · exact rest hs
        · exact (points_complain _).bind fun _ _ => (points_recover _).bind fun _ _ =>
            ((points_got _).bind fun _ _ => Points.done (W := fun _ => True) trivial).bind
              fun _ _ => rest hs

/-- The rule for statements decides by the current lexeme. All others give what the rule for their kind
gives. -/
theorem points_stmt?_succ : PointsStmt? G (stmt? (budget + 1)) := by
  refine points_traced _ (points_here.bind fun pos hpos => points_token.bind fun t _ => ?_)
  have leaf {s : Stmt} (hs : (Node.stmt s).Stands G) : PointsStmt? G (pure (some s)) :=
    .done (by simpa using hs)
  split
  -- The first six kinds of lexemes start an expression.
  iterate 6 exact PointsStmt.some (points_simpleStmt _)
  · exact PointsStmt.some (points_declStmt _ _)
  · exact PointsStmt.some (points_declStmt _ _)
  · exact (h.block _).bind fun b hb => leaf (stands_blockStmt hb)
  · exact PointsStmt.some h.forStmt
  · exact PointsStmt.some h.whileStmt
  · exact PointsStmt.some h.ifStmt
  · refine points_next.bind fun _ _ => points_token.bind fun t _ => ?_
    split
    · exact leaf (.at rfl hpos Node.allStand_nil)
    · exact (points_expr _).bind fun x hx => leaf (.at rfl hpos (by simpa [Node.parts] using hx))
  · exact points_next.bind fun _ _ => leaf (.at rfl hpos Node.allStand_nil)
  · exact leaf (.at rfl hpos Node.allStand_nil)
  · exact .done Node.allStand_nil

/-- The rule for `if`: where there is no condition, a hole has the position of the statement. -/
theorem points_ifStmt_succ : PointsStmt G (ifStmt (budget + 1)) := by
  refine points_traced _ (points_here.bind fun pos hpos => (points_clause _ _).bind fun clause hclause =>
    (h.block _).bind fun b hb => h.elseBranch.bind fun else? helse => .done (.at rfl hpos ?_))
  -- Both a condition and the hole in its place are known to be in `G` by now.
  simp only [Clause.nodes, Node.allStand_append] at hclause
  have hcond : (Node.expr (clause.cond?.getD (.bad pos))).Stands G := by
    cases hc : clause.cond? with
    | none => simpa using hpos
    | some x => simpa [hc] using hclause.1.2
  simpa [Node.parts] using ⟨hclause.1.1, hcond, hb, helse⟩

/-- The rule for `else`: another `if` or a block. -/
theorem points_elseBranch_succ : PointsStmt? G (elseBranch (budget + 1)) := by
  refine (points_got _).bind fun b _ => ?_
  split
  · refine points_token.bind fun t _ => ?_
    split
    · exact PointsStmt.some h.ifStmt
    · exact (h.block _).bind fun b hb => .done (by simpa using stands_blockStmt hb)
    · exact (points_complain _).bind fun _ _ => (points_recover _).bind fun _ _ =>
        .done Node.allStand_nil
  · exact .done Node.allStand_nil

/-- The rule for `while`: the condition that is missing is a hole at the current lexeme. -/
theorem points_whileStmt_succ : PointsStmt G (whileStmt (budget + 1)) := by
  refine points_traced _ (points_here.bind fun pos hpos => points_next.bind fun _ _ =>
    points_token.bind fun t _ => ?_)
  split
  · exact (points_complain _).bind fun _ _ => points_holeExpr.bind fun cond hcond =>
      (h.block _).bind fun b hb => .done (.at rfl hpos (by simpa [Node.parts] using ⟨hcond, hb⟩))
  · exact (points_expr _).bind fun cond hcond => (h.block _).bind fun b hb =>
      .done (.at rfl hpos (by simpa [Node.parts] using ⟨hcond, hb⟩))

/-- The rule for `for`: its parts are those of its clause and its block. -/
theorem points_forStmt_succ : PointsStmt G (forStmt (budget + 1)) := by
  refine points_traced _ (points_here.bind fun pos hpos => (points_clause _ _).bind fun clause hclause =>
    (h.block _).bind fun b hb => .done (.at rfl hpos ?_))
  simp only [Clause.nodes, Node.allStand_append] at hclause
  simpa [Node.parts] using ⟨hclause.1.1, hclause.1.2, hclause.2, hb⟩

end

/-- The rules for statements point to lexemes, whatever their budget. -/
theorem pointedStmts (budget : Nat) : PointedStmts G budget := by
  induction budget with
  | zero => exact pointedStmts_zero
  | succ budget ih =>
    exact {
      block := points_block_succ ih
      stmtList := points_traced _ ih.stmts
      stmts := points_stmts_succ ih
      stmt? := points_stmt?_succ ih
      ifStmt := points_ifStmt_succ ih
      elseBranch := points_elseBranch_succ ih
      whileStmt := points_whileStmt_succ ih
      forStmt := points_forStmt_succ ih }

/-! ## Files -/

/-- The rule for bodies of functions points to lexemes; being inside a function or not changes no position. -/
theorem points_funcBody? (budget : Nat) :
    PointsTo G (fun b? : Option Block => b?.toList.map .block) (funcBody? budget) := by
  refine points_token.bind fun t _ => ?_
  split
  · have hbody : PointsBlock G (funcBody budget) :=
      (Points.ofMove .enterFunction nofun).bind fun _ _ =>
        ((pointedStmts _).block none).bind fun body hbody =>
          .move .leaveFunction (pure body) nofun (.done hbody)
    exact hbody.bind fun body hbody => .done (by simpa using hbody)
  · exact .done Node.allStand_nil

/-- Giving up yields nothing, after a complaint at the current lexeme. -/
theorem points_giveUp {nodes : Option α → List Node} (hnone : nodes none = []) (complaint : Complaint)
    (follow : List Token) : PointsTo G nodes (giveUp complaint follow) :=
  (points_complain _).bind fun _ _ => (points_recover _).bind fun _ _ =>
    .done (by rw [hnone]; exact Node.allStand_nil)

/-- The action yields a parameter with positions in `G`, or nothing. -/
abbrev PointsParam? (G : Pos → Prop) (m : ParseM (Option Param)) : Prop :=
  PointsTo G (fun p? : Option Param => p?.toList.map .param) m

/-- The rule for one parameter points to lexemes. -/
theorem points_param? (what : Expected) (follow : List Token) (budget : Nat) :
    PointsParam? G (param? what follow budget) := by
  refine points_here.bind fun pos hpos => points_token.bind fun t _ => ?_
  split
  · refine points_ident.bind fun name hname => (points_type? _).bind fun type? htype => ?_
    split
    · next type =>
      have hparam : (Node.param ⟨pos, name, type⟩).Stands G :=
        .at rfl hpos (by simpa [Node.parts, hname] using htype)
      exact .done (by simpa using hparam)
    · exact points_giveUp rfl _ _
  · exact points_giveUp rfl _ _

/-- The rule for parameters points to lexemes. -/
theorem points_params (budget : Nat) :
    PointsTo G (fun ps : List Param => ps.map .param) (params budget) := by
  refine (points_got _).bind fun b _ => ?_
  split
  · refine (points_list (W := fun p? : Option Param => AllStand G (p?.toList.map .param)) _
      (points_param? _ _ _) _).bind fun ps? hps => .done (Node.allStand_map.mpr fun p hp => ?_)
    obtain ⟨p?, hmem, he⟩ := List.mem_filterMap.mp hp
    exact hps p? hmem _ (List.mem_map_of_mem (Option.mem_toList.mpr he))
  · exact (points_complain _).bind fun _ _ => .done Node.allStand_nil

/-- The rule for a parameter of an operator points to lexemes. -/
theorem points_operandParam? (what : Expected) (budget : Nat) :
    PointsParam? G (operandParam? what budget) := by
  refine (points_got _).bind fun b _ => ?_
  split
  · refine (points_param? _ _ _).bind fun param? hparam => ?_
    split
    · exact (points_want _).bind fun _ _ => .done hparam
    · exact .done Node.allStand_nil
  · exact points_giveUp rfl _ _

/-- The rule for functions points to lexemes. -/
theorem points_funcSpec (budget : Nat) : PointsSpec G (funcSpec budget) := by
  refine points_traced _ (points_token.bind fun t _ => ?_)
  split
  · exact points_ident.bind fun name hname => (points_remark _).bind fun _ _ =>
      (points_params _).bind fun ps hps => (points_type? _).bind fun result? hresult =>
        (points_funcBody? _).bind fun body? hbody =>
          .done (allStand_spec (by simpa [Node.parts, hname] using ⟨hps, hresult, hbody⟩))
  · exact points_giveUp rfl _ _

/-- An operator to be declared has no position; what is no operator is complained about where its name
stands. -/
theorem points_overload? : PointsOnly G overload? := by
  refine points_token.bind fun t _ => ?_
  split
  · refine points_ident.bind fun name hname => ?_
    split
    · exact (points_remark _).bind fun _ _ => .done trivial
    · exact (points_complainAt hname rfl).bind fun _ _ => (points_recover _).bind fun _ _ => .done trivial
  · exact (points_complain _).bind fun _ _ => (points_recover _).bind fun _ _ => .done trivial

/-- The rule for operators points to lexemes. -/
theorem points_operSpec (budget : Nat) : PointsSpec G (operSpec budget) := by
  -- The nodes of the parts are kept until the specification is put together, or dropped with it.
  refine points_traced _ ((points_operandParam? _ _).bind fun lhs? hlhs => ?_)
  split
  · exact .done Node.allStand_nil
  · refine points_overload?.bind fun overload? _ => ?_
    split
    · exact .done Node.allStand_nil
    · refine (points_operandParam? _ _).bind fun rhs? hrhs => ?_
      split
      · exact .done Node.allStand_nil
      · refine (points_type? _).bind fun result? hresult => ?_
        have hlhs := (Node.allStand_cons.mp hlhs).1
        have hrhs := (Node.allStand_cons.mp hrhs).1
        split
        · have hresult := (Node.allStand_cons.mp hresult).1
          refine (points_funcBody? _).bind fun body? hbody => ?_
          split
          · exact .done (allStand_spec (by simpa [Node.parts, hlhs, hrhs, hresult] using hbody))
          · exact (points_complain _).bind fun _ _ =>
              .done (allStand_spec (by simp [Node.parts, hlhs, hrhs, hresult]))
        · exact points_giveUp rfl _ _

/-- Whatever a declaration at the top level starts with, its rule points to lexemes. -/
theorem points_topLevelAt {t : Token} {budget : Nat} {action : ParseM (List Decl)}
    (h : topLevelAt t budget = some action) : PointsDecls G action := by
  have group (k : Keyword) {spec : ParseM (Option Spec)} (hs : PointsSpec G spec) : PointsDecls G (do
      let pos ← here
      next
      grouped k pos spec budget) :=
    points_here.bind fun pos hpos => points_next.bind fun _ _ => points_grouped _ hpos hs _
  -- Functions and operators cannot be grouped.
  have single {spec : ParseM (Option Spec)} (hs : PointsSpec G spec) : PointsDecls G (do
      let pos ← here
      next
      return ((← spec).map (Decl.mk pos none)).toList) :=
    points_here.bind fun pos hpos => points_next.bind fun _ _ => hs.bind fun spec? hspec =>
      .done (allStand_decl hpos nofun hspec)
  unfold topLevelAt at h
  split at h
  · unfold topLevel? at h
    split at h
    · exact Option.some.inj h ▸ group _ points_importSpec
    · exact Option.some.inj h ▸ group _ (points_typeSpec _)
    · exact Option.some.inj h ▸ group _ (points_varSpec _)
    · exact Option.some.inj h ▸ single (points_funcSpec _)
    · exact Option.some.inj h ▸ single (points_operSpec _)
    · simp at h
  · simp at h

/-- What must follow a declaration is asked for at the current lexeme. -/
theorem points_endTopLevel (before : Nat) : PointsOnly G (endTopLevel before) := by
  refine points_token.bind fun t _ => ?_
  split
  · exact .done trivial
  · refine (points_got _).bind fun b _ => ?_
    split
    · exact .done trivial
    · refine .get fun p _ => ?_
      dsimp only
      split
      · exact (points_complain _).bind fun _ _ => points_recover _
      · exact points_recover _

/-- The rule for the declarations of a file points to lexemes, also past stray statements. -/
theorem points_topLevels (afterImport : Bool) (budget : Nat) :
    PointsDecls G (topLevels afterImport budget) := by
  induction budget generalizing afterImport with
  | zero => exact points_starve.bind fun _ _ => .done Node.allStand_nil
  | succ budget ih =>
    refine points_token.bind fun t _ => ?_
    split
    · exact .done Node.allStand_nil
    · split
      · exact points_next.bind fun _ _ => ih _
      · dsimp only
        cases ha : topLevelAt t budget with
        | none =>
          -- A stray statement is complained about and skipped. Nothing of it gets into the tree.
          have rest (isImport : Bool) : PointsDecls G (do
              complain .strayStatement
              recover strayFollow
              topLevels isImport budget) :=
            (points_complain _).bind fun _ _ => (points_recover _).bind fun _ _ => ih _
          split
          · exact (points_complain _).bind fun _ _ => rest _
          · exact rest _
        | some action =>
          have rest (isImport : Bool) : PointsDecls G (do
              let before := (← get).count
              let decls ← action
              endTopLevel before
              return decls ++ (← topLevels isImport budget)) :=
            .get fun p _ => (points_topLevelAt ha).bind fun ds hds =>
              (points_endTopLevel _).bind fun _ _ => (ih _).bind fun rest hrest =>
                .done (by simpa using ⟨hds, hrest⟩)
          split
          · exact (points_complain _).bind fun _ _ => rest _
          · exact rest _

/-- Reading a file points to lexemes, and no diagnostic finishes it by itself. -/
theorem points_file (D : Diagnostic → Prop) (budget : Nat) :
    Points G (Failure.Lies G D) (file budget) := by
  refine points_traced _ (points_here.bind fun pos hpos => points_current.bind fun l _ =>
    (points_got _).bind fun b _ => ?_)
  split
  · exact points_ident.bind fun name hname => (points_remark _).bind fun _ _ =>
      (points_want _).bind fun _ _ => (points_topLevels _ _).bind fun ds hds =>
        .done ⟨hpos, by simpa [File.parts] using ⟨hname, hds⟩⟩
  · exact .done hpos

end ParseM

end FrontEnd
