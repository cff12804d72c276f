import FrontEnd.Proofs.Routine.Rules
import FrontEnd.Proofs.Trees.Nodes

/-!
# Where rules point

All positions in a tree, and those of all complaints, come from looking at the current lexeme. An action
is in `Points G W` if it complains only at positions in `G` and yields something in `W`, as long as the
positions that it sees are in `G`. So is whatever is put together from such actions (`Points.bind`).

What every move keeps while it complains at positions in `G` only, a run keeps, and it yields something in
`W` (`Points.run`).
-/

namespace FrontEnd

namespace Node

/-- The positions in a node, without those in its parts. -/
def positions : Node → List Pos
  | .decl d => d.pos :: d.group?.toList.map Group.pos
  | .spec _ => []
  | .param p => [p.pos]
  | .block b => [b.pos, b.rbrace]
  | .stmt s => [s.pos]
  | .expr x | .type x => [x.pos]
  | .ident name => [name.pos]
  | .literal l => [l.pos]

/-- All positions in a node and its parts are in `G`. -/
def Stands (G : Pos → Prop) (n : Node) : Prop := n.Each fun m => ∀ pos ∈ m.positions, G pos

/-- All positions in some nodes are in `G`. -/
def AllStand (G : Pos → Prop) (ns : List Node) : Prop := ∀ n ∈ ns, n.Stands G

section

variable {G : Pos → Prop}

/-- No nodes, no positions. -/
@[simp] theorem allStand_nil : AllStand G [] := fun _ hn => (List.not_mem_nil hn).elim

/-- The positions in a node and in others. -/
@[simp] theorem allStand_cons {n : Node} {ns : List Node} :
    AllStand G (n :: ns) ↔ n.Stands G ∧ AllStand G ns := List.forall_mem_cons

/-- The positions in some nodes and in others. -/
@[simp] theorem allStand_append {ns ms : List Node} :
    AllStand G (ns ++ ms) ↔ AllStand G ns ∧ AllStand G ms := List.forall_mem_append

/-- All positions in a node are its own and those in its parts. -/
theorem Stands.mk {n : Node} (hpos : ∀ pos ∈ n.positions, G pos) (hparts : AllStand G n.parts) :
    n.Stands G := each_iff.mpr ⟨hpos, hparts⟩

/-- The positions in the parts of a node are in the node. -/
theorem Stands.parts {n : Node} (h : n.Stands G) : AllStand G n.parts := (each_iff.mp h).2

/-- A node with one position. -/
theorem Stands.at {n : Node} {pos : Pos} (hn : n.positions = [pos]) (hpos : G pos)
    (hparts : AllStand G n.parts) : n.Stands G := by
  refine .mk (fun pos' hpos' => ?_) hparts
  rw [hn, List.mem_singleton] at hpos'
  exact hpos' ▸ hpos

/-- A position of a node is in the node. -/
theorem Stands.pos {n : Node} {pos : Pos} (h : n.Stands G) (hpos : pos ∈ n.positions) : G pos :=
  (each_iff.mp h).1 pos hpos

/-- An identifier has no parts. -/
@[simp] theorem stands_ident {name : Ident} : (ident name).Stands G ↔ G name.pos :=
  ⟨fun h => h.pos List.mem_cons_self, fun h => .at rfl h allStand_nil⟩

/-- A literal has no parts. -/
@[simp] theorem stands_literal {l : Literal} : (literal l).Stands G ↔ G l.pos :=
  ⟨fun h => h.pos List.mem_cons_self, fun h => .at rfl h allStand_nil⟩

/-- A hole in an expression has no parts. -/
@[simp] theorem stands_bad {pos : Pos} : (expr (.bad pos)).Stands G ↔ G pos :=
  ⟨fun h => h.pos List.mem_cons_self, fun h => .at rfl h allStand_nil⟩

/-- A hole in place of a type has no parts. -/
@[simp] theorem stands_badType {pos : Pos} : (type (.bad pos)).Stands G ↔ G pos :=
  ⟨fun h => h.pos List.mem_cons_self, fun h => .at rfl h allStand_nil⟩

/-- The positions in nodes of one kind. -/
theorem allStand_map {α : Type} {node : α → Node} {xs : List α} :
    AllStand G (xs.map node) ↔ ∀ x ∈ xs, (node x).Stands G := List.forall_mem_map

end

end Node

/-- All positions in a file are in `G`. -/
def File.Stands (G : Pos → Prop) (f : File) : Prop := G f.pos ∧ Node.AllStand G f.parts

/-- Positions in a set are in a larger one. -/
theorem File.Stands.mono {G H : Pos → Prop} {f : File} (h : f.Stands G) (hGH : ∀ pos, G pos → H pos) :
    f.Stands H :=
  ⟨hGH _ h.1, fun n hn => (h.2 n hn).mono fun _ hm pos hpos => hGH pos (hm pos hpos)⟩

/-- The action complains at positions in `G` only and yields something in `W`, if all positions that it sees
are in `G`. -/
inductive Points (G : Pos → Prop) {α : Type} (W : α → Prop) : ParseM α → Prop where
  | done {x : α} : W x → Points G W (pure x)
  | look (f : Parser → ParseM α) : (∀ p, G p.here → Points G W (f p)) → Points G W fun p => f p p
  | move (a : Move) (m : ParseM α) : (∀ pos c hc, a = .lookBack pos c hc → G pos) → Points G W m →
      Points G W fun p => m (a.apply p)

namespace Points

variable {G : Pos → Prop} {α β : Type} {W V : α → Prop} {W' : β → Prop} {m : ParseM α}

/-- What all moves keep that lookBack positions in `G` only, and what makes sure that the current position is
in `G`, is kept by the whole action. -/
theorem run {P : Parser → Prop} (hlook : ∀ p, P p → G p.here)
    (hmove : ∀ a p, (∀ pos c hc, a = .lookBack pos c hc → G pos) → P p → P (Move.apply a p))
    (h : Points G W m) {p : Parser} (hp : P p) : W (m.run p).1 ∧ P (m.run p).2 := by
  induction h generalizing p with
  | done hx => exact ⟨hx, hp⟩
  | look f _ ih => exact ih p (hlook p hp) hp
  | move a m ha _ ih => exact ih (hmove a p ha hp)

/-- One action after another. -/
theorem bind (h : Points G W m) {f : α → ParseM β} (hf : ∀ x, W x → Points G W' (f x)) :
    Points G W' (m >>= f) := by
  induction h with
  | done hx => exact hf _ hx
  | look g _ ih => exact look (fun p => g p >>= f) ih
  | move a m ha _ ih => exact move a (m >>= f) ha ih

/-- What is in `W` is in a larger set. -/
theorem mono (h : Points G W m) (hV : ∀ x, W x → V x) : Points G V m := by
  induction h with
  | done hx => exact done (hV _ hx)
  | look f _ ih => exact look f ih
  | move a m ha _ ih => exact move a m ha ih

/-- What an action does after a look at the parser. -/
theorem get {f : Parser → ParseM α} (h : ∀ p, G p.here → Points G W (f p)) : Points G W (get >>= f) :=
  look f h

/-- A move that does not look back. -/
theorem ofMove (a : Move) (ha : ∀ pos c hc, a ≠ .lookBack pos c hc) :
    Points G (fun _ => True) (modify a.apply) :=
  move a (pure ()) (fun pos c hc he => absurd he (ha pos c hc)) (done trivial)

end Points

end FrontEnd
