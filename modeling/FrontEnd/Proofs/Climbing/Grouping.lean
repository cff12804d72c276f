import FrontEnd.Proofs.Grammar.Spelling

/-!
# How a chain of operands is grouped

A chain of operands and operators may be read off many trees, each of which is a way to put parentheses
(`Grouping.reading`). In one of them, and only in one, every operator binds no more strongly than any on its
left side and less strongly than all on its right side (`Grouping.Ranked`). It is enough to demand that of
the operators next below: it goes on from there (`Grouping.Ranked.reading`).

So the root of a ranked tree is the last of the weakest operators, which is why there is only one such tree
for a reading (`Grouping.eq_of_reading_eq`), and one grows out of another when the chain goes on with an
operator, which comes up as far as the operators on the right edge bind at least as strongly
(`Grouping.push`).
-/

namespace FrontEnd

/-- A member of a chain of operands that are joined by operators. -/
inductive Member where
  | operand (x : Expr)
  | operator (pos : Pos) (op : Operator)

/-- A tree of operators over operands. -/
inductive Grouping where
  | leaf (x : Expr)
  | node (pos : Pos) (op : Operator) (left right : Grouping)

namespace Grouping

/-- The chain that the tree groups, from left to right. -/
def reading : Grouping → List Member
  | leaf x => [.operand x]
  | node pos op left right => left.reading ++ .operator pos op :: right.reading

/-- The operator at the root. -/
def top? : Grouping → Option Operator
  | leaf _ => none
  | node _ op _ _ => some op

/-- The operator at the top of a left side binds at least as strongly as the one above it, and the one at the
top of a right side more strongly. -/
def Ranked : Grouping → Prop
  | leaf _ => True
  | node _ op left right => left.Ranked ∧ right.Ranked ∧
      (∀ o ∈ left.top?, op.precedence ≤ o.precedence) ∧ ∀ o ∈ right.top?, op.precedence < o.precedence

/-- The expression with the operations of the tree. A comparison `a < b` is in it as `b > a`. -/
def toExpr : Grouping → Expr
  | leaf x => x
  | node pos op left right => .operation pos op left.toExpr right.toExpr

variable {s t : Grouping} {n : Nat} {pos pos' : Pos} {op op' : Operator}

/-! ## Only one tree is ranked -/

/-- A single operand is read off no tree but its leaf. -/
theorem node_reading_ne {left right : Grouping} {x : Expr} :
    (node pos op left right).reading ≠ [.operand x] := by
  intro h
  have hop : Member.operator pos op ∈ (node pos op left right).reading :=
    List.mem_append_right _ List.mem_cons_self
  rw [h] at hop
  cases List.mem_singleton.mp hop

/-- What is true of the strength of the operator at the top is true of all. -/
theorem Ranked.reading (h : t.Ranked) (hn : ∀ o ∈ t.top?, n ≤ o.precedence) :
    ∀ pos o, .operator pos o ∈ t.reading → n ≤ o.precedence := by
  induction t with
  | leaf x =>
    intro pos o ho
    cases List.mem_singleton.mp ho
  | node pos' op left right ihl ihr =>
    intro pos o ho
    obtain ⟨hl, hr, hle, hlt⟩ := h
    have hop : n ≤ op.precedence := hn op rfl
    rcases List.mem_append.mp ho with ho | ho
    · exact ihl hl (fun o ho => Nat.le_trans hop (hle o ho)) pos o ho
    · rcases List.mem_cons.mp ho with ho | ho
      · cases ho
        exact hop
      · exact ihr hr (fun o ho => Nat.le_trans hop (Nat.le_of_lt (hlt o ho))) pos o ho

/-- What is in the left operand binds as strongly at least. -/
theorem Ranked.left {left right : Grouping} (h : (node pos op left right).Ranked) :
    ∀ pos o, .operator pos o ∈ left.reading → op.precedence ≤ o.precedence := h.1.reading h.2.2.1

/-- What is in the right operand binds more strongly. -/
theorem Ranked.right {left right : Grouping} (h : (node pos op left right).Ranked) :
    ∀ pos o, .operator pos o ∈ right.reading → op.precedence < o.precedence := h.2.1.reading h.2.2.2

/-- Of two operators in a chain, the second may be at the root only if it is no stronger than the first, and
the first only if it is weaker than the second. -/
theorem not_both_roots {as bs cs ds : List Member} (hbs : bs = as ++ .operator pos op :: cs)
    (hle : ∀ pos o, .operator pos o ∈ bs → op'.precedence ≤ o.precedence)
    (hlt : ∀ pos o, .operator pos o ∈ cs ++ .operator pos' op' :: ds → op.precedence < o.precedence) :
    False := by
  have hle : op'.precedence ≤ op.precedence := hle pos op (hbs ▸ List.mem_append_right _ List.mem_cons_self)
  have hlt : op.precedence < op'.precedence := hlt pos' op' (List.mem_append_right _ List.mem_cons_self)
  omega

/-- In a chain there is only one operator without weaker ones before it and without weaker or equally strong
ones after it. -/
theorem eq_of_split {as bs cs ds : List Member}
    (h : as ++ .operator pos op :: bs = cs ++ .operator pos' op' :: ds)
    (has : ∀ pos o, .operator pos o ∈ as → op.precedence ≤ o.precedence)
    (hbs : ∀ pos o, .operator pos o ∈ bs → op.precedence < o.precedence)
    (hcs : ∀ pos o, .operator pos o ∈ cs → op'.precedence ≤ o.precedence)
    (hds : ∀ pos o, .operator pos o ∈ ds → op'.precedence < o.precedence) :
    as = cs ∧ Member.operator pos op = .operator pos' op' ∧ bs = ds := by
  -- If one root stood inside the other's part, both would have to bind at most as tight as the other.
  rcases List.append_eq_append_iff.mp h with ⟨es, hcs', hes⟩ | ⟨es, has', hes⟩
  · cases es with
    | nil =>
      obtain ⟨hop, hbs'⟩ := List.cons_eq_cons.mp hes
      exact ⟨(hcs'.trans (List.append_nil _)).symm, hop, hbs'⟩
    | cons e es =>
      obtain ⟨rfl, rfl⟩ := List.cons_eq_cons.mp hes
      exact (not_both_roots hcs' hcs hbs).elim
  · cases es with
    | nil =>
      obtain ⟨hop, hds'⟩ := List.cons_eq_cons.mp hes
      exact ⟨has'.trans (List.append_nil _), hop.symm, hds'.symm⟩
    | cons e es =>
      obtain ⟨rfl, rfl⟩ := List.cons_eq_cons.mp hes
      exact (not_both_roots has' has hds).elim

/-- There is only one ranked tree for a chain. -/
theorem eq_of_reading_eq (hs : s.Ranked) (ht : t.Ranked) (h : s.reading = t.reading) : s = t := by
  induction s generalizing t with
  | leaf x =>
    cases t with
    | leaf y =>
      cases h
      rfl
    | node pos op left right => exact (node_reading_ne h.symm).elim
  | node pos op left right ihl ihr =>
    cases t with
    | leaf y => exact (node_reading_ne h).elim
    | node pos' op' left' right' =>
      obtain ⟨hleft, hop, hright⟩ := eq_of_split h hs.left hs.right ht.left ht.right
      cases hop
      rw [ihl hs.1 ht.1 hleft, ihr hs.2.1 ht.2.1 hright]

/-! ## A ranked tree grows -/

/-- The tree with one more operator and operand at its end. -/
def push (pos : Pos) (op : Operator) (x : Expr) : Grouping → Grouping
  | leaf y => node pos op (leaf y) (leaf x)
  | node pos' op' left right =>
    if op.precedence ≤ op'.precedence then node pos op (node pos' op' left right) (leaf x)
    else node pos' op' left (push pos op x right)

/-- An operator and an operand are read behind the others. -/
theorem reading_push (x : Expr) (t : Grouping) :
    (t.push pos op x).reading = t.reading ++ [.operator pos op, .operand x] := by
  induction t with
  | leaf y => rfl
  | node pos' op' left right _ ih =>
    unfold push
    split
    · rfl
    · simp only [Grouping.reading, ih, List.append_assoc, List.cons_append]

/-- Pushing an operator puts it on top or leaves what is there. -/
theorem top?_push (x : Expr) (t : Grouping) :
    (t.push pos op x).top? = some op ∨ (t.push pos op x).top? = t.top? := by
  cases t with
  | leaf y => exact .inl rfl
  | node pos' op' left right =>
    unfold push
    split
    · exact .inl rfl
    · exact .inr rfl

/-- Pushing an operator keeps the order of strengths. -/
theorem Ranked.push (pos : Pos) (op : Operator) (x : Expr) (h : t.Ranked) : (t.push pos op x).Ranked := by
  induction t with
  | leaf y => exact ⟨trivial, trivial, nofun, nofun⟩
  | node pos' op' left right _ ih =>
    unfold Grouping.push
    split
    · next hle =>
      refine ⟨h, trivial, ?_, nofun⟩
      rintro o ⟨⟩
      exact hle
    · next hlt =>
      refine ⟨h.1, ih h.2.1, h.2.2.1, fun o ho => ?_⟩
      rcases top?_push x right with htop | htop <;> rw [htop] at ho
      · cases ho
        exact Nat.lt_of_not_le hlt
      · exact h.2.2.2 o ho

end Grouping

end FrontEnd
