import FrontEnd.Proofs.Order.Decls

/-!
# Statements are laid out

Every statement of a block has its position between where the rule for it starts and where it ends, and the
list of statements goes on from there. Only an empty statement leaves the parser at its separator, which is
passed before the next one. So the statements of a block are in ascending order, between where the block
starts and where it closes (`begins_block`), also where no brace opens it.
-/

namespace FrontEnd

namespace Parser

variable {p q : Parser} {ts : List Token}

/-- A block that starts before its statements and closes behind them is in order. -/
theorem Lays.block {pos : Pos} {ss : List Stmt} (h : Lays [] p (ss.map Stmt.pos) (ss.map .stmt) q)
    (hpos : pos.place ≤ p.place) : Lays [] p [] [.block (.mk pos ss q.here)] q := by
  refine Lays.node (n := .block (.mk pos ss q.here)) (h.only (List.nil_sublist _)) fun hq => ?_
  refine ⟨h.ascending hq, fun s hs => ?_⟩
  obtain ⟨hfrom, hbehind⟩ := h.between hq s.pos (List.mem_map_of_mem hs)
  exact ⟨le_trans hpos hfrom.place_le, hbehind.place_le⟩

end Parser

namespace ParseM

open Ensures
open FrontEnd.Parser (Lays Clears)

variable {budget : Nat} {p q : Parser}

/-! ## Clauses and simple statements -/

/-- A simple statement is plain, and stands where its expression or its operator does. -/
theorem begins_simpleStmt (hp : p.Rises) : Ensures (simpleStmt budget) p fun s q =>
    (p.Later q ∧ s.isPlain = true) ∧ (p.token.startsExpr → Lays [] p [s.pos] [.stmt s] q) := by
  have hkeeps : Keeps fun (s : Stmt) q =>
      (p.Later q ∧ s.isPlain = true) ∧ (p.token.startsExpr → Lays [] p [s.pos] [.stmt s] q) :=
    fun _ q ⟨⟨hq, hs⟩, h⟩ => ⟨hq.rises, fun _ hr => ⟨⟨hq.trans hr.toLater, hs⟩, fun ht => (h ht).stays hr⟩⟩
  refine .stays_traced hp hkeeps fun q hq => ?_
  have hexpr : Ensures (expr budget) q fun x r =>
      q.Later r ∧ (q.token.startsExpr → Lays [] q [x.pos] [] r) :=
    ⟨later (routine_expr budget) hq.rises, begins_expr budget q hq.rises⟩
  refine hexpr.bind fun lhs r ⟨hr, hlhs⟩ => .onHere (.onCurrent (.onToken ?_))
  have hplain {s : Stmt} {t : Parser} (hs : s.isPlain = true)
      (h : q.token.startsExpr → Lays [] q [s.pos] [] t) : p.token.startsExpr → Lays [] p [s.pos] [.stmt s] t :=
    fun ht => .sooner hq.toLater ((h (hq.token_eq ▸ ht)).nodes fun _ n hn => by
      rw [List.mem_singleton.mp hn]
      exact Node.IsPlain.each_inOrder hs)
  -- What stands at the operator stands behind where the expression starts.
  have hpos {t : Parser} (hne : r.token ≠ .eof) (ht : Clears [] r t) : Lays [] q [r.here] [] t :=
    .sooner hr (.here hne ht)
  -- An assignment takes its operator before it takes the expression behind it.
  have assigns {f : Expr → Stmt} (hne : r.token ≠ .eof)
      (hf : ∀ y, (f y).isPlain = true ∧ (f y).pos = r.here) :
      Ensures (do next; return f (← expr budget)) r fun s t =>
        (p.Later t ∧ s.isPlain = true) ∧ (p.token.startsExpr → Lays [] p [s.pos] [.stmt s] t) := by
    refine (clears_next hr.rises).bind fun _ t ht => (later (routine_expr _) ht.rises).bind
      fun y u hu => .pure ?_
    obtain ⟨hy, hhere⟩ := hf y
    refine ⟨⟨hq.toLater.trans (hr.trans (ht.toLater.trans hu)), hy⟩, hplain hy fun _ => ?_⟩
    rw [hhere]
    exact hpos hne (ht.later hu)
  split
  · next ht => exact assigns (by rw [ht]; exact Token.noConfusion) fun _ => ⟨rfl, rfl⟩
  · next ht => exact assigns (by rw [ht]; exact Token.noConfusion) fun _ => ⟨rfl, rfl⟩
  · next ht =>
    have hne : r.token ≠ .eof := by rw [ht]; exact Token.noConfusion
    refine (clears_next hr.rises).bind fun _ t ht => .pure ?_
    exact ⟨⟨hq.toLater.trans (hr.trans ht.toLater), rfl⟩, hplain rfl fun _ => hpos hne ht⟩
  · next ht => exact assigns (by rw [ht]; exact Token.noConfusion) fun _ => ⟨rfl, rfl⟩
  · exact .pure ⟨⟨hq.toLater.trans hr, rfl⟩, hplain rfl hlhs⟩

/-- The statement is plain, if there is one. -/
def Plain? (s? : Option Stmt) : Prop := ∀ s, s? = some s → s.isPlain = true

/-- Where there is no statement, nothing is in it. -/
theorem plain?_none : Plain? none := fun _ hs => by cases hs

/-- A statement that is plain is so if it may be there. -/
theorem plain?_some {s : Stmt} (h : s.isPlain = true) : Plain? (some s) := fun _ hs => by
  cases hs
  exact h

/-- What is in a plain statement is in order, since there are neither blocks nor declarations. -/
theorem Plain?.each_inOrder {s? : Option Stmt} (h : Plain? s?) {n : Node} (hn : n ∈ s?.toList.map Node.stmt) :
    n.Each Node.InOrder := by
  obtain ⟨s, hs, rfl⟩ := List.mem_map.mp hn
  exact Node.IsPlain.each_inOrder (h s (Option.mem_toList.mp hs))

/-- The statement behind each round is plain. -/
theorem plain_postStmt (hp : p.Rises) :
    Ensures (postStmt budget) p fun s? q => p.Later q ∧ Plain? s? := by
  refine (later (routine_want _) hp).bind fun _ q hq => .onToken ?_
  split
  · exact .pure ⟨hq, plain?_none⟩
  · refine (begins_simpleStmt hq.rises).bind fun s r ⟨⟨hr, hs⟩, _⟩ => ?_
    split
    · exact (later (routine_complainAt _ rfl) hr.rises).bind fun _ t ht =>
        .pure ⟨hq.trans (hr.trans ht), plain?_some hs⟩
    · exact .pure ⟨hq.trans hr, plain?_some hs⟩

/-- What follows the first separator of a `for` is plain. -/
theorem plain_forTail (hp : p.Rises) :
    Ensures (forTail budget) p fun tail q => p.Later q ∧ Plain? tail.2 := by
  refine .onToken ?_
  split
  · exact (plain_postStmt hp).bind fun post? q hpost => .pure hpost
  · exact (later (routine_complain _) hp).bind fun _ q hq => .pure ⟨hq, plain?_none⟩
  · exact (begins_simpleStmt hp).bind fun cond q ⟨⟨hq, _⟩, _⟩ => (plain_postStmt hq.rises).bind
      fun post? r ⟨hr, hpost⟩ => .pure ⟨hq.trans hr, hpost⟩

/-- What comes first in a clause is plain. -/
theorem plain_clauseInit (c : Construct) (hp : p.Rises) :
    Ensures (clauseInit c budget) p fun s? q => p.Later q ∧ Plain? s? := by
  have rest {q : Parser} (hq : p.Later q) : Ensures (do return some (← simpleStmt budget)) q
      fun s? r => p.Later r ∧ Plain? s? :=
    (begins_simpleStmt hq.rises).bind fun s r ⟨⟨hr, hs⟩, _⟩ => .pure ⟨hq.trans hr, plain?_some hs⟩
  refine .onToken ?_
  split
  · exact .pure ⟨.refl hp, plain?_none⟩
  · refine .clears_got hp (fun q _ hq => ?_) fun _ => rest (.refl hp)
    exact (later (routine_complain _) hq.rises).bind fun _ r hr => rest (hq.toLater.trans hr)

/-- The clause has been read with its keyword, and its statements are plain. -/
structure Opens (c : Construct) (p : Parser) (clause : Clause) (q : Parser) : Prop extends p.Later q where
  clears : p.token = .keyword c.keyword → Clears [] p q
  init : Plain? clause.init?
  post : Plain? clause.post?

/-- A clause takes its keyword, and its statements are plain. -/
theorem opens_clause (c : Construct) (hp : p.Rises) : Ensures (clause c budget) p (Opens c p) := by
  refine (clears_want hp).bind fun _ q ⟨hq, hkeyword⟩ => ?_
  -- However the clause goes on, it has consumed its keyword and ends later.
  have opens {init? post? : Option Stmt} {cond? : Option Expr} {r : Parser} (hr : q.Later r)
      (hinit : Plain? init?) (hpost : Plain? post?) : Opens c p ⟨init?, cond?, post?⟩ r :=
    ⟨hq.trans hr, fun ht => (hkeyword ht).later hr, hinit, hpost⟩
  refine .onToken ?_
  split
  · split
    · exact (later (routine_complain _) hq.rises).bind fun _ r hr =>
        .onHole (.pure (opens hr plain?_none plain?_none))
    · exact .pure (opens (.refl hq.rises) plain?_none plain?_none)
  · refine (plain_clauseInit c hq.rises).bind fun init? r ⟨hr, hinit⟩ => .onToken ?_
    split
    · exact (later (routine_condition ..) hr.rises).bind fun cond? s hs =>
        .pure (opens (hr.trans hs) plain?_none plain?_none)
    · refine (later routine_clauseSeparator hr.rises).bind fun separator? s hs => ?_
      have hqs := hr.trans hs
      split
      · exact (plain_forTail hqs.rises).bind fun tail t ⟨ht, hpost⟩ =>
          (later (routine_condition ..) ht.rises).bind fun cond? u hu =>
            .pure (opens (hqs.trans (ht.trans hu)) hinit hpost)
      · refine .onToken ?_
        split
        · exact (later (routine_condition ..) hqs.rises).bind fun cond? t ht =>
            .pure (opens (hqs.trans ht) hinit plain?_none)
        · exact (later (routine_simpleStmt _) hqs.rises).bind fun cond t ht =>
            (later (routine_condition ..) ht.rises).bind fun cond? u hu =>
              .pure (opens (hqs.trans (ht.trans hu)) hinit plain?_none)

/-! ## Statements -/

/-- The action yields a block in order, with its position where it starts; if there is a brace, that is
passed. -/
def BeginsBlock (m : ParseM Block) : Prop :=
  ∀ p : Parser, p.Rises → Ensures m p fun b q =>
    Lays [] p [] [.block b] q ∧ (p.token = .lbrace → Lays [] p [b.pos] [.block b] q)

/-- The action yields statements that are laid out one after the other. -/
def LaysStmts (m : ParseM (List Stmt)) : Prop :=
  ∀ p : Parser, p.Rises → Ensures m p fun ss q => Lays [] p (ss.map Stmt.pos) (ss.map .stmt) q

/-- At the keyword, the action yields a statement in order whose position is between where it starts and
where it ends. -/
def BeginsStmt (k : Keyword) (m : ParseM Stmt) : Prop :=
  ∀ p : Parser, p.Rises → p.token = .keyword k → Ensures m p fun s q => Lays [] p [s.pos] [.stmt s] q

/-- The rules for statements lay them out with a given budget. -/
structure LaidStmts (budget : Nat) : Prop where
  block : ∀ after?, BeginsBlock (ParseM.block after? budget)
  stmtList : LaysStmts (ParseM.stmtList budget)
  stmts : LaysStmts (ParseM.stmts budget)
  /-- only an empty statement is not passed, and leaves the parser at its separator -/
  stmt? : ∀ p : Parser, p.Rises → Ensures (ParseM.stmt? budget) p fun s? q =>
    Lays [.semi] p (s?.toList.map Stmt.pos) (s?.toList.map .stmt) q
  ifStmt : BeginsStmt .ifWord (ParseM.ifStmt budget)
  elseBranch : ∀ p : Parser, p.Rises → Ensures (ParseM.elseBranch budget) p fun s? q =>
    Lays [] p [] (s?.toList.map .stmt) q
  whileStmt : BeginsStmt .whileWord (ParseM.whileStmt budget)
  forStmt : BeginsStmt .forWord (ParseM.forStmt budget)

/-- Nothing is said of a run that has no budget. -/
theorem laidStmts_zero : LaidStmts 0 where
  block _ _ hp := .of_starve hp fun _ hq hs => .onHere (.onHere (.pure
    ⟨.of_starved hq hs, fun _ => .of_starved hq hs⟩))
  stmtList _ hp := .of_starve hp fun _ hq hs => .pure (.of_starved hq hs)
  stmts _ hp := .of_starve hp fun _ hq hs => .pure (.of_starved hq hs)
  stmt? _ hp := .of_starve hp fun _ hq hs => .pure (.of_starved hq hs)
  ifStmt _ hp _ := .of_starve hp fun _ hq hs => .onHere (.pure (.of_starved hq hs))
  elseBranch _ hp := .of_starve hp fun _ hq hs => .pure (.of_starved hq hs)
  whileStmt _ hp _ := .of_starve hp fun _ hq hs => .onHere (.pure (.of_starved hq hs))
  forStmt _ hp _ := .of_starve hp fun _ hq hs => .onHere (.pure (.of_starved hq hs))

section

variable (h : LaidStmts budget)
include h

/-- A block starts where the rule does, and its closing brace is behind its statements. -/
theorem begins_block_succ (after? : Option Construct) : BeginsBlock (block after? (budget + 1)) := by
  intro p hp
  have hkeeps : Keeps fun (b : Block) q =>
      Lays [] p [] [.block b] q ∧ (p.token = .lbrace → Lays [] p [b.pos] [.block b] q) :=
    fun _ q ⟨hb, hbrace⟩ => ⟨hb.rises, fun _ hr => ⟨hb.stays hr, fun ht => (hbrace ht).stays hr⟩⟩
  refine .stays_traced hp hkeeps fun q hq => .onHere ?_
  -- From wherever the statements start, the block goes on to its closing brace.
  have rest {r : Parser} (hr : q.Later r) : Ensures (do
      let stmts ← stmtList budget
      let rbrace ← here
      want .rbrace
      return Block.mk q.here stmts rbrace) r fun b t =>
        r.Later t ∧ b.pos = q.here ∧ Lays [] p [] [.block b] t := by
    refine (h.stmtList r hr.rises).bind fun ss s hss => .onHere ?_
    refine (later (routine_want _) hss.rises).bind fun _ t ht => .pure ⟨hss.toLater.trans ht, rfl, ?_⟩
    exact .sooner (hq.toLater.trans hr) ((hss.block hr.place_le).later ht)
  refine .clears_got hq.rises (fun r hbrace hr => ?_) fun hbrace => ?_
  · have hne : q.token ≠ .eof := by rw [hbrace]; exact Token.noConfusion
    refine (rest hr.toLater).weaken fun b t ⟨ht, hpos, hb⟩ => ⟨hb, fun _ => ?_⟩
    have hplace : Lays [] q [b.pos] [] t := hpos ▸ .here hne (hr.later ht)
    exact (Parser.Lays.sooner hq.toLater hplace).nodes hb.inOrder
  · have hnot {b : Block} {t : Parser} (hb : Lays [] p [] [.block b] t) :
        Lays [] p [] [.block b] t ∧ (p.token = .lbrace → Lays [] p [b.pos] [.block b] t) :=
      ⟨hb, fun ht => absurd (hq.token_eq.trans ht) hbrace⟩
    refine (later (routine_complain _) hq.rises).bind fun _ r hr =>
      (later (routine_recover _) hr.rises).bind fun _ s hs => .onHere ?_
    have hqs := hr.trans hs
    -- The search for a brace may end at the closing one: the block is empty, and closed where it was read on.
    refine .clears_got hqs.rises (fun t _ ht => .pure (hnot ?_)) fun _ => ?_
    · have hempty : Lays [] s ([].map Stmt.pos) ([].map .stmt) s := .nil (.refl hqs.rises)
      exact .sooner (hq.toLater.trans hqs) ((hempty.block hqs.place_le).later ht.toLater)
    · exact (rest hqs).weaken fun b t ⟨_, _, hb⟩ => hnot hb

/-- Statements are laid out one after the other, each behind the separator of the one before. -/
theorem lays_stmts : LaysStmts (stmts (budget + 1)) := by
  refine fun p hp => .onToken ?_
  split
  · exact .pure (.nil (.refl hp))
  · refine (h.stmt? p hp).bind fun s? q hs => ?_
    cases s? with
    | none => exact .pure (.nil hs.toLater)
    | some s =>
      -- The rest is laid out behind the statement from wherever the parser has passed it.
      have rest {r : Parser} (hr : Lays [] p [s.pos] [.stmt s] r) : Ensures (do
          return s :: (← stmts budget)) r fun ss t => Lays [] p (ss.map Stmt.pos) (ss.map .stmt) t :=
        (h.stmts r hr.rises).bind fun ss t hss => .pure (hr.append hss)
      refine .clears_got hs.rises (fun r _ hr => rest (hs.clears hr)) fun hsemi => .onToken ?_
      -- A statement that is not followed by a separator has been passed.
      have hs : Lays [] p [s.pos] [.stmt s] q := hs.settle (by simpa using hsemi)
      split
      · exact rest hs
      · exact (later (routine_complain _) hs.rises).bind fun _ r hr =>
          (later (routine_recover _) hr.rises).bind fun _ t ht =>
            (later (routine_got _) ht.rises).bind fun _ u hu => rest (hs.later (hr.trans (ht.trans hu)))

/-- A statement is laid out between where the rule starts and where it ends. If it is empty, it is at its
separator. -/
theorem lays_stmt? (hp : p.Rises) : Ensures (stmt? (budget + 1)) p fun s? q =>
    Lays [.semi] p (s?.toList.map Stmt.pos) (s?.toList.map .stmt) q := by
  refine .stays_traced hp (keeps_lays _ p _ _) fun q hq => .onHere (.onToken ?_)
  have hsome {m : ParseM Stmt} (hm : Ensures m q fun s r => Lays [] q [s.pos] [.stmt s] r) :
      Ensures (do return some (← m)) q fun s? r =>
        Lays [.semi] p (s?.toList.map Stmt.pos) (s?.toList.map .stmt) r :=
    hm.bind fun s r hs => .pure (.sooner hq.toLater (hs.later (.refl hs.rises)))
  have hsimple (ht : q.token.startsExpr) :
      Ensures (simpleStmt budget) q fun s r => Lays [] q [s.pos] [.stmt s] r :=
    (begins_simpleStmt hq.rises).weaken fun s r ⟨_, hs⟩ => hs ht
  -- A statement without blocks that stands at its keyword, which has been passed.
  have hplain {s : Stmt} {r : Parser} (hne : q.token ≠ .eof) (hs : s.isPlain = true ∧ s.pos = q.here)
      (hr : Clears [.semi] q r) : Lays [.semi] p [s.pos] [.stmt s] r := by
    have hpos : Lays [.semi] q [s.pos] [] r := hs.2 ▸ .here hne hr
    refine .sooner hq.toLater (hpos.nodes fun _ n hn => ?_)
    rw [List.mem_singleton.mp hn]
    exact Node.IsPlain.each_inOrder hs.1
  split
  -- What starts an expression is left to the rule for simple statements.
  case h_1 ht | h_2 ht | h_3 ht | h_4 ht | h_5 ht | h_6 ht => exact hsome (hsimple (by rw [ht]; rfl))
  case h_7 ht => exact hsome (lays_declStmt (.inl rfl) hq.rises (by rw [ht]; exact Token.noConfusion))
  case h_8 ht => exact hsome (lays_declStmt (.inr rfl) hq.rises (by rw [ht]; exact Token.noConfusion))
  case h_9 ht =>
    refine (h.block none q hq.rises).bind fun b r ⟨_, hb⟩ => .pure ?_
    exact .sooner hq.toLater (Parser.Lays.node (n := .stmt (.block b))
      ((hb ht).later (.refl (hb ht).rises)) fun _ => trivial)
  case h_10 ht => exact hsome (h.forStmt q hq.rises ht)
  case h_11 ht => exact hsome (h.whileStmt q hq.rises ht)
  case h_12 ht => exact hsome (h.ifStmt q hq.rises ht)
  -- A `return` or `break` is passed with its keyword, even if nothing comes after it.
  case h_13 ht =>
    have hne : q.token ≠ .eof := by rw [ht]; exact Token.noConfusion
    refine (clears_next hq.rises).bind fun _ r hr => .onToken ?_
    split
    · exact .pure (hplain hne ⟨rfl, rfl⟩ hr.weaken)
    · exact (later (routine_expr _) hr.rises).bind fun x s hs =>
        .pure (hplain hne ⟨rfl, rfl⟩ (hr.later hs).weaken)
  case h_14 ht =>
    have hne : q.token ≠ .eof := by rw [ht]; exact Token.noConfusion
    exact (clears_next hq.rises).bind fun _ r hr => .pure (hplain hne ⟨rfl, rfl⟩ hr.weaken)
  -- An empty statement stands at the separator that it is left at.
  case h_15 ht =>
    have hne : q.token ≠ .eof := by rw [ht]; exact Token.noConfusion
    exact .pure (hplain hne ⟨rfl, rfl⟩ (.of_mem (.refl hq.rises) (by rw [ht]; exact List.mem_singleton_self _)))
  case h_16 => exact .pure (.nil hq.toLater)

/-- An `if` starts at its keyword, with its blocks in order. -/
theorem begins_ifStmt : BeginsStmt .ifWord (ifStmt (budget + 1)) := by
  refine fun p hp ht => .stays_traced hp (keeps_lays [] p _ _) fun q hq => .onHere ?_
  have hqt : q.token = .keyword .ifWord := hq.token_eq.trans ht
  have hne : q.token ≠ .eof := by rw [hqt]; exact Token.noConfusion
  refine (opens_clause .ifClause hq.rises).bind fun clause r hclause =>
    (h.block _ r hclause.rises).bind fun b s ⟨hb, _⟩ =>
      (h.elseBranch s hb.rises).bind fun else? t helse => .pure ?_
  -- The branches are in order each, and the position of the whole is where the keyword was.
  have hparts : Lays [] r [] (.block b :: else?.toList.map .stmt) t := hb.append helse
  have hpos : Lays [] q [q.here] [] t := .here hne ((hclause.clears hqt).later hparts.toLater)
  refine .sooner hq.toLater (hpos.nodes fun hs n hn => ?_)
  rw [List.mem_singleton.mp hn]
  refine Node.each_iff.mpr ⟨trivial, fun m hm => ?_⟩
  simp only [Node.parts, List.mem_append, List.mem_cons, List.not_mem_nil, or_false] at hm
  rcases hm with (hm | rfl | rfl) | hm
  · exact hclause.init.each_inOrder hm
  · exact Node.IsPlain.each_inOrder trivial
  · exact hparts.inOrder hs _ List.mem_cons_self
  · exact hparts.inOrder hs m (List.mem_cons_of_mem _ hm)

/-- What is behind `else` is in order. -/
theorem lays_elseBranch (hp : p.Rises) : Ensures (elseBranch (budget + 1)) p fun s? q =>
    Lays [] p [] (s?.toList.map .stmt) q := by
  refine .clears_got hp (fun q _ hq => .onToken ?_) fun _ => .pure (.nil (.refl hp))
  split
  · next ht =>
    refine (h.ifStmt q hq.rises ht).bind fun s r hs => .pure ?_
    exact .sooner hq.toLater (hs.only (List.nil_sublist _))
  · refine (h.block none q hq.rises).bind fun b r ⟨hb, _⟩ => .pure ?_
    exact .sooner hq.toLater (Parser.Lays.node (n := .stmt (.block b)) hb fun _ => trivial)
  · exact (later (routine_complain _) hq.rises).bind fun _ r hr =>
      (later (routine_recover _) hr.rises).bind fun _ s hs =>
        .pure (.nil (hq.toLater.trans (hr.trans hs)))

/-- A `while` starts at its keyword, with its block in order. -/
theorem begins_whileStmt : BeginsStmt .whileWord (whileStmt (budget + 1)) := by
  refine fun p hp ht => .stays_traced hp (keeps_lays [] p _ _) fun q hq => .onHere ?_
  have hne : q.token ≠ .eof := by rw [hq.token_eq, ht]; exact Token.noConfusion
  refine (clears_next hq.rises).bind fun _ r hr => .onToken ?_
  have rest {cond : Expr} {s : Parser} (hs : r.Later s) : Ensures (do
      return Stmt.whileStmt q.here cond (← block (some .whileClause) budget)) s
        fun s t => Lays [] p [s.pos] [.stmt s] t := by
    refine (h.block _ s hs.rises).bind fun b t ⟨hb, _⟩ => .pure ?_
    have hpos : Lays [] q [q.here] [] t := .here hne (hr.later (hs.trans hb.toLater))
    refine .sooner hq.toLater (Parser.Lays.node (n := .stmt (.whileStmt q.here cond b))
      (hpos.nodes fun hlive m hm => ?_) fun _ => trivial)
    rcases List.mem_cons.mp hm with rfl | hm
    · exact Node.IsPlain.each_inOrder trivial
    · exact hb.inOrder hlive m hm
  split
  · exact (later (routine_complain _) hr.rises).bind fun _ s hs => .onHole (rest hs)
  · exact (later (routine_expr _) hr.rises).bind fun cond s hs => rest hs

/-- A `for` starts at its keyword, with its block in order. -/
theorem begins_forStmt : BeginsStmt .forWord (forStmt (budget + 1)) := by
  refine fun p hp ht => .stays_traced hp (keeps_lays [] p _ _) fun q hq => .onHere ?_
  have hqt : q.token = .keyword .forWord := hq.token_eq.trans ht
  have hne : q.token ≠ .eof := by rw [hqt]; exact Token.noConfusion
  refine (opens_clause .forClause hq.rises).bind fun clause r hclause =>
    (h.block _ r hclause.rises).bind fun b s ⟨hb, _⟩ => .pure ?_
  have hpos : Lays [] q [q.here] [] s := .here hne ((hclause.clears hqt).later hb.toLater)
  refine .sooner hq.toLater (hpos.nodes fun hlive n hn => ?_)
  rw [List.mem_singleton.mp hn]
  refine Node.each_iff.mpr ⟨trivial, fun m hm => ?_⟩
  simp only [Node.parts, List.mem_append, List.mem_cons, List.not_mem_nil, or_false] at hm
  rcases hm with ((hm | hm) | hm) | rfl
  · exact hclause.init.each_inOrder hm
  · obtain ⟨x, -, rfl⟩ := List.mem_map.mp hm
    exact Node.IsPlain.each_inOrder trivial
  · exact hclause.post.each_inOrder hm
  · exact hb.inOrder hlive _ List.mem_cons_self

end

/-- The rules for statements lay them out, whatever their budget. -/
theorem laidStmts (budget : Nat) : LaidStmts budget := by
  induction budget with
  | zero => exact laidStmts_zero
  | succ budget ih =>
    exact {
      block := begins_block_succ ih
      stmtList := fun p hp => .stays_traced hp (keeps_lays [] p _ _) fun q hq =>
        (ih.stmts q hq.rises).weaken fun _ _ => .sooner hq.toLater
      stmts := lays_stmts ih
      stmt? := fun _ => lays_stmt? ih
      ifStmt := begins_ifStmt ih
      elseBranch := fun _ => lays_elseBranch ih
      whileStmt := begins_whileStmt ih
      forStmt := begins_forStmt ih }

/-- A block starts where the rule does, whatever the budget. -/
theorem begins_block (after? : Option Construct) (budget : Nat) : BeginsBlock (block after? budget) :=
  (laidStmts budget).block after?

end ParseM

end FrontEnd
