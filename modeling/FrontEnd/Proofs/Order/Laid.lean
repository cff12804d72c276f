import FrontEnd.Proofs.Order.Scans
import FrontEnd.Proofs.Tracing
import FrontEnd.Proofs.Trees.Built

/-!
# What is laid out in order

A tree is in the order of its source (`File.InOrder`) if the declarations of the file, the statements of
every block and the declarations of every declaration statement come one behind the other, and each of
these lists within what holds it.

A parser whose lexemes come one behind the other never goes back (`Parser.Later`), and where it reads on, it
gets behind its lexeme (`Parser.Clears`). What a rule lays out (`Parser.Lays`) is therefore a list of
positions in ascending order that starts where the rule does and that the parser is behind when it is left.
Two such lists make one. The last position may still be that of the current token, where a separator or a
closing token has been left to the rule around.

Runs that are cut short for want of a budget are left out: there, nothing is said of what is laid out.
-/

namespace FrontEnd

/-- The positions are at places one behind the other. -/
def Ascending (ps : List Pos) : Prop := ps.Pairwise fun pos pos' => pos.place < pos'.place

namespace Node

/-- The statements of a block and the declarations of a declaration statement come one behind the other,
the first not before the node and the last of a block not after its closing brace. -/
def InOrder : Node → Prop
  | .block b => Ascending (b.stmts.map Stmt.pos) ∧
      ∀ s ∈ b.stmts, b.pos.place ≤ s.pos.place ∧ s.pos.place ≤ b.rbrace.place
  | .stmt (.decls pos ds) => Ascending (ds.map Decl.pos) ∧ ∀ d ∈ ds, pos.place ≤ d.pos.place
  | _ => True

end Node

/-- Whether the statement holds neither a block nor declarations. -/
def Stmt.isPlain : Stmt → Bool
  | .returnStmt .. | .breakStmt .. | .empty .. | .expr .. | .assign .. | .incDec .. | .define .. => true
  | .block .. | .ifStmt .. | .whileStmt .. | .forStmt .. | .decls .. => false

/-- Whether there can be no block in what is declared. -/
def Spec.isPlain : Spec → Bool
  | .importSpec .. | .typeSpec .. | .varSpec .. => true
  | .funcSpec .. | .operSpec .. => false

namespace Node

/-- There are neither blocks nor declaration statements in the node. -/
def IsPlain : Node → Prop
  | .decl d => d.spec.isPlain = true
  | .spec s => s.isPlain = true
  | .stmt s => s.isPlain = true
  | .block _ => False
  | .param _ | .expr _ | .type _ | .ident _ | .literal _ => True

variable {m n : Node}

/-- What is plain is made of what is plain. -/
theorem IsPlain.part (h : n.IsPlain) (hm : m ∈ n.parts) : m.IsPlain := by
  have hall (ns : List Node) (hns : ∀ n ∈ ns, n.IsPlain) (hm : m ∈ ns) : m.IsPlain := hns m hm
  cases n with
  | decl d =>
    rw [List.mem_singleton.mp hm]
    exact h
  | block => exact h.elim
  | ident | literal => cases hm
  | param => exact hall _ (by simp [parts, IsPlain]) hm
  | spec s =>
    cases s with
    | funcSpec | operSpec => cases h
    | _ => exact hall _ (by simp [parts, IsPlain, or_imp, forall_and]) hm
  | stmt s =>
    cases s with
    | block | ifStmt | whileStmt | forStmt | decls => cases h
    | _ => exact hall _ (by simp [parts, IsPlain]) hm
  | expr x => cases x <;> exact hall _ (by simp [parts, IsPlain]) hm
  | type x => cases x <;> exact hall _ (by simp [parts, IsPlain]) hm

/-- There is nothing to be out of order in what is plain. -/
theorem IsPlain.each_inOrder (h : n.IsPlain) : n.Each InOrder := by
  intro m hm
  induction hm with
  | self =>
    cases m with
    | block => exact h.elim
    | stmt s =>
      cases s with
      | decls => cases h
      | _ => trivial
    | _ => trivial
  | part hp _ ih => exact ih (h.part hp)

end Node

/-- The declarations of the file come one behind the other and behind its position, and what is in them is
in order. -/
structure File.InOrder (f : File) : Prop where
  ascending : Ascending (f.pos :: f.decls.map Decl.pos)
  each : f.Each Node.InOrder

namespace Parser

/-! ## Never back -/

/-- The place of the current lexeme. -/
def place (p : Parser) : Place := p.current.place

/-- A parser that goes on after a complaint, with its lexemes one behind the other up to the end. -/
structure Rises (p : Parser) : Prop where
  tolerant : p.tolerant = true
  ends : p.Ends
  rising : Rising p.current p.upcoming

/-- The second parser is not before the first, whatever functions they are in. -/
structure Ascends (p q : Parser) : Prop where
  rises : q.Rises
  place_le : p.place ≤ q.place
  ended : p.token = .eof → q.token = .eof
  starved : p.starved = true → q.starved = true

/-- The second parser is not before the first, and in as many functions. -/
structure Later (p q : Parser) : Prop extends p.Ascends q where
  functions : q.functions = p.functions

/-- Likewise, and it is behind the first or at the end of the input or at one of some tokens. -/
structure Clears (ts : List Token) (p q : Parser) : Prop extends p.Later q where
  place_lt : p.place < q.place ∨ q.token = .eof ∨ q.token ∈ ts

/-- The second parser is at the same lexeme as the first. -/
structure Stays (p q : Parser) : Prop extends p.Later q where
  token_eq : q.token = p.token
  here_eq : q.here = p.here

section

variable {p q r : Parser} {ts : List Token}

/-- A parser that goes on is at its current lexeme. -/
theorem Rises.token_eq (h : p.Rises) : p.token = p.current.token := by
  unfold Parser.token aborted
  rw [h.tolerant]
  rfl

namespace Ascends

/-- No parser is before itself. -/
theorem refl (hp : p.Rises) : p.Ascends p := ⟨hp, le_refl _, id, id⟩

/-- What comes behind what comes behind comes behind. -/
theorem trans (h : p.Ascends q) (h' : q.Ascends r) : p.Ascends r where
  rises := h'.rises
  place_le := le_trans h.place_le h'.place_le
  ended he := h'.ended (h.ended he)
  starved hs := h'.starved (h.starved hs)

/-- What neither reads nor is put out of tolerance is where it was. -/
theorem of_same (hp : p.Rises) (hcurrent : q.current = p.current) (hupcoming : q.upcoming = p.upcoming)
    (htolerant : q.tolerant = true) (hstarved : p.starved = true → q.starved = true) : p.Ascends q := by
  have hq : q.Rises := by
    refine ⟨htolerant, ?_, ?_⟩
    · unfold Ends
      rw [hcurrent, hupcoming]
      exact hp.ends
    · rw [hcurrent, hupcoming]
      exact hp.rising
  refine ⟨hq, le_of_eq (congrArg Lexeme.place hcurrent.symm), fun he => ?_, hstarved⟩
  rw [hq.token_eq, hcurrent, ← hp.token_eq, he]

/-- A parser that lingers comes behind. -/
theorem ofLingers (hp : p.Rises) (h : p.Lingers q) (htolerant : q.tolerant = true) : p.Ascends q :=
  of_same hp h.current h.upcoming htolerant fun hs => h.starved.trans hs

/-- Reading on gets behind the current lexeme, or to the end. -/
theorem next (hp : p.Rises) : p.Ascends p.next ∧ (p.place < p.next.place ∨ p.next.token = .eof) := by
  -- At the end `next` stays; before it the next scan is heard, whose place comes later by `Rising`.
  by_cases ht : p.token = .eof
  · rw [hp.ends.next_of_eof ht]
    exact ⟨refl hp, .inr ht⟩
  · have htolerant := (lasting_tolerant true).next hp.tolerant
    have hreaches := hp.ends.reaches_next
    rcases p.next_cases with hsame | ⟨scan, rest, hu, hnext⟩
    · have := hp.ends.left_next_lt ht
      rw [hsame] at this
      exact absurd this (Nat.lt_irrefl _)
    · have hlingers := Lingers.foldl_hear scan.reports { p with current := scan.lexeme, upcoming := rest }
      rw [← hnext] at hlingers
      obtain ⟨hprecedes, hrising⟩ : p.current.Precedes scan.lexeme ∧ Rising scan.lexeme rest := by
        have hrising := hp.rising
        rw [hu] at hrising
        exact hrising
      have hq : p.next.Rises := by
        refine ⟨htolerant, hreaches.ends, ?_⟩
        rw [hlingers.current, hlingers.upcoming]
        exact hrising
      have hplace : p.next.place = scan.lexeme.place := congrArg Lexeme.place hlingers.current
      refine ⟨⟨hq, ?_, fun he => absurd he ht, fun hs => hreaches.starved.trans hs⟩, ?_⟩
      · rw [hplace]
        rcases hprecedes with hlt | ⟨-, hle⟩
        · exact le_of_lt hlt
        · exact hle
      · rw [hplace]
        rcases hprecedes with hlt | ⟨heof, -⟩
        · exact .inl hlt
        · refine .inr ?_
          rw [hq.token_eq, hlingers.current]
          exact heof

/-- No move goes back. -/
theorem move (a : Move) (hp : p.Rises) : p.Ascends (a.apply p) := by
  have htolerant : (a.apply p).tolerant = true := (lasting_tolerant true).move a hp.tolerant
  cases a with
  | next => exact (next hp).1
  | complain c => exact ofLingers hp (.complainAt p _ c) htolerant
  | lookBack pos c => exact ofLingers hp (.complainAt p pos c) htolerant
  | trace note => exact ofLingers hp (.trace p note) htolerant
  | enter rule =>
    have hlingers := Lingers.trace p (.enter rule)
    exact of_same hp hlingers.current hlingers.upcoming htolerant fun hs => hlingers.starved.trans hs
  | leave =>
    have hlingers := Lingers.trace { p with openRules := p.openRules - 1 } .leave
    exact of_same hp hlingers.current hlingers.upcoming htolerant fun hs => hlingers.starved.trans hs
  | enterFunction => exact of_same hp rfl rfl htolerant id
  | leaveFunction => exact of_same hp rfl rfl htolerant id
  | newGroup => exact of_same hp rfl rfl htolerant id
  | starve => exact of_same hp rfl rfl htolerant fun _ => rfl

end Ascends

namespace Later

/-- No parser is before itself. -/
theorem refl (hp : p.Rises) : p.Later p := ⟨.refl hp, rfl⟩

/-- Later than later is later. -/
theorem trans (h : p.Later q) (h' : q.Later r) : p.Later r :=
  ⟨h.toAscends.trans h'.toAscends, h'.functions.trans h.functions⟩

/-- No rule goes back. -/
theorem run {α : Type} {m : ParseM α} (hm : Routine m) (hp : p.Rises) : p.Later (m.run p).2 where
  toAscends := hm.preserves (P := p.Ascends) (fun a _ h => h.trans (.move a h.rises)) (.refl hp)
  functions := (hm.restores p).functions

/-- Where a later parser is not at the end of the input, the first was not. -/
theorem token_ne (h : p.Later q) (hq : q.token ≠ .eof) : p.token ≠ .eof := fun hp => hq (h.ended hp)

/-- What a parser is behind, a later one is behind, unless both are at the end. -/
theorem place_lt (h : q.Later r) {a : Place} (ha : a < q.place ∨ q.token = .eof ∨ q.token ∈ []) :
    a < r.place ∨ r.token = .eof ∨ r.token ∈ ts := by
  rcases ha with hlt | he | hnone
  · exact .inl (lt_of_lt_of_le hlt h.place_le)
  · exact .inr (.inl (h.ended he))
  · cases hnone

end Later

/-- What a parser is behind or at is so for one at the same lexeme. -/
theorem Stays.place_lt (h : q.Stays r) {a : Place} (ha : a < q.place ∨ q.token = .eof ∨ q.token ∈ ts) :
    a < r.place ∨ r.token = .eof ∨ r.token ∈ ts := by
  rcases ha with hlt | he | hmem
  · exact .inl (lt_of_lt_of_le hlt h.place_le)
  · exact .inr (.inl (h.ended he))
  · exact .inr (.inr (h.token_eq ▸ hmem))

namespace Clears

/-- What is cleared later on has been cleared from before. -/
theorem sooner (h : p.Later q) (h' : Clears ts q r) : Clears ts p r where
  toLater := h.trans h'.toLater
  place_lt := h'.place_lt.imp_left (lt_of_le_of_lt h.place_le)

/-- What has been cleared stays so. -/
theorem later (h : Clears [] p q) (h' : q.Later r) : Clears [] p r where
  toLater := h.toLater.trans h'
  place_lt := h'.place_lt h.place_lt

/-- At one of the tokens, nothing more is asked. -/
theorem of_mem (h : p.Later q) (ht : q.token ∈ ts) : Clears ts p q := ⟨h, .inr (.inr ht)⟩

/-- What clears a position clears it unless at some tokens. -/
theorem weaken (h : Clears [] p q) : Clears ts p q :=
  ⟨h.toLater, h.place_lt.imp_right fun h => .inl (h.resolve_right List.not_mem_nil)⟩

/-- The next lexeme clears the current one. -/
theorem next (hp : p.Rises) : Clears [] p p.next where
  toLater := ⟨(Ascends.next hp).1, hp.ends.reaches_next.functions⟩
  place_lt := (Ascends.next hp).2.imp_right .inl

end Clears

namespace Stays

/-- Every parser is at its own lexeme. -/
theorem refl (hp : p.Rises) : p.Stays p := ⟨.refl hp, rfl, rfl⟩

/-- Staying twice is staying. -/
theorem trans (h : p.Stays q) (h' : q.Stays r) : p.Stays r :=
  ⟨h.toLater.trans h'.toLater, h'.token_eq.trans h.token_eq, h'.here_eq.trans h.here_eq⟩

/-- A parser with the same lexeme, base and functions stays. -/
theorem of_same (hp : p.Rises) (h : p.Ascends q) (hcurrent : q.current = p.current)
    (hbase : q.base = p.base) (hfunctions : q.functions = p.functions) : p.Stays q where
  toAscends := h
  functions := hfunctions
  token_eq := by rw [hp.token_eq, h.rises.token_eq, hcurrent]
  here_eq := by
    unfold here posAt
    rw [hcurrent, hbase]

/-- A line of the trace does not go on. -/
theorem trace (hp : p.Rises) (note : TraceNote) : p.Stays (p.trace note) :=
  of_same hp (.move (.trace note) hp) (Lingers.trace p note).current (base_trace p note)
    (Lingers.trace p note).functions

/-- Tracing the start of a rule does not go on. -/
theorem enter (hp : p.Rises) (rule : Rule) : p.Stays (Move.apply (.enter rule) p) :=
  of_same hp (.move (.enter rule) hp) (Lingers.trace p _).current (base_trace p _)
    (Lingers.trace p _).functions

/-- Tracing the end of a rule does not go on. -/
theorem leave (hp : p.Rises) : p.Stays (Move.apply .leave p) :=
  of_same hp (.move .leave hp) (Lingers.trace { p with openRules := p.openRules - 1 } .leave).current
    (base_trace _ .leave) (Lingers.trace { p with openRules := p.openRules - 1 } .leave).functions

/-- A complaint does not go on. -/
theorem complainAt (hp : p.Rises) (pos : Pos) (c : Complaint) : p.Stays (p.complainAt pos c) := by
  have hlingers := Lingers.complainAt p pos c
  have hbase : (p.complainAt pos c).base = p.base := by
    rcases p.complainAt_cases pos c with ⟨-, -, h⟩ | h
    · rw [h, base_trace]
    · rw [h]
      exact base_trace p _
  have hascends : p.Ascends (p.complainAt pos c) :=
    .ofLingers hp hlingers ((lasting_tolerant true).complainAt hp.tolerant pos c)
  exact of_same hp hascends hlingers.current hbase hlingers.functions

end Stays

/-- What has been cleared is so where the parser stays. -/
theorem Clears.stays (h : Clears ts p q) (h' : q.Stays r) : Clears ts p r where
  toLater := h.toLater.trans h'.toLater
  place_lt := h'.place_lt h.place_lt

/-- A search does not go back. -/
theorem Later.skipTo (hp : p.Rises) (follow : List Token) : p.Later (p.skipTo follow) := by
  -- Every step of the search takes a lexeme, so the induction is on the lexemes left.
  induction hn : p.left using Nat.strongRecOn generalizing p with
  | ind n ih =>
    cases hs : p.isStop follow with
    | true =>
      rw [skipTo_of_isStop hs]
      exact .refl hp
    | false =>
      have hlt := hp.ends.left_next_lt (token_ne_of_isStop hs)
      have hnext := (Clears.next hp).toLater
      rw [hp.ends.skipTo_eq hs]
      exact hnext.trans (ih p.next.left (hn ▸ hlt) hnext.rises rfl)

/-- Recovery that does not end where it starts gets behind the current lexeme. -/
theorem Clears.recover (hp : p.Rises) {follow : List Token} (hfollow : follow ≠ [])
    (hs : p.isStop follow = false) : Clears [] p (p.recover follow) := by
  have htrace := Stays.trace hp
    (.remark ("advance [" ++ ", ".intercalate (follow.map Token.className) ++ "]"))
  unfold Parser.recover
  rw [if_neg (by simpa using hfollow)]
  generalize p.trace _ = q at htrace ⊢
  have hqs : q.isStop follow = false := (isStop_congr htrace.token_eq htrace.functions).trans hs
  have hnext := Clears.next htrace.rises
  rw [htrace.rises.ends.skipTo_eq hqs]
  exact .sooner htrace.toLater (hnext.later (.skipTo hnext.rises follow))

/-- Recovery that ends where it starts stays there. -/
theorem Stays.recover (hp : p.Rises) {follow : List Token} (hfollow : follow ≠ [])
    (hs : p.isStop follow = true) : p.Stays (p.recover follow) := by
  have htrace := Stays.trace hp
    (.remark ("advance [" ++ ", ".intercalate (follow.map Token.className) ++ "]"))
  unfold Parser.recover
  rw [if_neg (by simpa using hfollow)]
  generalize p.trace _ = q at htrace ⊢
  have hqs : q.isStop follow = true := (isStop_congr htrace.token_eq htrace.functions).trans hs
  rw [skipTo_of_isStop hqs]
  exact htrace

/-- With nothing to search for, recovery gets behind the current lexeme. -/
theorem Clears.recover_nil (hp : p.Rises) : Clears [] p (p.recover []) := by
  have htrace := Stays.trace hp
    (.remark ("advance [" ++ ", ".intercalate (([] : List Token).map Token.className) ++ "]"))
  unfold Parser.recover
  dsimp only
  generalize p.trace _ = q at htrace ⊢
  rw [if_pos List.isEmpty_nil]
  split
  · next ht => exact ⟨htrace.toLater, .inr (.inl ht)⟩
  · exact .sooner htrace.toLater (.next htrace.rises)

/-! ## Laid out -/

/-- The position is not before the current token, which is not the end of the input. -/
structure From (p : Parser) (pos : Pos) : Prop where
  token_ne : p.token ≠ .eof
  place_le : p.place ≤ pos.place

/-- The position is behind the parser, or at the current token if that is one of some tokens or the end. -/
structure Behind (ts : List Token) (q : Parser) (pos : Pos) : Prop where
  place_le : pos.place ≤ q.place
  place_lt : pos.place < q.place ∨ q.token = .eof ∨ q.token ∈ ts

/-- On its way from the first parser to the second, a rule has laid out positions in ascending order, and
nodes. -/
structure Lays (ts : List Token) (p : Parser) (ps : List Pos) (ns : List Node) (q : Parser) : Prop extends
    p.Later q where
  ascending : q.starved = false → Ascending ps
  between : q.starved = false → ∀ pos ∈ ps, p.From pos ∧ q.Behind ts pos
  inOrder : q.starved = false → ∀ n ∈ ns, n.Each Node.InOrder

/-- A position behind which a parser has got stays behind. -/
theorem Behind.later {pos : Pos} (h : p.Behind [] pos) (h' : p.Later q) : q.Behind ts pos where
  place_le := le_trans h.place_le h'.place_le
  place_lt := h'.place_lt h.place_lt

/-- A position stays behind, or at the current token, where the parser stays. -/
theorem Behind.stays {pos : Pos} (h : p.Behind ts pos) (h' : p.Stays q) : q.Behind ts pos where
  place_le := le_trans h.place_le h'.place_le
  place_lt := h'.place_lt h.place_lt

/-- A position that may be that of the current token is behind once this has been cleared. -/
theorem Behind.clears {pos : Pos} (h : p.Behind ts pos) (h' : Clears [] p q) : q.Behind [] pos where
  place_le := le_trans h.place_le h'.place_le
  place_lt := h'.place_lt.imp_left (lt_of_le_of_lt h.place_le)

/-- What is not before a later token is not before an earlier one. -/
theorem From.sooner {pos : Pos} (h : p.Later q) (h' : q.From pos) : p.From pos where
  token_ne := h.token_ne h'.token_ne
  place_le := le_trans h.place_le h'.place_le

/-- Where budget is left in the end, it was left before. -/
theorem not_starved (h : p.Later q) (hq : q.starved = false) : p.starved = false := by
  rw [Bool.eq_false_iff] at hq ⊢
  exact fun hp => hq (h.starved hp)

namespace Lays

variable {ps ps' : List Pos} {ns ms : List Node} {pos : Pos}

/-- Nothing is said of what is laid out once the budget has run out. -/
theorem of_starved (h : p.Later q) (hq : q.starved = true) : Lays ts p ps ns q := by
  have hnot : q.starved ≠ false := by
    rw [hq]
    exact Bool.noConfusion
  exact ⟨h, fun hs => absurd hs hnot, fun hs => absurd hs hnot, fun hs => absurd hs hnot⟩

/-- It is enough to know what has been laid out if the run has not been cut short. -/
theorem of_not_starved (h : p.Later q) (hq : q.starved = false → Lays ts p ps ns q) :
    Lays ts p ps ns q := by
  cases hs : q.starved with
  | true => exact of_starved h hs
  | false => exact hq hs

/-- A rule that goes on without a node lays out nothing. -/
theorem nil (h : p.Later q) : Lays ts p [] [] q :=
  ⟨h, fun _ => .nil, fun _ _ hpos => (List.not_mem_nil hpos).elim, fun _ _ hn => (List.not_mem_nil hn).elim⟩

/-- The position of the current token, once that has been passed. -/
theorem here (ht : p.token ≠ .eof) (h : Clears ts p q) : Lays ts p [p.here] [] q where
  toLater := h.toLater
  ascending _ := List.pairwise_singleton _ _
  between _ pos hpos := by
    rw [List.mem_singleton.mp hpos]
    exact ⟨⟨ht, le_refl _⟩, ⟨h.place_le, h.place_lt⟩⟩
  inOrder _ _ hn := by cases hn

/-- What is laid out first comes before what is laid out from there. -/
theorem append (h : Lays [] p ps ns q) (h' : Lays ts q ps' ms r) :
    Lays ts p (ps ++ ps') (ns ++ ms) r := by
  refine of_not_starved (h.toLater.trans h'.toLater) fun hr => ?_
  have hq := not_starved h'.toLater hr
  constructor
  case toLater => exact h.toLater.trans h'.toLater
  case ascending =>
    -- What the first rule has laid out is behind the parser where the second starts, unless that is at the
    -- end, from where nothing is laid out.
    refine fun _ => List.pairwise_append.mpr ⟨h.ascending hq, h'.ascending hr, fun pos hpos pos' hpos' => ?_⟩
    obtain ⟨-, hbehind⟩ := h.between hq pos hpos
    obtain ⟨hfrom, -⟩ := h'.between hr pos' hpos'
    rcases hbehind.place_lt with hlt | he | hnone
    · exact lt_of_lt_of_le hlt hfrom.place_le
    · exact absurd he hfrom.token_ne
    · cases hnone
  case between =>
    intro _ pos hpos
    rcases List.mem_append.mp hpos with hpos | hpos
    · obtain ⟨hfrom, hbehind⟩ := h.between hq pos hpos
      exact ⟨hfrom, hbehind.later h'.toLater⟩
    · obtain ⟨hfrom, hbehind⟩ := h'.between hr pos hpos
      exact ⟨hfrom.sooner h.toLater, hbehind⟩
  case inOrder =>
    intro _ n hn
    rcases List.mem_append.mp hn with hn | hn
    · exact h.inOrder hq n hn
    · exact h'.inOrder hr n hn

/-- What is laid out later on is laid out from before. -/
theorem sooner (h : p.Later q) (h' : Lays ts q ps ns r) : Lays ts p ps ns r :=
  .append (nil h) h'

/-- What has been laid out is so later on. -/
theorem later (h : Lays [] p ps ns q) (h' : q.Later r) : Lays ts p ps ns r := by
  have hnone : Lays ts q [] [] r := nil h'
  have hboth := h.append hnone
  rwa [List.append_nil, List.append_nil] at hboth

/-- Once the parser has read on, it is behind all positions. -/
theorem clears (h : Lays ts p ps ns q) (h' : Clears [] q r) : Lays [] p ps ns r where
  toLater := h.toLater.trans h'.toLater
  ascending hr := h.ascending (not_starved h'.toLater hr)
  between hr pos hpos :=
    have ⟨hfrom, hbehind⟩ := h.between (not_starved h'.toLater hr) pos hpos
    ⟨hfrom, hbehind.clears h'⟩
  inOrder hr := h.inOrder (not_starved h'.toLater hr)

/-- So it is if it is not at one of the tokens. -/
theorem settle (h : Lays ts p ps ns q) (ht : q.token ∉ ts) : Lays [] p ps ns q where
  toLater := h.toLater
  ascending := h.ascending
  between hq pos hpos :=
    have ⟨hfrom, hbehind⟩ := h.between hq pos hpos
    ⟨hfrom, hbehind.place_le, hbehind.place_lt.imp_right fun h => .inl (h.resolve_right ht)⟩
  inOrder := h.inOrder

/-- What has been laid out is so where the parser stays. -/
theorem stays (h : Lays ts p ps ns q) (h' : q.Stays r) : Lays ts p ps ns r where
  toLater := h.toLater.trans h'.toLater
  ascending hr := h.ascending (not_starved h'.toLater hr)
  between hr pos hpos :=
    have ⟨hfrom, hbehind⟩ := h.between (not_starved h'.toLater hr) pos hpos
    ⟨hfrom, hbehind.stays h'⟩
  inOrder hr := h.inOrder (not_starved h'.toLater hr)

/-- What is in order may be taken for what has been laid out. -/
theorem nodes (h : Lays ts p ps ns q) (hms : q.starved = false → ∀ m ∈ ms, m.Each Node.InOrder) :
    Lays ts p ps ms q :=
  ⟨h.toLater, h.ascending, h.between, hms⟩

/-- A node that is itself in order is so with its parts. -/
theorem node {n : Node} (h : Lays ts p ps n.parts q) (hn : q.starved = false → n.InOrder) :
    Lays ts p ps [n] q :=
  h.nodes fun hq m hm => by
    rw [List.mem_singleton.mp hm]
    exact Node.each_iff.mpr ⟨hn hq, h.inOrder hq⟩

/-- Positions may be left out. -/
theorem only (h : Lays ts p ps ns q) (hps : ps'.Sublist ps) : Lays ts p ps' ns q :=
  ⟨h.toLater, fun hq => (h.ascending hq).sublist hps, fun hq pos hpos => h.between hq pos (hps.subset hpos),
    h.inOrder⟩

end Lays

end

end Parser

namespace ParseM

/-- What is in `Q` stays so at the same lexeme. -/
def Keeps {α : Type} (Q : α → Parser → Prop) : Prop :=
  ∀ x q, Q x q → q.Rises ∧ ∀ r, q.Stays r → Q x r

/-- Clearing a lexeme is kept where the parser stays. -/
theorem keeps_clears {α : Type} (ts : List Token) (p : Parser) (P : α → Prop) :
    Keeps fun x q => Parser.Clears ts p q ∧ P x :=
  fun _ _ ⟨h, hP⟩ => ⟨h.rises, fun _ hr => ⟨h.stays hr, hP⟩⟩

/-- What has been laid out is kept where the parser stays. -/
theorem keeps_lays {α : Type} (ts : List Token) (p : Parser) (ps : α → List Pos) (ns : α → List Node) :
    Keeps fun x q => Parser.Lays ts p (ps x) (ns x) q :=
  fun _ _ h => ⟨h.rises, fun _ hr => h.stays hr⟩

namespace Ensures

variable {α β : Type} {m : ParseM α} {f : Bool → ParseM β} {p : Parser} {Q : α → Parser → Prop}
  {R : β → Parser → Prop}

/-- Whatever a rule yields, it does not go back. -/
theorem later (hm : Routine m) (hp : p.Rises) : Ensures m p fun _ q => p.Later q := .run hm hp

/-- Going on clears the current lexeme. -/
theorem clears_next (hp : p.Rises) : Ensures next p fun _ q => Parser.Clears [] p q := .next hp

/-- A complaint stays at the current lexeme. -/
theorem stays_complain (c : Complaint) (hp : p.Rises) : Ensures (complain c) p fun _ q => p.Stays q :=
  .complainAt hp p.here c

/-- Who starves is cut short. -/
theorem of_starve {f : Unit → ParseM β} (hp : p.Rises)
    (hf : ∀ q, p.Later q → q.starved = true → Ensures (f ()) q R) : Ensures (starve >>= f) p R :=
  hf _ (.run routine_starve hp) rfl

/-- A token is taken, and its lexeme cleared, or it is not there. -/
theorem clears_got {t : Token} (hp : p.Rises)
    (hyes : ∀ q, p.token = t → Parser.Clears [] p q → Ensures (f true) q R)
    (hno : p.token ≠ t → Ensures (f false) p R) : Ensures (got t >>= f) p R := by
  unfold Ensures
  rw [run_bind, run_got]
  split
  · next ht => exact hyes _ ht (.next hp)
  · next ht => exact hno ht

/-- Where a token is wanted and there, it is passed. -/
theorem clears_want {t : Token} (hp : p.Rises) :
    Ensures (want t) p fun _ q => p.Later q ∧ (p.token = t → Parser.Clears [] p q) := by
  refine .clears_got hp (fun q _ hq => .pure ⟨hq.toLater, fun _ => hq⟩) fun ht => ?_
  exact (stays_complain _ hp).weaken fun _ q hq => ⟨hq.toLater, fun h => absurd h ht⟩

/-- What a rule ensures is ensured where it has been left. -/
theorem stays_traced {rule : Rule} (hp : p.Rises) (hQ : Keeps Q) (hm : ∀ q, p.Stays q → Ensures m q Q) :
    Ensures (ParseM.traced rule m) p Q := by
  obtain ⟨hrises, hkeeps⟩ := hQ _ _ (hm _ (.enter hp rule))
  exact hkeeps _ (.leave hrises)

end Ensures

end ParseM

end FrontEnd
