import FrontEnd.Proofs.Grammar.Calm
import FrontEnd.Proofs.Termination.Reach
import FrontEnd.Proofs.Trees.Groups
import FrontEnd.Proofs.Trees.Sound

/-!
# What a run makes

A run of a rule leads a parser on (`Parser.Leads`): groups get further numbers, and what has been said
has been said. What was sound once stays so (`Parser.Sound`). A rule yields nodes that are sound where
it ends (`Parser.Yields`), and if there may be declarations in them, these are clustered by the groups
that are new (`Parser.Builds`). Both can be put together in the order of the source.

`Ensures` states what a run of an action at a parser comes to, and follows the action step by step.
-/

namespace FrontEnd

namespace Parser

/-- A parser that makes sound nodes: it goes on after a complaint, its tokens carry what their classes
say, and it gets to their end. -/
structure Fit (p : Parser) : Prop where
  tolerant : p.tolerant = true
  ends : p.Ends
  current : p.current.Apt
  upcoming : ∀ scan ∈ p.upcoming, scan.lexeme.Apt

/-- The parser is at the end of the input, which is at `e`, and has complained. -/
structure Over (e : Pos) (p : Parser) : Prop where
  upcoming : p.upcoming = []
  here : p.here = e
  said : p.HasSaid

/-- Every run leads from the first parser to one like the second. -/
structure Leads (p q : Parser) : Prop where
  fit : q.Fit
  groups_le : p.groups ≤ q.groups
  starved : p.starved = true → q.starved = true
  log : ∀ e ∈ p.log, e ∈ q.log
  ended : ∀ e, p.Over e → q.Over e

section

variable {p q r : Parser}

namespace Leads

/-- A parser that makes sound nodes leads to itself. -/
theorem refl (hp : p.Fit) : p.Leads p := ⟨hp, Nat.le_refl _, id, fun _ => id, fun _ => id⟩

/-- What one parser leads to leads on from there. -/
theorem trans (h : p.Leads q) (h' : q.Leads r) : p.Leads r where
  fit := h'.fit
  groups_le := Nat.le_trans h.groups_le h'.groups_le
  starved hs := h'.starved (h.starved hs)
  log e he := h'.log e (h.log e he)
  ended e he := h'.ended e (h.ended e he)

/-- What neither reads nor changes where the parser is leads on. -/
theorem ofLingers (hp : p.Fit) (h : p.Lingers q) (htolerant : q.tolerant = true)
    (hbase : q.base = p.base) (hgroups : p.groups ≤ q.groups) (hlog : ∀ e ∈ p.log, e ∈ q.log)
    (hsaid : p.HasSaid → q.HasSaid) : p.Leads q where
  fit := ⟨htolerant, (h.reaches hp.ends).ends, h.current ▸ hp.current, h.upcoming ▸ hp.upcoming⟩
  groups_le := hgroups
  starved hs := h.starved.trans hs
  log := hlog
  ended e he := by
    refine ⟨h.upcoming.trans he.upcoming, ?_, hsaid he.said⟩
    rw [← he.here]
    unfold here posAt
    rw [h.current, hbase]

end Leads

/-- What has happened stays in the log. -/
theorem lasting_log (e : Event) : Lasting (fun p => e ∈ p.log) where
  diagnose := by
    intro p pos cause _ h
    unfold diagnose
    dsimp only
    split
    · exact Array.mem_push_of_mem _ h
    · exact h
  trace := by
    intro p note h
    unfold trace
    split
    · exact Array.mem_push_of_mem _ h
    · exact h
  go _ _ _ h := h
  keepBooks _ _ _ _ h := h

/-- Tracing numbers no groups. -/
theorem groups_trace (p : Parser) (note : TraceNote) : (p.trace note).groups = p.groups := by
  unfold trace
  split <;> rfl

/-- Tracing keeps the base. -/
theorem base_trace (p : Parser) (note : TraceNote) : (p.trace note).base = p.base := by
  unfold trace
  split <;> rfl

/-- Hearing of what happened under way numbers no groups. -/
theorem groups_foldl_hear (reports : List Report) (p : Parser) :
    (reports.foldl hear p).groups = p.groups := by
  induction reports generalizing p with
  | nil => rfl
  | cons r rest ih =>
    rw [List.foldl_cons, ih]
    unfold hear direct
    split
    · rfl
    · split
      · rfl
      · split
        · rfl
        · split <;> rfl

/-- The next lexeme is that of the next scan, if there is one and the parser has not been finished. -/
theorem next_cases (p : Parser) : p.next = p ∨ ∃ scan rest, p.upcoming = scan :: rest ∧
    p.next = scan.reports.foldl hear { p with current := scan.lexeme, upcoming := rest } := by
  unfold next
  split
  · exact .inl rfl
  · split
    · exact .inl rfl
    · next scan rest hu => exact .inr ⟨scan, rest, hu, rfl⟩

/-- Reading on, all tokens still carry what their classes say. -/
theorem apt_next (hcurrent : p.current.Apt) (hupcoming : ∀ scan ∈ p.upcoming, scan.lexeme.Apt) :
    p.next.current.Apt ∧ ∀ scan ∈ p.next.upcoming, scan.lexeme.Apt := by
  rcases p.next_cases with h | ⟨scan, rest, hu, h⟩
  · rw [h]
    exact ⟨hcurrent, hupcoming⟩
  · have hlingers := Lingers.foldl_hear scan.reports { p with current := scan.lexeme, upcoming := rest }
    rw [hu, List.forall_mem_cons] at hupcoming
    rw [h, hlingers.current, hlingers.upcoming]
    exact hupcoming

/-- A complaint is held back at the end of the input when something has been said before; otherwise it is
told. -/
theorem complainAt_cases (p : Parser) (pos : Pos) (c : Complaint) :
    (p.trace (.remark ("syntax error: " ++ c.words))).token = .eof ∧ p.HasSaid ∧
        p.complainAt pos c = p.trace (.remark ("syntax error: " ++ c.words)) ∨
      p.complainAt pos c = (p.trace (.remark ("syntax error: " ++ c.words))).diagnose pos
        (.syntactic c (p.trace (.remark ("syntax error: " ++ c.words))).current.describe) := by
  unfold complainAt
  dsimp only
  split
  · next h =>
    rw [Bool.and_eq_true, decide_eq_true_eq, first?_trace] at h
    exact .inl ⟨h.1, h.2, rfl⟩
  · exact .inr rfl

namespace Leads

/-- A line of the trace leads on. -/
theorem trace (hp : p.Fit) (note : TraceNote) : p.Leads (p.trace note) :=
  ofLingers hp (.trace p note) ((lasting_tolerant true).trace note hp.tolerant) (base_trace p note)
    (Nat.le_of_eq (groups_trace p note).symm) (fun e => (lasting_log e).trace note)
    (lasting_hasSaid.trace note)

/-- A complaint leads on. -/
theorem complainAt (hp : p.Fit) (pos : Pos) (c : Complaint) : p.Leads (p.complainAt pos c) := by
  have hsame : (p.complainAt pos c).base = p.base ∧ (p.complainAt pos c).groups = p.groups := by
    rcases p.complainAt_cases pos c with ⟨-, -, h⟩ | h <;> rw [h]
    · exact ⟨base_trace p _, groups_trace p _⟩
    · exact ⟨base_trace p _, groups_trace p _⟩
  exact ofLingers hp (.complainAt p pos c) ((lasting_tolerant true).complainAt hp.tolerant pos c)
    hsame.1 (Nat.le_of_eq hsame.2.symm) (fun e he => (lasting_log e).complainAt he pos c)
    fun hs => lasting_hasSaid.complainAt hs pos c

/-- What keeps to the books leads on. -/
theorem keepBooks (hp : p.Fit) (functions openRules : Nat) {groups : Nat} {starved : Bool}
    (hgroups : p.groups ≤ groups) (hstarved : p.starved = true → starved = true) :
    p.Leads { p with functions, openRules, groups, starved } where
  fit := ⟨hp.tolerant, hp.ends, hp.current, hp.upcoming⟩
  groups_le := hgroups
  starved := hstarved
  log _ he := he
  ended _ he := ⟨he.upcoming, he.here, he.said⟩

/-- Going on to the next lexeme leads on. -/
theorem next (hp : p.Fit) : p.Leads p.next := by
  have hends := hp.ends.reaches_next
  obtain ⟨hcurrent, hupcoming⟩ := apt_next hp.current hp.upcoming
  rcases p.next_cases with h | ⟨scan, rest, hu, h⟩
  · rw [h]
    exact refl hp
  · refine ⟨⟨(lasting_tolerant true).next hp.tolerant, hends.ends, hcurrent, hupcoming⟩, ?_,
      fun hs => hends.starved.trans hs, fun e he => (lasting_log e).next he, fun e he => ?_⟩
    · exact Nat.le_of_eq (by rw [h, groups_foldl_hear])
    · -- At the end there is nothing to read on to.
      have := he.upcoming
      rw [hu] at this
      cases this

/-- Every move leads on. -/
theorem move (a : Move) (hp : p.Fit) : p.Leads (a.apply p) := by
  cases a with
  | next => exact next hp
  | complain c => exact complainAt hp p.here c
  | lookBack pos c => exact complainAt hp pos c
  | trace note => exact trace hp note
  | enter rule =>
    have h := trace hp (.enter rule)
    exact h.trans (keepBooks h.fit _ _ (Nat.le_refl _) id)
  | leave =>
    have h := keepBooks hp p.functions (p.openRules - 1) (Nat.le_refl _) id
    exact h.trans (trace h.fit .leave)
  | enterFunction => exact keepBooks hp _ _ (Nat.le_refl _) id
  | leaveFunction => exact keepBooks hp _ _ (Nat.le_refl _) id
  | newGroup => exact keepBooks hp _ _ (Nat.le_succ _) id
  | starve => exact keepBooks hp _ _ (Nat.le_refl _) fun _ => rfl

/-- Every run of a rule leads on. -/
theorem run {α : Type} {m : ParseM α} (hm : Routine m) (hp : p.Fit) : p.Leads (m.run p).2 :=
  hm.preserves (P := p.Leads) (fun a _ h => h.trans (move a h.fit)) (refl hp)

end Leads

/-! ## Sound nodes -/

/-- The definition at `pos` in the clause of a `for` has been complained about; or the input ends right
after it, at `e`, and something else has been complained about before. -/
def Excuses (p : Parser) (pos e : Pos) : Prop :=
  (∃ found, .diagnostic ⟨pos, .syntactic .declarationInPost found⟩ ∈ p.log) ∨ p.Over e

/-- What is excused stays excused. -/
theorem Excuses.mono {pos e : Pos} (h : p.Excuses pos e) (hpq : p.Leads q) : q.Excuses pos e :=
  h.imp (fun ⟨found, hlog⟩ => ⟨found, hpq.log _ hlog⟩) (hpq.ended e)

/-- The node is sound for all that has happened. -/
def Sound (p : Parser) (n : Node) : Prop := n.Each (Node.Sound (p.starved = true) p.Excuses)

/-- What is sound stays sound. -/
theorem Sound.mono {n : Node} (h : p.Sound n) (hpq : p.Leads q) : q.Sound n :=
  Node.Each.mono h fun _ hm => hm.mono hpq.starved fun _ _ he => he.mono hpq

/-- A node is sound if it is by itself and its parts are. -/
theorem Sound.mk {n : Node} (h : n.Sound (p.starved = true) p.Excuses) (hparts : ∀ m ∈ n.parts, p.Sound m) :
    p.Sound n := Node.each_iff.mpr ⟨h, hparts⟩

/-- The second parser comes after the first, and the nodes are sound there. -/
structure Yields (p : Parser) (ns : List Node) (q : Parser) : Prop where
  leads : p.Leads q
  sound : ∀ n ∈ ns, q.Sound n

namespace Yields

variable {ns ms : List Node} {n : Node}

/-- Where a rule yields no nodes, all of them are sound. -/
theorem nil (h : p.Leads q) : p.Yields [] q := ⟨h, fun _ hn => by cases hn⟩

/-- What is yielded first and what is yielded from there. -/
theorem append (h : p.Yields ns q) (h' : q.Yields ms r) : p.Yields (ns ++ ms) r where
  leads := h.leads.trans h'.leads
  sound n hn := by
    rcases List.mem_append.mp hn with hn | hn
    · exact (h.sound n hn).mono h'.leads
    · exact h'.sound n hn

/-- What has been yielded stays sound. -/
theorem later (h : p.Yields ns q) (h' : q.Leads r) : p.Yields ns r :=
  ⟨h.leads.trans h', fun n hn => (h.sound n hn).mono h'⟩

/-- What is yielded later on is yielded from before. -/
theorem sooner (h : p.Leads q) (h' : q.Yields ns r) : p.Yields ns r := ⟨h.trans h'.leads, h'.sound⟩

/-- A node is yielded with its parts. -/
theorem node (h : p.Yields n.parts q) (hn : n.Sound (q.starved = true) q.Excuses) : p.Yields [n] q where
  leads := h.leads
  sound m hm := by
    rw [List.mem_singleton.mp hm]
    exact .mk hn h.sound

/-- Some of the nodes that are yielded. -/
theorem of_subset (h : p.Yields ns q) (hms : ∀ m ∈ ms, m ∈ ns) : p.Yields ms q :=
  ⟨h.leads, fun m hm => h.sound m (hms m hm)⟩

end Yields

/-- Likewise, and the declarations in the nodes, at any depth, are clustered by new groups. -/
structure Builds (p : Parser) (ns : List Node) (q : Parser) : Prop extends p.Yields ns q where
  clustered : Clustered p.groups (ns.flatMap Node.decls) q.groups

/-- Nodes without declarations are clustered. -/
theorem Yields.builds {ns : List Node} (h : p.Yields ns q) (hns : ns.flatMap Node.decls = []) :
    p.Builds ns q where
  toYields := h
  clustered := by
    rw [hns]
    exact .nil h.leads.groups_le

namespace Builds

variable {ns ms : List Node} {n : Node}

/-- What is built first and what is built from there. The groups in the two are different ones, since the later
ones have further numbers. -/
theorem append (h : p.Builds ns q) (h' : q.Builds ms r) : p.Builds (ns ++ ms) r where
  toYields := h.toYields.append h'.toYields
  clustered := by
    rw [List.flatMap_append]
    exact h.clustered.append h'.clustered

/-- What has been built stays so. -/
theorem later (h : p.Builds ns q) (h' : q.Leads r) : p.Builds ns r where
  toYields := h.toYields.later h'
  clustered := by
    have := h.clustered.append (.nil h'.groups_le)
    rwa [List.append_nil] at this

/-- What is built later on is built from before. -/
theorem sooner (h : p.Leads q) (h' : q.Builds ns r) : p.Builds ns r where
  toYields := .sooner h h'.toYields
  clustered := h'.clustered.weaken_left h.groups_le

/-- A node that is no declaration is built with its parts. -/
theorem node (h : p.Builds n.parts q) (hn : n.Sound (q.starved = true) q.Excuses)
    (hdecl : ∀ d, n ≠ .decl d) : p.Builds [n] q where
  toYields := h.toYields.node hn
  clustered := by
    rw [List.flatMap_singleton, Node.decls_eq hdecl]
    exact h.clustered

end Builds

end

end Parser

/-! ## What an action ensures -/

namespace ParseM

variable {α β : Type}

/-- What the action yields at `p`, and the parser where it ends, are in `Q`. -/
def Ensures (m : ParseM α) (p : Parser) (Q : α → Parser → Prop) : Prop := Q (m.run p).1 (m.run p).2

/-- What is in `Q` stays so, whatever follows. -/
def Lasts (Q : α → Parser → Prop) : Prop := ∀ x q, Q x q → q.Fit ∧ ∀ r, q.Leads r → Q x r

/-- What has been yielded lasts. -/
theorem lasts_yields (p : Parser) (ns : α → List Node) : Lasts fun x q => p.Yields (ns x) q :=
  fun _ _ h => ⟨h.leads.fit, fun _ hr => h.later hr⟩

/-- What has been built lasts. -/
theorem lasts_builds (p : Parser) (ns : α → List Node) : Lasts fun x q => p.Builds (ns x) q :=
  fun _ _ h => ⟨h.leads.fit, fun _ hr => h.later hr⟩

/-- A fact that is not about the parser lasts with another. -/
theorem Lasts.and {Q : α → Parser → Prop} (hQ : Lasts Q) (P : α → Prop) :
    Lasts fun x q => Q x q ∧ P x :=
  fun x q ⟨h, hP⟩ => ⟨(hQ x q h).1, fun r hr => ⟨(hQ x q h).2 r hr, hP⟩⟩

namespace Ensures

variable {m : ParseM α} {f : α → ParseM β} {p : Parser} {Q Q' : α → Parser → Prop}
  {R : β → Parser → Prop}

/-- One action after another. -/
theorem bind (hm : Ensures m p Q) (hf : ∀ x q, Q x q → Ensures (f x) q R) :
    Ensures (m >>= f) p R := hf _ _ hm

/-- Yielding a value leaves the parser as it is. -/
theorem pure {x : α} (h : Q x p) : Ensures (Pure.pure x) p Q := h

/-- What a run comes to may be told with less. -/
theorem weaken (hm : Ensures m p Q) (h : ∀ x q, Q x q → Q' x q) : Ensures m p Q' := h _ _ hm

/-- Looking at the kind of the current lexeme. -/
theorem onToken {f : Token → ParseM β} (h : Ensures (f p.token) p R) :
    Ensures (token >>= f) p R := h

/-- Looking at the current position. -/
theorem onHere {f : Pos → ParseM β} (h : Ensures (f p.here) p R) : Ensures (here >>= f) p R := h

/-- Looking at the current lexeme. -/
theorem onCurrent {f : Lexeme → ParseM β} (h : Ensures (f p.current) p R) :
    Ensures (current >>= f) p R := h

/-- Looking at the parser. -/
theorem onGet {f : Parser → ParseM β} (h : Ensures (f p) p R) : Ensures (get >>= f) p R := h

/-- Making a hole at the current position. -/
theorem onHole {f : Expr → ParseM β} (h : Ensures (f (.bad p.here)) p R) :
    Ensures (hole >>= f) p R := h

/-- Whatever a rule yields, it leads on. -/
theorem leads (hm : Routine m) (hp : p.Fit) : Ensures m p fun _ q => p.Leads q := .run hm hp

/-- A move leads on. -/
theorem leads_move (a : Move) (hp : p.Fit) : Ensures (modify a.apply) p fun _ q => p.Leads q :=
  .move a hp

/-- A token is taken, and the parser led on, or it is not there. -/
theorem gotThen {t : Token} {f : Bool → ParseM β} (hp : p.Fit)
    (hyes : ∀ q, p.token = t → p.Leads q → Ensures (f true) q R)
    (hno : p.token ≠ t → Ensures (f false) p R) : Ensures (got t >>= f) p R := by
  unfold Ensures
  rw [run_bind, run_got]
  split
  · next ht => exact hyes _ ht (.next hp)
  · next ht => exact hno ht

/-- What a rule ensures is ensured where it has been left, if it lasts. -/
theorem traced {rule : Rule} (hp : p.Fit) (hQ : Lasts Q)
    (hm : ∀ q, p.Leads q → q.here = p.here → Ensures m q Q) : Ensures (ParseM.traced rule m) p Q := by
  have hhere : (Move.apply (.enter rule) p).here = p.here := by
    unfold Move.apply Parser.trace
    dsimp only
    split <;> rfl
  obtain ⟨hfit, hlater⟩ := hQ _ _ (hm _ (.move (.enter rule) hp) hhere)
  exact hlater _ (.move .leave hfit)

end Ensures

end ParseM

end FrontEnd
