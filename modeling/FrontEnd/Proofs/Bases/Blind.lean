import FrontEnd.Proofs.Bases.Mapped
import FrontEnd.Proofs.Routine
import FrontEnd.Proofs.Runs

/-!
# Actions that are blind to bases

A parser without bases (`Parser.unbased`) has the default base throughout: in effect, in what it has said, and
to come, since the comments that only set up a base are left out of its scans. An action is blind to bases
if it does the same from such a parser, and yields the same without bases (`Blind`).

Of parsers that differ in their bases only, the parsers without bases are one and the same. So what is blind
to bases tells nothing about them but the bases themselves.
-/

namespace FrontEnd

/-- The position without its base. -/
def Pos.unbased (pos : Pos) : Pos := ⟨default, pos.place⟩

/-- Whether nothing is said about the report: it is no directive after all, or one that only sets up a
base. -/
def Report.isSilent : Report → Bool
  | .error _ => false
  | .directive place comment =>
    match LineDirective.candidate? place comment with
    | none => true
    | some candidate =>
      match LineDirective.read candidate.text with
      | .unrelated | .accepted _ => true
      | .rejected .. => false

/-- The scan without the reports about which nothing is said. -/
def Scan.audible (scan : Scan) : Scan := { scan with reports := scan.reports.filter (!·.isSilent) }

/-- The event without bases. -/
def Event.unbased : Event → Event
  | .diagnostic d => .diagnostic (d.mapPos .unbased)
  | .trace line => .trace line

namespace Parser

/-- The parser without bases. -/
def unbased (p : Parser) : Parser :=
  { p with
    base := default
    upcoming := p.upcoming.map Scan.audible
    first? := p.first?.map (Diagnostic.mapPos .unbased)
    log := p.log.map Event.unbased }

variable (p : Parser)

/-! ## Looking and speaking -/

/-- Whether a parser has been finished does not depend on bases. -/
@[simp] theorem aborted_unbased : p.unbased.aborted = p.aborted := by
  unfold aborted unbased
  rw [Option.isSome_map]

/-- Without bases there is the same token. -/
@[simp] theorem token_unbased : p.unbased.token = p.token := by
  unfold token
  rw [aborted_unbased]
  rfl

/-- Without bases there is the same operator. -/
@[simp] theorem operator?_unbased : p.unbased.operator? = p.operator? := by
  unfold operator?
  rw [token_unbased]
  rfl

/-- Without bases there are as many complaints. -/
@[simp] theorem count_unbased : p.unbased.count = p.count := rfl

/-- A diagnostic without bases is told like one with them. -/
theorem diagnose_unbased (pos : Pos) (cause : Cause) :
    p.unbased.diagnose pos.unbased cause = (p.diagnose pos cause).unbased := by
  have hfirst : (p.first?.map (Diagnostic.mapPos .unbased)).or (some ⟨pos.unbased, cause⟩) =
      (p.first?.or (some ⟨pos, cause⟩)).map (Diagnostic.mapPos .unbased) := by
    cases p.first? <;> rfl
  have hlog : (if p.tolerant then (p.log.map Event.unbased).push (.diagnostic ⟨pos.unbased, cause⟩)
        else p.log.map Event.unbased) =
      (if p.tolerant then p.log.push (.diagnostic ⟨pos, cause⟩) else p.log).map Event.unbased := by
    split
    · rw [Array.map_push]
      rfl
    · rfl
  unfold diagnose unbased
  dsimp only
  rw [hfirst, hlog]

/-- Lines of the trace have no bases. -/
theorem trace_unbased (note : TraceNote) : p.unbased.trace note = (p.trace note).unbased := by
  unfold trace
  change (if p.verbose then _ else _) = _
  split
  · unfold unbased
    simp only [Array.map_push]
    rfl
  · rfl

/-- A complaint is made, or held back, without bases as with them. -/
theorem complainAt_unbased (pos : Pos) (c : Complaint) :
    p.unbased.complainAt pos.unbased c = (p.complainAt pos c).unbased := by
  unfold complainAt
  dsimp only
  rw [trace_unbased]
  generalize p.trace _ = q
  rw [token_unbased, show q.unbased.first?.isSome = q.first?.isSome from Option.isSome_map]
  split
  · rfl
  · exact q.diagnose_unbased _ _

/-! ## Reading -/

/-- A report is heard without bases, unless nothing is said about it. -/
theorem hear_unbased (report : Report) :
    (p.hear report).unbased = bif report.isSilent then p.unbased else p.unbased.hear report := by
  unfold hear
  rw [aborted_unbased]
  cases p.aborted with
  | true => simp
  | false =>
    simp only [Bool.false_eq_true, if_false]
    cases report with
    | error e => exact (p.diagnose_unbased _ _).symm
    | directive place comment =>
      unfold direct Report.isSilent
      dsimp only
      -- A directive that is accepted, or none at all, changes the base only and is silent.
      cases LineDirective.candidate? place comment with
      | none => rfl
      | some candidate =>
        dsimp only
        cases LineDirective.read candidate.text with
        | unrelated => rfl
        | rejected offset cause => exact (p.diagnose_unbased _ _).symm
        | accepted directive => rfl

/-- What happened under way does the same without bases, except that there is nothing to hear of directives that
only set up a base. -/
theorem foldl_hear_unbased (reports : List Report) :
    (reports.foldl hear p).unbased = (reports.filter (!·.isSilent)).foldl hear p.unbased := by
  induction reports generalizing p with
  | nil => rfl
  | cons report reports ih =>
    rw [List.foldl_cons, ih, hear_unbased]
    cases h : report.isSilent with
    | true => rw [cond_true, List.filter_cons_of_neg (by simp [h])]
    | false => rw [cond_false, List.filter_cons_of_pos (by simp [h]), List.foldl_cons]

/-- Without bases the next lexeme is the same. -/
theorem next_unbased : p.unbased.next = p.next.unbased := by
  have hupcoming : p.unbased.upcoming = p.upcoming.map Scan.audible := rfl
  unfold next
  rw [aborted_unbased, hupcoming]
  split
  · rfl
  · cases p.upcoming with
    | nil => rfl
    | cons scan rest =>
      exact (foldl_hear_unbased { p with current := scan.lexeme, upcoming := rest } scan.reports).symm

/-- Without bases a search ends at the same lexeme. -/
theorem skipTo_unbased (follow : List Token) : p.unbased.skipTo follow = (p.skipTo follow).unbased := by
  have hstop (p : Parser) : (p.unbased.isStop follow || p.unbased.upcoming.isEmpty) =
      (p.isStop follow || p.upcoming.isEmpty) := by
    have hempty : p.unbased.upcoming.isEmpty = p.upcoming.isEmpty := List.isEmpty_map
    unfold isStop
    rw [token_unbased, hempty]
    rfl
  fun_induction skipTo follow p with
  | case1 p h => rw [skipTo.eq_def follow p.unbased, if_pos (by rwa [hstop])]
  | case2 p h ih => rw [skipTo.eq_def follow p.unbased, if_neg (by rwa [hstop]), next_unbased, ih]

/-- Without bases a recovery does the same. -/
theorem recover_unbased (follow : List Token) : p.unbased.recover follow = (p.recover follow).unbased := by
  unfold recover
  dsimp only
  rw [trace_unbased]
  generalize p.trace _ = q
  split
  · rw [token_unbased]
    split
    · rfl
    · exact q.next_unbased
  · exact q.skipTo_unbased follow

/-- A parser without bases starts on the scans without the reports about which nothing is said, on the default
base. -/
theorem start_unbased (base : Base) (scans : List Scan) (tolerant verbose : Bool) :
    (start base scans tolerant verbose).unbased =
      start default (scans.map Scan.audible) tolerant verbose := by
  unfold start
  rw [← next_unbased]
  unfold unbased
  simp only [Array.map_empty, Option.map_none]

end Parser

namespace ParseM

variable {α β γ δ : Type}

/-- The action `m'` does without bases what `m` does with them, and yields, by `g`, the same without
bases. -/
def Blind (g : α → β) (m : ParseM α) (m' : ParseM β) : Prop :=
  ∀ p : Parser, m'.run p.unbased = (g (m.run p).1, (m.run p).2.unbased)

namespace Blind

variable {g : α → β} {h : γ → δ} {m n : ParseM α} {m' n' : ParseM β} {f : α → ParseM γ} {f' : β → ParseM δ}

/-! ## The judgement -/

/-- One blind action after another is blind. -/
theorem bind (hm : Blind g m m') (hf : ∀ x, Blind h (f x) (f' (g x))) : Blind h (m >>= f) (m' >>= f') := by
  intro p
  rw [run_bind, run_bind, hm p]
  exact hf _ _

/-- What is yielded is the same without bases. -/
theorem pure {x : α} {y : β} (hx : y = g x) : Blind g (pure x) (Pure.pure y) := by
  intro p
  rw [hx]
  rfl

/-- What is yielded is the same without bases by definition. -/
theorem done (x : α) : Blind g (Pure.pure x) (Pure.pure (g x)) := pure rfl

/-- A case distinction that does not depend on bases. -/
theorem ite {c : Prop} [Decidable c] (ht : c → Blind g m m') (hf : ¬c → Blind g n n') :
    Blind g (if c then m else n) (if c then m' else n') := by
  split
  · next hc => exact ht hc
  · next hc => exact hf hc

/-! ## Looks -/

/-- Deciding by the kind of the current lexeme is blind. -/
theorem token {f : Token → ParseM γ} {f' : Token → ParseM δ} (hf : ∀ t, Blind h (f t) (f' t)) :
    Blind h (ParseM.token >>= f) (ParseM.token >>= f') := by
  intro p
  rw [run_bind, run_bind, run_token, run_token, Parser.token_unbased]
  exact hf _ p

/-- Using the current position is blind if what comes of it is the same without its base. -/
theorem here {f : Pos → ParseM γ} {f' : Pos → ParseM δ} (hf : ∀ pos, Blind h (f pos) (f' pos.unbased)) :
    Blind h (ParseM.here >>= f) (ParseM.here >>= f') :=
  fun p => hf p.here p

/-- Using the current lexeme is blind. -/
theorem current {f : Lexeme → ParseM γ} {f' : Lexeme → ParseM δ} (hf : ∀ l, Blind h (f l) (f' l)) :
    Blind h (ParseM.current >>= f) (ParseM.current >>= f') :=
  fun p => hf p.current p

/-- A look at the whole parser sees no base. -/
theorem get {f : Parser → ParseM γ} {f' : Parser → ParseM δ} (hf : ∀ p, Blind h (f p) (f' p.unbased)) :
    Blind h (get >>= f) (get >>= f') :=
  fun p => hf p p

/-! ## Moves -/

/-- One blind action after another, of which the first yields nothing. -/
theorem andThen {k : ParseM Unit} {k' : ParseM Unit} (hk : Blind id k k') (hm : Blind g m m') :
    Blind g (k >>= fun _ => m) (k' >>= fun _ => m') := hk.bind fun _ => hm

/-- Going on to the next lexeme is blind. -/
theorem next : Blind id ParseM.next ParseM.next := fun p => congrArg (Prod.mk ()) p.next_unbased

/-- A complaint at a position is one at the position without its base. -/
theorem complainAt (pos : Pos) (c : Complaint) :
    Blind id (ParseM.complainAt pos c) (ParseM.complainAt pos.unbased c) :=
  fun p => congrArg (Prod.mk ()) (p.complainAt_unbased pos c)

/-- A complaint at the current lexeme is blind. -/
theorem complain (c : Complaint) : Blind id (ParseM.complain c) (ParseM.complain c) :=
  here fun pos => complainAt pos c

/-- A recovery is blind. -/
theorem recover (follow : List Token) : Blind id (ParseM.recover follow) (ParseM.recover follow) :=
  fun p => congrArg (Prod.mk ()) (p.recover_unbased follow)

/-- A line of the trace is blind. -/
theorem remark (text : String) : Blind id (ParseM.remark text) (ParseM.remark text) :=
  fun p => congrArg (Prod.mk ()) (p.trace_unbased _)

/-- Running out of budget is blind. -/
theorem starve : Blind id ParseM.starve ParseM.starve := fun _ => rfl

/-- Numbering a group is blind. -/
theorem newGroup {f : Nat → ParseM γ} {f' : Nat → ParseM δ} (hf : ∀ n, Blind h (f n) (f' n)) :
    Blind h (ParseM.newGroup >>= f) (ParseM.newGroup >>= f') :=
  fun p => hf p.groups { p with groups := p.groups + 1 }

/-! ## Put together -/

/-- Tracing a blind rule is blind. -/
theorem traced (rule : Rule) (hm : Blind g m m') : Blind g (ParseM.traced rule m) (ParseM.traced rule m') := by
  intro p
  have henter : Move.apply (.enter rule) p.unbased = (Move.apply (.enter rule) p).unbased := by
    unfold Move.apply
    dsimp only
    rw [Parser.trace_unbased]
    rfl
  have hleave (q : Parser) : Move.apply .leave q.unbased = (Move.apply .leave q).unbased :=
    Parser.trace_unbased { q with openRules := q.openRules - 1 } .leave
  rw [run_traced, run_traced, henter, hm]
  exact congrArg (Prod.mk _) (hleave _)

/-- Taking a token if it is there, and deciding by whether it was, is blind. -/
theorem got {f : Bool → ParseM γ} {f' : Bool → ParseM δ} (t : Token) (hf : ∀ b, Blind h (f b) (f' b)) :
    Blind h (ParseM.got t >>= f) (ParseM.got t >>= f') := by
  have hgot : Blind id (ParseM.got t) (ParseM.got t) :=
    token fun _ => ite (fun _ => next.andThen (done true)) fun _ => done false
  exact hgot.bind hf

/-- Asking for a token is blind. -/
theorem want (t : Token) : Blind id (ParseM.want t) (ParseM.want t) :=
  got t fun _ => ite (fun _ => done ()) fun _ => complain _

/-- Taking an assignment, and deciding by whether it was there, is blind. -/
theorem gotAssign {f : Bool → ParseM γ} {f' : Bool → ParseM δ} (hf : ∀ b, Blind h (f b) (f' b)) :
    Blind h (ParseM.gotAssign >>= f) (ParseM.gotAssign >>= f') := by
  have hgot : Blind id ParseM.gotAssign ParseM.gotAssign := by
    refine token fun t => ?_
    split
    · exact (complain _).andThen (next.andThen (done true))
    · exact next.andThen (done true)
    · exact done false
  exact hgot.bind hf

end Blind

end ParseM

end FrontEnd
