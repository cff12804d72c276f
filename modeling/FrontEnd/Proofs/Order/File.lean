import FrontEnd.Proofs.Order.Stmt
import FrontEnd.Proofs.Places.Yielded
import FrontEnd.Proofs.Termination.Budget
import FrontEnd.Proofs.Whole.Accepted
import FrontEnd.Proofs.Whole.Heard

/-!
# Trees keep the order of the source

The declarations of a file are laid out one after the other, behind the keyword that starts it, and what is
in them is in order (`inOrder_file`). So every tree that a parser returns is in the order of its source,
whatever it has complained about and recovered from (`Parser.inOrder_of_returned`).
-/

namespace FrontEnd

namespace ParseM

open Ensures
open FrontEnd.Parser (Lays Clears)

variable {budget : Nat} {p q : Parser}

/-- A body is in order, although it is read inside one more function. -/
theorem lays_funcBody (hp : p.Rises) :
    Ensures (funcBody budget) p fun b q => Lays [] p [] [.block b] q := by
  have hinside : (Move.enterFunction.apply p).Rises := (Parser.Ascends.move .enterFunction hp).rises
  obtain ⟨hblock, -⟩ : Ensures (block none budget) (Move.enterFunction.apply p) _ :=
    begins_block none budget _ hinside
  have hroutine : Routine (funcBody budget) := ((stmtRoutines budget).block none).around .functionBody
  have hlater : p.Later ((funcBody budget).run p).2 := .run hroutine hp
  exact (Parser.Lays.nil hlater).nodes hblock.inOrder

/-- A body that may be absent is in order. -/
theorem lays_funcBody? (hp : p.Rises) :
    Ensures (funcBody? budget) p fun b? q => Lays [] p [] (b?.toList.map .block) q := by
  refine .onToken ?_
  split
  · exact (lays_funcBody hp).bind fun b q hb => .pure hb
  · exact .pure (.nil (.refl hp))

/-- The action yields something to be declared that is in order. -/
def LaysBody (m : ParseM (Option Spec)) : Prop :=
  ∀ p : Parser, p.Rises → Ensures m p fun spec? q => Lays [] p [] (spec?.toList.map .spec) q

/-- Giving up lays out nothing. -/
theorem laysBody_giveUp {complaint : Complaint} {follow : List Token} : LaysBody (giveUp complaint follow) :=
  fun _ hp => (later (routine_complain _) hp).bind fun _ _ hq => (later (routine_recover _) hq.rises).bind
    fun _ _ hr => .pure (.nil (hq.trans hr))

/-- What is in a function is in order. -/
theorem laysBody_funcSpec (budget : Nat) : LaysBody (funcSpec budget) := by
  refine fun p hp => .stays_traced hp (keeps_lays [] p _ _) fun q hq => .onToken ?_
  split
  · refine (later routine_ident hq.rises).bind fun name r hr => (later (routine_remark _) hr.rises).bind
      fun _ s hs => (later (routine_params _) hs.rises).bind fun ps t ht =>
        (later (routine_type? _) ht.rises).bind fun result? u hu =>
          (lays_funcBody? hu.rises).bind fun body? v hbody => .pure ?_
    refine .sooner (hq.toLater.trans (hr.trans (hs.trans (ht.trans hu)))) (Parser.Lays.node
      (n := .spec (.funcSpec name ps result? body?)) (hbody.nodes fun hlive m hm => ?_) fun _ => trivial)
    simp only [Node.parts, List.mem_cons, List.mem_append] at hm
    rcases hm with rfl | (hm | hm) | hm
    · exact Node.IsPlain.each_inOrder trivial
    · obtain ⟨x, -, rfl⟩ := List.mem_map.mp hm
      exact Node.IsPlain.each_inOrder trivial
    · obtain ⟨x, -, rfl⟩ := List.mem_map.mp hm
      exact Node.IsPlain.each_inOrder trivial
    · exact hbody.inOrder hlive m hm
  · exact (laysBody_giveUp q hq.rises).weaken fun _ _ => .sooner hq.toLater

/-- What is in an operator is in order. -/
theorem laysBody_operResult (lhs rhs : Param) (overload : Overload) :
    LaysBody (operResult lhs overload rhs budget) := by
  refine fun p hp => (later (routine_type? _) hp).bind fun result? q hq => ?_
  split
  · next result =>
    refine (lays_funcBody? hq.rises).bind fun body? r hbody => ?_
    have hspec : Lays [] p [] [.spec (.operSpec lhs overload rhs result body?)] r := by
      refine .sooner hq (Parser.Lays.node (n := .spec (.operSpec lhs overload rhs result body?))
        (hbody.nodes fun hlive m hm => ?_) fun _ => trivial)
      simp only [Node.parts, List.mem_cons] at hm
      rcases hm with rfl | rfl | rfl | hm
      · exact Node.IsPlain.each_inOrder trivial
      · exact Node.IsPlain.each_inOrder trivial
      · exact Node.IsPlain.each_inOrder trivial
      · exact hbody.inOrder hlive m hm
    split
    · exact .pure hspec
    · exact (later (routine_complain _) hspec.rises).bind fun _ s hs => .pure (hspec.later hs)
  · exact (laysBody_giveUp q hq.rises).weaken fun _ _ => .sooner hq

/-- The rule for operators lays out what is in order, or nothing. -/
theorem laysBody_operSpec (budget : Nat) : LaysBody (operSpec budget) := by
  refine fun p hp => .stays_traced hp (keeps_lays [] p _ _) fun q hq => ?_
  refine (later (routine_operandParam? _ _) hq.rises).bind fun lhs? r hr => ?_
  have hpr := hq.toLater.trans hr
  split
  · exact .pure (.nil hpr)
  · refine (later routine_overload? hpr.rises).bind fun overload? s hs => ?_
    split
    · exact .pure (.nil (hpr.trans hs))
    · refine (later (routine_operandParam? _ _) hs.rises).bind fun rhs? t ht => ?_
      have hpt := hpr.trans (hs.trans ht)
      split
      · exact .pure (.nil hpt)
      · exact (laysBody_operResult _ _ _ t hpt.rises).weaken fun _ _ => .sooner hpt

/-! ## Declarations of a file -/

/-- Outside of functions, the action yields declarations that are laid out one after the other. -/
def LaysDecls (m : ParseM (List Decl)) : Prop :=
  ∀ p : Parser, p.Rises → p.functions = 0 → p.token ≠ .eof → Ensures m p fun ds q =>
    Lays [] p (ds.map Decl.pos) (ds.map .decl) q

/-- Whatever a declaration at the top level starts with, it is laid out from there. -/
theorem laysDecls_topLevelAt {t : Token} {action : ParseM (List Decl)}
    (h : topLevelAt t budget = some action) : LaysDecls action := by
  -- Two shapes of an item, with and without a group.
  have hsingle {spec : ParseM (Option Spec)} (hspec : LaysBody spec) : LaysDecls (do
      let pos ← here
      next
      return ((← spec).map (.mk pos none)).toList) := by
    refine fun p hp _ ht => .onHere ((clears_next hp).bind fun _ q hq =>
      (hspec q hq.rises).bind fun spec? r hspec => .pure ?_)
    have hpos : Lays [] p [p.here] [] r := .here ht (hq.later hspec.toLater)
    exact (hpos.nodes hspec.inOrder).declare none
  have hgroup {keyword : Keyword} {spec : ParseM (Option Spec)} (hspec : LaysSpec 0 spec) :
      LaysDecls (do
        let pos ← here
        next
        grouped keyword pos spec budget) := by
    refine fun p hp hk ht => .onHere ((clears_next hp).bind fun _ q hq => ?_)
    exact (lays_grouped hspec (.here ht hq) (hq.functions.trans hk)).weaken fun ds r ⟨_, hds⟩ => hds
  unfold topLevelAt at h
  split at h
  · next k =>
    cases k with
    | importWord => cases h; exact hgroup lays_importSpec
    | typeWord => cases h; exact hgroup (lays_typeSpec budget 0)
    | varWord => cases h; exact hgroup (lays_varSpec budget 0)
    | funcWord => cases h; exact hsingle (laysBody_funcSpec budget)
    | operWord => cases h; exact hsingle (laysBody_operSpec budget)
    | _ => cases h
  · cases h

/-- The declarations of a file are laid out one after the other, also past stray statements. -/
theorem lays_topLevels (afterImport : Bool) (hp : p.Rises) (hk : p.functions = 0) :
    Ensures (topLevels afterImport budget) p fun ds q =>
      Lays [] p (ds.map Decl.pos) (ds.map .decl) q := by
  induction budget generalizing p afterImport with
  | zero => exact .of_starve hp fun q hq hs => .pure (.of_starved hq hs)
  | succ budget ih =>
    have hmore (imports : Bool) {q : Parser} (hq : p.Later q) :
        Ensures (topLevels imports budget) q fun ds r => Lays [] p (ds.map Decl.pos) (ds.map .decl) r :=
      (ih imports hq.rises (hq.functions.trans hk)).weaken fun _ _ => .sooner hq
    -- A separator, a stray statement and a declaration are each followed by the rest of the loop.
    refine .onToken ?_
    split
    · exact .pure (.nil (.refl hp))
    · next heof =>
      split
      · exact (later routine_next hp).bind fun _ q hq => hmore _ hq
      · dsimp only
        cases ha : topLevelAt p.token budget with
        | none =>
          have hrest (imports : Bool) {q : Parser} (hq : p.Later q) : Ensures (do
              complain .strayStatement
              recover strayFollow
              topLevels imports budget) q fun ds r => Lays [] p (ds.map Decl.pos) (ds.map .decl) r :=
            (later (routine_complain _) hq.rises).bind fun _ r hr =>
              (later (routine_recover _) hr.rises).bind fun _ s hs => hmore _ (hq.trans (hr.trans hs))
          split
          · exact (later (routine_complain _) hp).bind fun _ q hq => hrest _ hq
          · exact hrest _ (.refl hp)
        | some action =>
          -- A complaint before the declaration leaves the parser at its keyword.
          have hrest (imports : Bool) {q : Parser} (hq : p.Stays q) : Ensures (do
              let before := (← get).count
              let decls ← action
              endTopLevel before
              return decls ++ (← topLevels imports budget)) q fun ds r =>
                Lays [] p (ds.map Decl.pos) (ds.map .decl) r := by
            have hqk : q.functions = 0 := hq.functions.trans hk
            have hqt : q.token ≠ .eof := by rwa [hq.token_eq]
            refine .onGet ((laysDecls_topLevelAt ha q hq.rises hqk hqt).bind fun ds r hds =>
              (later (routine_endTopLevel _) hds.rises).bind fun _ s hs => ?_)
            have hds : Lays [] q (ds.map Decl.pos) (ds.map .decl) s := hds.later hs
            refine (ih imports hs.rises (hds.functions.trans hqk)).bind fun more t hmore => .pure ?_
            rw [List.map_append, List.map_append]
            exact .sooner hq.toLater (hds.append hmore)
          split
          · exact (stays_complain _ hp).bind fun _ q hq => hrest _ hq
          · exact hrest _ (.refl hp)

/-- A file is in order, unless its run has been cut short. -/
theorem inOrder_file (hp : p.Rises) (hk : p.functions = 0) : Ensures (file budget) p fun result q =>
    p.Later q ∧ ∀ f, result = .ok f → q.starved = false → f.InOrder := by
  have hkeeps : Keeps fun (result : Except Failure File) q =>
      p.Later q ∧ ∀ f, result = .ok f → q.starved = false → f.InOrder :=
    fun _ q ⟨hq, hf⟩ => ⟨hq.rises, fun r hr => ⟨hq.trans hr.toLater, fun f hok hs =>
      hf f hok (Parser.not_starved hr.toLater hs)⟩⟩
  refine .stays_traced hp hkeeps fun q hq => .onHere (.onCurrent (.clears_got hq.rises (fun r ht hr => ?_) fun _ => ?_))
  · refine (later routine_ident hr.rises).bind fun name s hs => (later (routine_remark _) hs.rises).bind
      fun _ t ht' => (later (routine_want _) ht'.rises).bind fun _ u hu => ?_
    have hne : q.token ≠ .eof := by rw [ht]; exact Token.noConfusion
    have hpos : Lays [] q [q.here] [] u := .here hne (hr.later (hs.trans (ht'.trans hu)))
    have hfunctions : u.functions = 0 := hpos.functions.trans (hq.functions.trans hk)
    refine (lays_topLevels true hu.rises hfunctions).bind fun ds v hds => .pure ?_
    -- Header and declarations in one row, the header at the first token.
    have hall : Lays [] q (q.here :: ds.map Decl.pos) (ds.map .decl) v := hpos.append hds
    refine ⟨hq.toLater.trans hall.toLater, fun f hf hlive => ?_⟩
    cases hf
    refine ⟨hall.ascending hlive, fun n hn => ?_⟩
    rcases List.mem_cons.mp hn with rfl | hn
    · exact Node.IsPlain.each_inOrder trivial
    · exact hall.inOrder hlive n hn
  · exact .pure ⟨hq.toLater, fun f hf => by cases hf⟩

end ParseM

/-! ## Trees that are returned -/

namespace Parser

open ParseM

variable {f : File}

/-- At first, a parser that goes on after a complaint has its lexemes one behind the other. -/
theorem rises_start (base : Base) (r : Reader) (verbose : Bool) :
    (start base r.scans true verbose).Rises := by
  refine ⟨(lasting_tolerant true).next rfl, ends_start base r true verbose, ?_⟩
  unfold start next aborted
  dsimp only
  rw [if_neg (by simp)]
  cases hs : r.scans with
  | nil => exact trivial
  | cons scan rest =>
    dsimp only
    have hlingers := Lingers.foldl_hear scan.reports
      { current := scan.lexeme, upcoming := rest, base, tolerant := true, verbose, first? := none, count := 0,
        functions := 0, openRules := 0, tracedLine? := none, groups := 0, log := #[], starved := false }
    rw [hlingers.current, hlingers.upcoming]
    exact Reader.rising_scans hs

/-- A tree that a tolerant parser returns is in the order of its source. -/
theorem inOrder_of_tolerant {base : Base} {r : Reader} {verbose : Bool}
    (h : (start base r.scans true verbose).parseFile.1 = .ok f) : f.InOrder := by
  have hrises := rises_start base r verbose
  obtain ⟨hfunctions, hstarved⟩ := books_start base r.scans true verbose
  generalize start base r.scans true verbose = p at h hrises hfunctions hstarved
  -- No budget runs out that is as large as the one a file is read with, so nothing is left out.
  rw [parseFile_of_tolerant hrises.tolerant] at h
  obtain ⟨-, hf⟩ : Ensures (file p.budget) p _ := inOrder_file hrises hfunctions
  have halike := alike_file hrises.ends hfunctions p.le_budget p.le_budget
  exact hf f h (halike.reaches.starved.trans hstarved)

/-- Every tree that is returned keeps the order of the source, whatever the reader hands out, by a parser that
goes on after a complaint or one that does not. If 32 bits can count all the bytes, and one more, they hold
every place in it. -/
theorem inOrder_of_returned (base : Base) (r : Reader) (hsize : r.bytesLeft + 1 < UInt32.size)
    (tolerant verbose : Bool) (h : (start base r.scans tolerant verbose).parseFile.1 = .ok f) :
    f.InOrder ∧ f.Stands (·.place.Fits) := by
  constructor
  · cases tolerant with
    | true => exact inOrder_of_tolerant h
    | false =>
      rcases hasty_parseFile_cases base r.scans verbose with ⟨hsame, -⟩ | ⟨d, -, haborted⟩
      · exact inOrder_of_tolerant (hsame.symm.trans h)
      · rw [h] at haborted
        cases haborted
  · have hlies := (r.upTo_parseFile base tolerant verbose).1
    rw [h] at hlies
    have hstands : f.Stands (·.place.UpTo r.bytesLeft) := hlies
    exact hstands.mono fun _ hpos => hpos.fits hsize

/-- An import without a path, a variable that declares nothing, and a function with a hole, an `if` without a
condition and a stray `else` in it. -/
theorem inOrder_of_returned_recovered :
    let text := "module m\nimport (; \"a\")\nvar x\n" ++
      "func f() \x7b a = ; if \x7b b \x7d else ) ..c\n var ( p ; q int ) \x7d\nfunc g()"
    let r := Reader.ofBytes text.toUTF8
    let p := start (.file "") r.scans true false
    r.bytesLeft + 1 < UInt32.size ∧ p.parseFile.2.diagnostics.length = 7 ∧ ∃ f, p.parseFile.1 = .ok f ∧
      f.decls.map (fun d => d.pos.place) = [⟨2, 9⟩, ⟨2, 11⟩, ⟨4, 1⟩, ⟨6, 1⟩] ∧
      f.InOrder ∧ f.Stands (·.place.Fits) := by
  intro text r p
  have hsize : r.bytesLeft + 1 < UInt32.size := by decide +kernel
  have hcount : p.parseFile.2.diagnostics.length = 7 := by decide +kernel
  have hplaces : p.parseFile.1.toOption.map (fun f => f.decls.map fun d => d.pos.place) =
      some [⟨2, 9⟩, ⟨2, 11⟩, ⟨4, 1⟩, ⟨6, 1⟩] := by decide +kernel
  -- A tree is returned in spite of the seven diagnostics.
  cases hf : p.parseFile.1 with
  | error e =>
    rw [hf] at hplaces
    cases hplaces
  | ok f =>
    rw [hf] at hplaces
    exact ⟨hsize, hcount, f, rfl, Option.some.inj hplaces, inOrder_of_returned _ r hsize true false hf⟩

end Parser

end FrontEnd
