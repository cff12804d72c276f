import FrontEnd.Proofs.Bases.Hearing
import FrontEnd.Proofs.Grammar.Acceptance
import FrontEnd.Proofs.Grammar.Likeness
import FrontEnd.Proofs.Tracing

/-!
# Recovery at the top of a file

At the top of a file stand declarations, each with a semicolon after it. What starts none is complained
about once, at its first lexeme, and passed over up to the next semicolon or the next keyword of a
declaration. If it has come as far as a semicolon (`Item.isStray`), nothing else is affected by it: the
declarations are those that the file has without it (`stray_runs_isolated`).

For this, a parser must come out of a recovery as it went in, but for what it has said. `Poised` sums up
what a parser has between two items: what it has said so far, which lexemes are to come, and that no
function is open.
-/

namespace FrontEnd

/-- What has been said, and then a diagnostic. -/
def Said.add (w : Said) (d : Diagnostic) : Said :=
  ⟨w.first?.or (some d), w.count + 1, w.diagnostics ++ [d]⟩

namespace Parser

variable {base : Base} {scans : List Scan} {w : Said} {g g' : Nat} {ts us : List Lexeme} {l : Lexeme}
  {p : Parser}

/-- The parser is on lexemes at the end of the scans, outside of functions, and has said `w`. -/
structure Poised (base : Base) (scans : List Scan) (w : Said) (g : Nat) (ts : List Lexeme)
    (p : Parser) : Prop where
  on : p.On w g ts
  reached : ∃ k, p.AtScan base scans k
  functions : p.functions = 0

namespace Poised

/-- A parser that has recovered goes on after a complaint. -/
theorem tolerant (h : p.Poised base scans w g ts) : p.tolerant = true := by
  obtain ⟨k, hk⟩ := h.reached
  exact hk.tolerant

/-- The position at which the parser is follows from how many lexemes are to come. -/
theorem here (h : p.Poised base scans w g (l :: ts)) {k : Nat}
    (hk : k + (l :: ts).length + 1 = scans.length) :
    p.here = ⟨baseUpTo base scans (k + 1), l.place⟩ := by
  obtain ⟨k', hat⟩ := h.reached
  have hk' : k' = k := by
    obtain ⟨e, he, -⟩ := h.on.lexemes
    have hupcoming : p.upcoming.length = ts.length + 1 := by
      have := congrArg List.length he
      simpa using this
    rw [hat.upcoming, List.length_drop] at hupcoming
    rw [List.length_cons] at hk
    omega
  subst hk'
  unfold Parser.here posAt
  rw [hat.base_eq, h.on.current]

/-- A rule that takes the lexemes gets to what is behind. -/
theorem run {α : Type} {m : ParseM α} {Q : α → Prop} (h : p.Poised base scans w g ts) (hm : Routine m)
    (ht : ParseM.Takes g ts m Q g' us) :
    (m.run p).2.Poised base scans w g' us ∧ Q (m.run p).1 := by
  obtain ⟨hon, hQ⟩ := ht.run h.on
  have hreached := hm.preserves (P := fun q => ∃ k, q.AtScan base scans k)
    (fun a q ⟨k, hk⟩ => let ⟨k', _, _, hat, _⟩ := hk.move a; ⟨k', hat⟩) h.reached
  exact ⟨⟨hon, hreached, (hm.restores p).functions.trans h.functions⟩, hQ⟩

/-- Entering a rule leaves a parser poised. -/
theorem enter (h : p.Poised base scans w g ts) (rule : Rule) :
    (Move.apply (.enter rule) p).Poised base scans w g ts := by
  obtain ⟨k, hat⟩ := h.reached
  obtain ⟨k', _, _, hat', _⟩ := hat.move (.enter rule)
  exact ⟨(h.on.trace (.enter rule)).congr rfl rfl rfl rfl rfl, ⟨k', hat'⟩,
    (functions_trace p _).trans h.functions⟩

/-- Reading on leaves a parser poised before what follows. -/
theorem next (h : p.Poised base scans w g (l :: ts)) : p.next.Poised base scans w g ts :=
  (h.run ParseM.routine_next (Q := fun _ => True) (.onMove .next (fun hp => hp.next) (.pure trivial))).1

/-- A line of the trace leaves a parser poised. -/
theorem trace (h : p.Poised base scans w g ts) (text : String) :
    (p.trace (.remark text)).Poised base scans w g ts :=
  (h.run (ParseM.routine_remark text) (Q := fun _ => True) (.onRemark (.pure trivial))).1

/-- A complaint about the current lexeme is heard, and changes nothing else. -/
theorem complain (h : p.Poised base scans w g (l :: ts)) (c : Complaint) :
    (p.complainAt p.here c).Poised base scans (w.add ⟨p.here, .syntactic c l.describe⟩) g (l :: ts) := by
  obtain ⟨k, hat⟩ := h.reached
  obtain ⟨k', _, _, hat', _⟩ := hat.move (.complain c)
  refine ⟨?_, ⟨k', hat'⟩, (Restores.complainAt p _ c).functions.trans h.functions⟩
  have ht := h.trace ("syntax error: " ++ c.words)
  unfold complainAt
  dsimp only
  generalize p.trace _ = q at ht ⊢
  -- The token is none at which complaints are held back.
  have htoken : q.token ≠ .eof := by
    rw [ht.on.token]
    exact (ht.on.fine l List.mem_cons_self).token_ne
  rw [if_neg (by simp [htoken]), ht.on.current]
  exact {
    said := by
      simp only [said, diagnostics_diagnose ht.tolerant, Said.add, ← ht.on.said]
      rfl
    aborted := by simp [aborted, diagnose, ht.tolerant]
    groups := ht.on.groups
    lexemes := ht.on.lexemes
    fine := ht.on.fine
    calm := ht.on.calm }

/-- A search passes over what it does not look for. Outside of functions nothing else ends it. -/
theorem skipTo {follow : List Token} {s : Lexeme} (hts : ∀ l ∈ ts, l.token ∉ follow)
    (hs : s.token ∈ follow) (h : p.Poised base scans w g (ts ++ s :: us)) :
    (p.skipTo follow).Poised base scans w g (s :: us) := by
  induction ts generalizing p with
  | nil =>
    have htoken : p.token = s.token := h.on.token
    rw [Parser.skipTo, if_pos (by simp [isStop, htoken, hs])]
    exact h
  | cons l ts ih =>
    have htoken : p.token = l.token := h.on.token
    have hne : l.token ≠ .eof := (h.on.fine l List.mem_cons_self).token_ne
    have hl : l.token ∉ follow := hts l List.mem_cons_self
    have hupcoming : p.upcoming ≠ [] := by
      intro hnil
      obtain ⟨e, he, -⟩ := h.on.lexemes
      simp [hnil] at he
    rw [Parser.skipTo, if_neg (by simp [isStop, htoken, hne, hl, h.functions, hupcoming])]
    exact ih (fun l' hl' => hts l' (List.mem_cons_of_mem _ hl')) h.next

/-- A recovery skips to the first lexeme that it looks for. -/
theorem recover {follow : List Token} {s : Lexeme} (hts : ∀ l ∈ ts, l.token ∉ follow)
    (hs : s.token ∈ follow) (h : p.Poised base scans w g (ts ++ s :: us)) :
    (p.recover follow).Poised base scans w g (s :: us) := by
  have hne : follow.isEmpty = false := by
    cases follow with
    | nil => cases hs
    | cons t follow => rfl
  unfold Parser.recover
  rw [hne]
  exact skipTo hts hs (h.trace _)

end Poised

end Parser

/-! ## What stands at the top of a file -/

/-- Something at the top of a file, up to a semicolon. -/
structure Item where
  /-- whether it is none of the declarations -/
  isStray : Bool
  first : Lexeme
  more : List Lexeme
  semi : Lexeme

namespace Item

/-- The lexemes before the semicolon. -/
def run (i : Item) : List Lexeme := i.first :: i.more

/-- The lexemes of the item, up to its semicolon. -/
def lexemes (i : Item) : List Lexeme := i.run ++ [i.semi]

/-- Whether the item is an import. -/
def isImport (i : Item) : Bool := i.first.token = .keyword .importWord

/-- A declaration is one by the productions. What is none has neither a semicolon nor a keyword that
declarations start with. -/
structure WellFormed (i : Item) : Prop where
  semi : i.semi.token = .semi
  stray : i.isStray = true → ∀ l ∈ i.run, l.token ∉ [.keyword .importWord, .keyword .typeWord,
    .keyword .varWord, .keyword .funcWord, .keyword .operWord, .semi]
  declaration : i.isStray = false →
    Derives .closed (.alt (.ref .importDecl) (.ref .decl)) i.run []

/-- What there is to complain about at the item's first lexeme, directly after an import or at the
beginning, or else directly after something other than an import. -/
def complaint? (afterImport : Bool) (i : Item) : Option Complaint :=
  if i.isStray then some .strayStatement
  else if i.isImport && !afterImport then some .lateImport
  else none

/-- The diagnostics about the item, with its first lexeme at `pos`. -/
def diagnostics (afterImport : Bool) (pos : Pos) (i : Item) : List Diagnostic :=
  (i.complaint? afterImport).toList.map fun c => ⟨pos, .syntactic c i.first.describe⟩

/-- The diagnostics about some items of which the first one starts at the scan at `k`. -/
def complaints (base : Base) (scans : List Scan) : Nat → Bool → List Item → List Diagnostic
  | _, _, [] => []
  | k, afterImport, i :: rest =>
    i.diagnostics afterImport ⟨baseUpTo base scans (k + 1), i.first.place⟩ ++
      complaints base scans (k + i.lexemes.length) i.isImport rest

/-- The items have the same lexemes, but for places and what tokens do not carry. -/
structure Like (i' i : Item) : Prop where
  isStray : i'.isStray = i.isStray
  run : List.Forall₂ Lexeme.Like i'.run i.run
  semi : i'.semi.Like i.semi

/-- The declarations of some items, with `g` groups before them and `g'` after them. -/
inductive Declare : List Item → List Decl → Nat → Nat → Prop
  | nil {g} : Declare [] [] g g
  | stray {i rest ds g g'} : i.isStray = true → i.semi.token = .semi →
      (∀ l ∈ i.run, l.token ∉ ParseM.strayFollow) → Declare rest ds g g' → Declare (i :: rest) ds g g'
  | declaration {i rest keyword ds ds' g g' g''} : i.isStray = false → i.semi.token = .semi →
      SpellsTop keyword ds g i.run g' [] → Declare rest ds' g' g'' →
      Declare (i :: rest) (ds ++ ds') g g''

variable {items : List Item} {g g' : Nat} {ds : List Decl}

/-- Whatever is well-formed has declarations. -/
theorem exists_declare (h : ∀ i ∈ items, i.WellFormed) (g : Nat) : ∃ ds g', Declare items ds g g' := by
  induction items generalizing g with
  | nil => exact ⟨[], g, .nil⟩
  | cons i rest ih =>
    have hi := h i List.mem_cons_self
    have hrest := fun i' hi' => h i' (List.mem_cons_of_mem _ hi')
    cases hs : i.isStray with
    -- A stray run declares nothing and leaves the number of groups as it is.
    | true =>
      obtain ⟨ds, g', hds⟩ := ih hrest g
      exact ⟨ds, g', .stray hs hi.semi (hi.stray hs) hds⟩
    | false =>
      have htop : ∃ keyword ds g', SpellsTop keyword ds g i.run g' [] := by
        rcases (hi.declaration hs).means hasTree with himport | hdecl
        · obtain ⟨ds, g', hds⟩ := himport (by simp) g
          exact ⟨_, ds, g', hds⟩
        · obtain ⟨keyword, ds, g', -, hds⟩ := hdecl (by simp) g
          exact ⟨keyword, ds, g', hds⟩
      obtain ⟨keyword, ds, g', hds⟩ := htop
      obtain ⟨ds', g'', hds'⟩ := ih hrest g'
      exact ⟨_, g'', .declaration hs hi.semi hds hds'⟩

/-- The lexemes of some items are those of the first one, its semicolon, and those of the rest. -/
theorem flatMap_lexemes (i : Item) (rest : List Item) :
    (i :: rest).flatMap lexemes = i.run ++ i.semi :: rest.flatMap lexemes := by
  rw [List.flatMap_cons, lexemes, List.append_assoc]
  rfl

/-- The declarations are the same without what is stray. -/
theorem Declare.withoutStrays (h : Declare items ds g g') :
    Declare (items.filter fun i => !i.isStray) ds g g' := by
  induction h with
  | nil => exact .nil
  | stray hs _ _ _ ih =>
    rw [List.filter_cons_of_neg (by simp [hs])]
    exact ih
  | declaration hs hsemi hds _ ih =>
    rw [List.filter_cons_of_pos (by simp [hs])]
    exact .declaration hs hsemi hds ih

/-- The declarations are the same with lexemes like those. -/
theorem Declare.like {items' : List Item} (h : Declare items ds g g')
    (hitems : List.Forall₂ Like items' items) : Declare items' ds g g' := by
  induction h generalizing items' with
  | nil =>
    cases hitems
    exact .nil
  | stray hs hsemi hrun _ ih =>
    cases hitems with
    | cons hi hrest =>
      refine .stray (hi.isStray.trans hs) (hi.semi.is hsemi) (fun l' hl' => ?_) (ih hrest)
      obtain ⟨l, hl, hlike⟩ := exists_like_of_mem hi.run l' hl'
      exact hlike.token ▸ hrun l hl
  | declaration hs hsemi hds _ ih =>
    cases hitems with
    | cons hi hrest =>
      have hds' := hds.like (show peek [] ≠ .lbrace by simp) hi.run
      rw [List.append_nil] at hds'
      exact .declaration (hi.isStray.trans hs) (hi.semi.is hsemi) hds' (ih hrest)

end Item

namespace Parser.Poised

variable {base : Base} {scans : List Scan} {w : Said} {g : Nat} {ts : List Lexeme} {p : Parser} {i : Item}

/-- After what is stray the parser is at the semicolon, and has complained. -/
theorem passStray (h : p.Poised base scans w g (i.run ++ i.semi :: ts)) (hsemi : i.semi.token = .semi)
    (hrun : ∀ l ∈ i.run, l.token ∉ ParseM.strayFollow) :
    ((p.complainAt p.here .strayStatement).recover ParseM.strayFollow).Poised base scans
      (w.add ⟨p.here, .syntactic .strayStatement i.first.describe⟩) g (i.semi :: ts) := by
  have hend : i.semi.token ∈ ParseM.strayFollow := by
    rw [hsemi]
    decide
  exact (h.complain .strayStatement).recover hrun hend

/-- An import is complained about if it is late. -/
theorem complainIfLate {q : Parser} (afterImport : Bool)
    (h : p.Poised base scans w g (i.run ++ i.semi :: ts)) (hs : i.isStray = false)
    (hq : q = if i.isImport = true ∧ afterImport = false then p.complainAt p.here .lateImport else p) :
    ∃ w' : Said, q.Poised base scans w' g (i.run ++ i.semi :: ts) ∧
      w'.diagnostics = w.diagnostics ++ i.diagnostics afterImport p.here := by
  rw [hq, Item.diagnostics, Item.complaint?, hs, if_neg Bool.false_ne_true]
  by_cases hlate : i.isImport = true ∧ afterImport = false
  · rw [if_pos hlate, if_pos (by simp [hlate])]
    exact ⟨_, h.complain .lateImport, rfl⟩
  · rw [if_neg hlate, if_neg (by simpa using hlate)]
    exact ⟨w, h, (List.append_nil _).symm⟩

end Parser.Poised

/-! ## Going through the items -/

namespace ParseM

variable {base : Base} {scans : List Scan} {w : Said} {g g' : Nat} {ts us : List Lexeme} {l : Lexeme}
  {p : Parser} {budget : Nat} {afterImport : Bool}

/-- Only what recovery looks for starts a declaration. -/
theorem topLevelAt_of_notMem {t : Token} (h : t ∉ strayFollow) : topLevelAt t budget = none := by
  cases t with
  | keyword k => cases k <;> first | rfl | exact absurd (by decide) h
  | _ => rfl

/-- Semicolons between declarations are passed over. -/
theorem run_topLevels_semi (ht : p.token = .semi) :
    (topLevels afterImport (budget + 1)).run p = (topLevels afterImport budget).run p.next := by
  rw [topLevels, run_bind, run_token]
  dsimp only
  rw [if_neg (by simp [ht]), if_pos ht]
  rfl

/-- What starts no declaration is complained about, and passed over. -/
theorem run_topLevels_stray (ht : p.token ≠ .eof) (hp : p.token ∉ strayFollow) :
    (topLevels afterImport (budget + 1)).run p =
      (topLevels false budget).run ((p.complainAt p.here .strayStatement).recover strayFollow) := by
  have hne {t : Token} (h : t ∈ strayFollow) : p.token ≠ t := fun heq => hp (heq ▸ h)
  have himport : decide (p.token = .keyword .importWord) = false := decide_eq_false (hne (by decide))
  rw [topLevels, run_bind, run_token]
  dsimp only
  rw [if_neg ht, if_neg (hne (by decide)), himport, topLevelAt_of_notMem hp]
  rfl

/-- A declaration is read, perhaps with a complaint about an import that is late, and then the rest. -/
theorem run_topLevels_declaration {keyword : Keyword} {action : ParseM (List Decl)}
    (ht : p.token = .keyword keyword) (ha : topLevelAt (.keyword keyword) budget = some action)
    {q : Parser} (hq : q = if keyword = .importWord ∧ afterImport = false
      then p.complainAt p.here .lateImport else p) :
    (topLevels afterImport (budget + 1)).run p =
      let r := action.run q
      let s := (endTopLevel q.count).run r.2
      let t := (topLevels (decide (keyword = .importWord)) budget).run s.2
      (r.1 ++ t.1, t.2) := by
  have hword : decide (Token.keyword keyword = .keyword .importWord) = decide (keyword = .importWord) :=
    decide_eq_decide.mpr (by rw [Token.keyword.injEq])
  rw [topLevels, run_bind, run_token]
  dsimp only
  rw [ht, if_neg (by simp), if_neg (by simp), hword, ha, hq]
  by_cases hlate : keyword = .importWord ∧ afterImport = false
  · rw [if_pos hlate, if_pos (by simp [hlate])]
    rfl
  · rw [if_neg hlate, if_neg (by simpa using hlate)]
    rfl

/-- Each item is complained about as there is reason to, and the declarations are read. -/
theorem run_topLevels_items (afterImport : Bool) {items : List Item} {ds : List Decl}
    (hd : Item.Declare items ds g g') {k : Nat} (hp : p.Poised base scans w g (items.flatMap Item.lexemes))
    (hk : k + (items.flatMap Item.lexemes).length + 1 = scans.length)
    (hb : 16 * (items.flatMap Item.lexemes).length + 2 ≤ budget) :
    let r := (topLevels afterImport budget).run p
    Decl.unplacedEach r.1 = Decl.unplacedEach ds ∧
      r.2.diagnostics = w.diagnostics ++ Item.complaints base scans k afterImport items := by
  -- Item by item, where `k` counts the scans behind the one that stands.
  induction hd generalizing p w budget afterImport k with
  | nil =>
    obtain ⟨hq, hds⟩ := hp.run (routine_topLevels afterImport budget)
      (takes_topLevels_nil afterImport (by omega))
    refine ⟨by rw [hds], ?_⟩
    rw [Item.complaints, List.append_nil]
    exact congrArg Said.diagnostics hq.on.said
  | @stray i rest ds g g' hs hsemi hrun _ ih =>
    rw [Item.flatMap_lexemes] at hp hk hb
    have hhere := hp.here hk
    simp only [List.length_append, List.length_cons] at hk hb
    obtain ⟨budget, rfl⟩ := Nat.exists_eq_add_of_le' (show 2 ≤ budget by omega)
    have htoken : p.token = i.first.token := hp.on.token
    have hfine : i.first.Fine := hp.on.fine _ (List.mem_append_left _ List.mem_cons_self)
    have hstray := hrun i.first List.mem_cons_self
    have hpass := hp.passStray hsemi hrun
    have himport : i.isImport = false := decide_eq_false fun h => hstray (h ▸ by decide)
    -- The complaint, and the semicolon after what is passed over, cost a turn each.
    rw [run_topLevels_stray (htoken ▸ hfine.token_ne) (htoken ▸ hstray),
      run_topLevels_semi (hpass.on.token.trans hsemi)]
    have hlength : i.lexemes.length = i.run.length + 1 := List.length_append
    have hk' : k + i.lexemes.length + (rest.flatMap Item.lexemes).length + 1 = scans.length := by omega
    have hb' : 16 * (rest.flatMap Item.lexemes).length + 2 ≤ budget := by omega
    obtain ⟨hds, hsaid⟩ := ih false hpass.next hk' hb'
    refine ⟨hds, ?_⟩
    rw [hsaid, hhere, Said.add, Item.complaints, Item.diagnostics, Item.complaint?, if_pos hs, himport,
      List.append_assoc]
    rfl
  | @declaration i rest keyword ds ds' g g' g'' hs hsemi hds _ ih =>
    rw [Item.flatMap_lexemes] at hp hk hb
    have hhere := hp.here hk
    simp only [List.length_append, List.length_cons] at hk hb
    obtain ⟨budget, rfl⟩ := Nat.exists_eq_add_of_le' (show 1 ≤ budget by omega)
    have hfirst : i.first.token = .keyword keyword := hds.first
    have himport : i.isImport = decide (keyword = .importWord) := by
      unfold Item.isImport
      exact decide_eq_decide.mpr (by rw [hfirst, Token.keyword.injEq])
    have hpeek : peek (i.semi :: rest.flatMap Item.lexemes) = .semi := hsemi
    have hbrace : peek (i.semi :: rest.flatMap Item.lexemes) ≠ .lbrace := by
      rw [hpeek]
      decide
    have htop := hds.like hbrace (List.forall₂_same.mpr fun l _ => .refl l)
    have hb₁ : 16 * (i.run ++ i.semi :: rest.flatMap Item.lexemes).length ≤ budget := by
      rw [List.length_append, List.length_cons]
      omega
    obtain ⟨action, haction, htakes⟩ := takes_top htop (by rw [hpeek]; rfl) hb₁
    rw [htop.first] at haction
    -- Before the declaration there may be a complaint, and after it there is the semicolon.
    generalize hq : (if keyword = .importWord ∧ afterImport = false
      then p.complainAt p.here .lateImport else p) = q
    obtain ⟨w', hbefore, hw'⟩ := hp.complainIfLate afterImport hs
      (show q = _ by rw [himport, ← hq]; simp only [decide_eq_true_eq])
    obtain ⟨hread, hds₁⟩ := hbefore.run (routine_topLevelAt haction) htakes
    obtain ⟨hafter, -⟩ := hread.run (routine_endTopLevel q.count) (takes_endTopLevel q.count hsemi)
    have hlength : i.lexemes.length = i.run.length + 1 := List.length_append
    have hk' : k + i.lexemes.length + (rest.flatMap Item.lexemes).length + 1 = scans.length := by omega
    have hb' : 16 * (rest.flatMap Item.lexemes).length + 2 ≤ budget := by omega
    obtain ⟨hds₂, hsaid⟩ := ih i.isImport hafter hk' hb'
    rw [run_topLevels_declaration (hp.on.token.trans hfirst) haction hq.symm, ← himport]
    refine ⟨?_, ?_⟩
    · rw [Decl.unplacedEach_append, Decl.unplacedEach_append, hds₁, hds₂]
    · rw [hsaid, hw', hhere, Item.complaints, List.append_assoc]

end ParseM

/-! ## Whole files -/

/-- A file as it is read: its header, and what stands at its top. -/
structure Outline where
  header : Lexeme
  name : Lexeme
  semi : Lexeme
  items : List Item

namespace Outline

/-- The lexemes of the file: its header, its semicolon, and its items. -/
def lexemes (o : Outline) : List Lexeme := o.header :: o.name :: o.semi :: o.items.flatMap Item.lexemes

/-- The file without what is stray. -/
def withoutStrays (o : Outline) : Outline := { o with items := o.items.filter fun i => !i.isStray }

/-- The files have the same lexemes, but for places and what tokens do not carry. -/
structure Like (o' o : Outline) : Prop where
  header : o'.header.Like o.header
  name : o'.name.Like o.name
  semi : o'.semi.Like o.semi
  items : List.Forall₂ Item.Like o'.items o.items

/-- A file starts with a header. -/
structure HasHeader (o : Outline) : Prop where
  header : o.header.token = .keyword .moduleWord
  name : o.name.token = .name
  semi : o.semi.token = .semi

/-- A file that is like one with a header has one. -/
theorem HasHeader.like {o o' : Outline} (h : o.HasHeader) (ho : o'.Like o) : o'.HasHeader where
  header := ho.header.is h.header
  name := ho.name.is h.name
  semi := ho.semi.is h.semi

/-- A file starts with a header, and its items are well formed. -/
structure WellFormed (o : Outline) : Prop extends o.HasHeader where
  items : ∀ i ∈ o.items, i.WellFormed

/-- The scans are those of the file up to the end of the input, and nothing is wrong with the lexemes
themselves. -/
structure Carried (o : Outline) (scans : List Scan) : Prop where
  lexemes : ∃ e, scans.map Scan.lexeme = o.lexemes ++ [e] ∧ e.token = .eof
  fine : ∀ l ∈ o.lexemes, l.Fine
  calm : ∀ scan ∈ scans, ∀ report ∈ scan.reports, report.Calm

/-- A reader with whose lexemes nothing is wrong carries the file that they make up. -/
theorem carried_of_calm {o : Outline} {r : Reader} (hr : r.Calm) (ho : o.lexemes = r.lexemes) :
    o.Carried r.scans := by
  obtain ⟨e, hscans, he, -⟩ := r.lexemes_append
  exact ⟨⟨e, ho ▸ hscans, he⟩, ho ▸ hr.fine, hr⟩

/-- What there is to complain about, with the items behind the three lexemes of the header. -/
def complaints (o : Outline) (base : Base) (scans : List Scan) : List Diagnostic :=
  Item.complaints base scans 3 true o.items

end Outline

namespace Parser

variable {o : Outline} {base : Base} {scans : List Scan}

/-- At the start a parser is before all lexemes of the file. -/
theorem poised_start {o : Outline} (h : o.Carried scans) (base : Base) (verbose : Bool) :
    (start base scans true verbose).Poised base scans .nothing 0 o.lexemes := by
  obtain ⟨e, hscans, he⟩ := h.lexemes
  constructor
  case on => exact at_start hscans he h.fine h.calm base true verbose
  case reached =>
    cases scans with
    | nil => simp at hscans
    | cons scan rest => exact ⟨0, (atScan_start base scan rest verbose).1⟩
  case functions => exact (Restores.next _).functions

/-- A tolerant run reads the header and then the items. -/
theorem parseFile_outline {ds : List Decl} {g : Nat} (ho : o.HasHeader) (h : o.Carried scans)
    (hd : Item.Declare o.items ds 0 g) (base : Base) (verbose : Bool) :
    let p := start base scans true verbose
    ∃ f, p.parseFile.1 = .ok f ∧ Decl.unplacedEach f.decls = Decl.unplacedEach ds ∧
      p.parseFile.2.diagnostics = o.complaints base scans := by
  intro p
  have hp : p.Poised base scans .nothing 0 o.lexemes := poised_start h base verbose
  rw [parseFile_of_tolerant hp.tolerant]
  unfold ParseM.file
  rw [ParseM.run_traced]
  have hentered := hp.enter .file
  generalize Move.apply (.enter .file) p = q at hentered
  -- the header
  have hheader : q.token = .keyword .moduleWord := hentered.on.token.trans ho.header
  obtain ⟨hname, -⟩ := hentered.next.run ParseM.routine_ident (ParseM.takes_ident ho.name)
  have hremark := hname.trace ("module: " ++ (ParseM.ident.run q.next).1.text)
  obtain ⟨hsemi, -⟩ := hremark.run (ParseM.routine_want .semi) (Q := fun _ => True)
    (.onGot ho.semi (.pure trivial))
  -- the items
  have hlength : 3 + (o.items.flatMap Item.lexemes).length + 1 = scans.length := by
    obtain ⟨e, hscans, -⟩ := h.lexemes
    have := congrArg List.length hscans
    simp only [List.length_map, List.length_append, Outline.lexemes, List.length_cons, List.length_nil]
      at this
    omega
  have hbudget : 16 * (o.items.flatMap Item.lexemes).length + 2 ≤ p.budget := by
    rw [hp.on.budget_eq]
    simp only [Outline.lexemes, List.length_cons]
    omega
  obtain ⟨hds, hsaid⟩ := ParseM.run_topLevels_items true hd hsemi hlength hbudget
  simp only [ParseM.run_bind, ParseM.run_here, ParseM.run_current, ParseM.run_got, if_pos hheader,
    if_true, ParseM.run_remark, ParseM.run_pure]
  have hleave (q : Parser) : (Move.apply .leave q).diagnostics = q.diagnostics := diagnostics_trace _ _
  exact ⟨_, rfl, hds, (hleave _).trans hsaid⟩

/-- A stray run is isolated: it is complained about once, at its first lexeme, and apart from that the
file is read as it is read without stray runs, up to positions, whatever brackets, keywords and operators
these have. The only other complaints are about imports that come directly after something else than an
import. -/
theorem stray_runs_isolated (o o' : Outline) (ho : o.WellFormed) (ho' : o'.Like o.withoutStrays)
    (base base' : Base) (scans scans' : List Scan) (verbose verbose' : Bool) (h : o.Carried scans)
    (h' : o'.Carried scans') :
    let p := start base scans true verbose
    let q := start base' scans' true verbose'
    p.parseFile.2.diagnostics = o.complaints base scans ∧
      ∃ f f', p.parseFile.1 = .ok f ∧ q.parseFile.1 = .ok f' ∧
        Decl.unplacedEach f.decls = Decl.unplacedEach f'.decls := by
  intro p q
  obtain ⟨ds, g, hd⟩ := Item.exists_declare ho.items 0
  have hheader : o.withoutStrays.HasHeader := ⟨ho.header, ho.name, ho.semi⟩
  have hd' : Item.Declare o'.items ds 0 g := hd.withoutStrays.like ho'.items
  obtain ⟨f, hf, hds, hsaid⟩ := parseFile_outline ho.toHasHeader h hd base verbose
  obtain ⟨f', hf', hds', -⟩ := parseFile_outline (hheader.like ho') h' hd' base' verbose'
  exact ⟨hsaid, f, f', hf, hf', hds.trans hds'.symm⟩

/-- A stray run with an operator, a keyword and an unmatched parenthesis. -/
theorem stray_runs_isolated_operator :
    let r := Reader.ofBytes "module m; + if ); var x int;".toUTF8
    let r' := Reader.ofBytes "module m; var x int;".toUTF8
    ∃ o : Outline, o.WellFormed ∧ o.lexemes = r.lexemes ∧ (∃ i ∈ o.items, i.isStray = true) ∧
      (start (.file "") r.scans true false).parseFile.2.diagnostics = o.complaints (.file "") r.scans ∧
      ∃ f f', (start (.file "") r.scans true false).parseFile.1 = .ok f ∧
        (start (.file "") r'.scans true false).parseFile.1 = .ok f' ∧
        Decl.unplacedEach f.decls = Decl.unplacedEach f'.decls := by
  intro r r'
  have hr : r.Calm := Reader.calm_of_reports_eq_nil (by decide +kernel)
  have hr' : r'.Calm := Reader.calm_of_reports_eq_nil (by decide +kernel)
  have htexts : r.lexemes.map (fun l => (l.token, l.literal)) = [(.keyword .moduleWord, "module"),
      (.name, "m"), (.semi, "semicolon"), (.op, "semicolon"), (.keyword .ifWord, "if"), (.rparen, "if"),
      (.semi, "semicolon"), (.keyword .varWord, "var"), (.name, "x"), (.name, "int"),
      (.semi, "semicolon")] := by decide +kernel
  have htexts' : r'.lexemes.map (fun l => (l.token, l.literal)) = [(.keyword .moduleWord, "module"),
      (.name, "m"), (.semi, "semicolon"), (.keyword .varWord, "var"), (.name, "x"), (.name, "int"),
      (.semi, "semicolon")] := by decide +kernel
  -- From here on only what is known of the lexemes matters.
  clear_value r r'
  have carried {o : Outline} (ho : o.lexemes = r.lexemes) := Outline.carried_of_calm hr ho
  have carried' {o : Outline} (ho : o.lexemes = r'.lexemes) := Outline.carried_of_calm hr' ho
  generalize r.lexemes = ts at htexts carried
  generalize r'.lexemes = ts' at htexts' carried'
  simp only [List.map_eq_cons_iff, List.map_eq_nil_iff, Prod.mk.injEq] at htexts htexts'
  obtain ⟨k, _, rfl, ⟨hk, -⟩, n, _, rfl, ⟨hn, hn₁⟩, s, _, rfl, ⟨hs, -⟩, op, _, rfl, ⟨hop, -⟩, i, _, rfl,
    ⟨hi, -⟩, rp, _, rfl, ⟨hrp, -⟩, s₁, _, rfl, ⟨hs₁, -⟩, v, _, rfl, ⟨hv, -⟩, y, _, rfl, ⟨hy, hy₁⟩,
    t, _, rfl, ⟨ht, ht₁⟩, s₂, _, rfl, ⟨hs₂, -⟩, rfl⟩ := htexts
  obtain ⟨k', _, rfl, ⟨hk', -⟩, n', _, rfl, ⟨hn', hn₁'⟩, s', _, rfl, ⟨hs', -⟩, v', _, rfl, ⟨hv', -⟩,
    y', _, rfl, ⟨hy', hy₁'⟩, t', _, rfl, ⟨ht', ht₁'⟩, s₂', _, rfl, ⟨hs₂', -⟩, rfl⟩ := htexts'
  let o : Outline := ⟨k, n, s, [⟨true, op, [i, rp], s₁⟩, ⟨false, v, [y, t], s₂⟩]⟩
  let o' : Outline := ⟨k', n', s', [⟨false, v', [y', t'], s₂'⟩]⟩
  -- The declaration that the outlines have in common is derived once.
  have hvar : Derives .closed (.ref .decl) [v, y, t] [] :=
    .ref (.orRight (.orLeft ((Derives.tok hv).append (.orLeft (.ref
      ((Derives.tok hy).append (.orRight (.append (.ref (.orLeft (.tok ht))) .skip))))))))
  have ho : o.WellFormed := by
    constructor
    case toHasHeader => exact ⟨hk, hn, hs⟩
    case items =>
      refine List.forall_mem_cons.mpr ⟨?_, List.forall_mem_singleton.mpr ?_⟩
      · exact ⟨hs₁, fun _ => by simp [Item.run, hop, hi, hrp], nofun⟩
      · exact ⟨hs₂, nofun, fun _ => .right hvar⟩
  have hname {l' l : Lexeme} {name : String} (h' : l'.token = .name) (h : l.token = .name)
      (h₁' : l'.literal = name) (h₁ : l.literal = name) : l'.Like l :=
    ⟨h'.trans h.symm, fun _ => h₁'.trans h₁.symm, by simp [h], by simp [h], by simp [h]⟩
  have hmark {l' l : Lexeme} {t : Token} (h' : l'.token = t) (h : l.token = t)
      (ht : t ∉ [.name, .literal, .op, .star, .assignOp, .incOp]) : l'.Like l := by
    refine ⟨h'.trans h.symm, ?_, ?_, ?_, ?_⟩ <;> simp_all
  have ho' : o'.Like o.withoutStrays := by
    refine ⟨hmark hk' hk (by decide), hname hn' hn hn₁' hn₁, hmark hs' hs (by decide), ?_⟩
    refine .cons ⟨rfl, ?_, hmark hs₂' hs₂ (by decide)⟩ .nil
    exact .cons (hmark hv' hv (by decide)) (.cons (hname hy' hy hy₁' hy₁) (.cons (hname ht' ht ht₁' ht₁) .nil))
  exact ⟨o, ho, rfl, ⟨_, List.mem_cons_self, rfl⟩, stray_runs_isolated o o' ho ho' (.file "") (.file "")
    r.scans r'.scans false false (carried rfl) (carried' rfl)⟩

/-- An import that comes directly after another declaration is complained about, also where nothing is
stray. -/
theorem late_import_without_stray :
    let r := Reader.ofBytes "module m; var x int; import \"a\";".toUTF8
    ∃ o : Outline, o.WellFormed ∧ o.Carried r.scans ∧ (∀ i ∈ o.items, i.isStray = false) ∧
      (start (.file "") r.scans true false).parseFile.2.diagnostics.length ≠ 0 := by
  intro r
  have hr : r.Calm := Reader.calm_of_reports_eq_nil (by decide +kernel)
  have hsaid : (start (.file "") r.scans true false).parseFile.2.diagnostics.length ≠ 0 := by
    decide +kernel
  have htokens : r.lexemes.map (fun l => (l.token, l.kind)) = [(.keyword .moduleWord, .int),
      (.name, .int), (.semi, .int), (.keyword .varWord, .int), (.name, .int), (.name, .int), (.semi, .int),
      (.keyword .importWord, .int), (.literal, .string), (.semi, .string)] := by decide +kernel
  clear_value r
  have carried {o : Outline} (ho : o.lexemes = r.lexemes) := Outline.carried_of_calm hr ho
  generalize r.lexemes = ts at htokens carried
  -- The lexemes by name, so that the outline can be written down.
  simp only [List.map_eq_cons_iff, List.map_eq_nil_iff, Prod.mk.injEq] at htokens
  obtain ⟨k, _, rfl, ⟨hk, -⟩, n, _, rfl, ⟨hn, -⟩, s, _, rfl, ⟨hs, -⟩, v, _, rfl, ⟨hv, -⟩, y, _, rfl, ⟨hy, -⟩,
    t, _, rfl, ⟨ht, -⟩, s₁, _, rfl, ⟨hs₁, -⟩, i, _, rfl, ⟨hi, -⟩, a, _, rfl, ⟨ha, hstring⟩,
    s₂, _, rfl, ⟨hs₂, -⟩, rfl⟩ := htokens
  let o : Outline := ⟨k, n, s, [⟨false, v, [y, t], s₁⟩, ⟨false, i, [a], s₂⟩]⟩
  -- Both items parse: what the parser says is of their order.
  have hvar : Derives .closed (.ref .decl) [v, y, t] [] :=
    .ref (.orRight (.orLeft ((Derives.tok hv).append (.orLeft (.ref
      ((Derives.tok hy).append (.orRight (.append (.ref (.orLeft (.tok ht))) .skip))))))))
  have himport : Derives .closed (.ref .importDecl) [i, a] [] :=
    .ref ((Derives.tok hi).append (.orLeft (.ref (.lexeme ⟨ha, hstring⟩))))
  have ho : o.WellFormed := by
    constructor
    case toHasHeader => exact ⟨hk, hn, hs⟩
    case items =>
      refine List.forall_mem_cons.mpr ⟨?_, List.forall_mem_singleton.mpr ?_⟩
      · exact ⟨hs₁, nofun, fun _ => .right hvar⟩
      · exact ⟨hs₂, nofun, fun _ => .left himport⟩
  exact ⟨o, ho, carried rfl, by simp [o], hsaid⟩

end Parser

end FrontEnd
