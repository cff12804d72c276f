import FrontEnd.Proofs.Trees.Complete
import FrontEnd.Proofs.Trees.File
import FrontEnd.Proofs.Whole.Accepted
import FrontEnd.Proofs.Whole.Names

/-!
# Trees that are returned

Every tree that a parser returns is sound, and if nothing was said, complete (`sound_of_returned`). All
that is wrong with a tree has been said, with one exception: at the end of the input, a parser that has
complained before does not complain of a definition at the end of the clause of a `for`.
-/

namespace FrontEnd

namespace Parser

open ParseM

variable {p q : Parser} {f : File}

/-- A diagnostic is one in the log. -/
theorem mem_diagnostics {d : Diagnostic} : d ∈ p.diagnostics ↔ .diagnostic d ∈ p.log := by
  unfold diagnostics
  rw [List.mem_filterMap, ← Array.mem_toList_iff]
  constructor
  · rintro ⟨e, he, hd⟩
    cases e with
    | diagnostic d' =>
      cases hd
      exact he
    | trace => cases hd
  · exact fun h => ⟨_, h, rfl⟩

/-- The definition at `pos`, which ends the clause of a `for` with its block at `block`, has been
reported; or the block is where the input ends, and something else has been reported. -/
def Excused (p : Parser) (pos block : Pos) : Prop :=
  (∃ found, ⟨pos, .syntactic .declarationInPost found⟩ ∈ p.diagnostics) ∨
    p.diagnostics ≠ [] ∧ p.upcoming = [] ∧ p.here = block

/-- Nothing is excused where nothing is diagnosed. -/
theorem not_excused (h : p.diagnostics = []) (pos block : Pos) : ¬p.Excused pos block := by
  rintro (⟨found, hmem⟩ | ⟨hne, -⟩)
  · rw [h] at hmem
    cases hmem
  · exact hne h

/-- What a parser excuses is excused by what it has diagnosed. -/
theorem Excuses.excused {pos block : Pos} (h : p.Excuses pos block) (ht : p.tolerant = true)
    (hlogs : p.LogsFirst) : p.Excused pos block := by
  rcases h with ⟨found, hlog⟩ | hover
  · exact .inl ⟨found, mem_diagnostics.mpr hlog⟩
  · refine .inr ⟨fun hnone => ?_, hover.upcoming, hover.here⟩
    have hsaid := hover.said
    unfold HasSaid at hsaid
    rw [(hlogs.diagnostics_eq_nil ht).mp hnone] at hsaid
    cases hsaid

/-- A parser on the scans of a reader makes sound nodes. -/
theorem fit_start (base : Base) (r : Reader) (verbose : Bool) :
    (start base r.scans true verbose).Fit := by
  obtain ⟨hcurrent, hupcoming⟩ : (start base r.scans true verbose).current.Apt ∧ _ :=
    apt_next (Lexeme.apt_of_ne Token.noConfusion Token.noConfusion)
      fun _ hscan => Scanner.apt_of_mem_scans hscan
  exact ⟨(lasting_tolerant true).next rfl, ends_start base r true verbose, hcurrent, hupcoming⟩

/-- The declarations of a file are those of its parts. -/
theorem flatMap_decls_parts (f : File) : f.parts.flatMap Node.decls = f.allDecls := by
  rw [File.parts, List.flatMap_cons, Node.flatMap_decls_map .decl Decl.withInner fun _ => rfl,
    File.allDecls, Decl.withInnerEach_eq]
  rfl

/-- A tree that a tolerant parser returns is sound. -/
theorem sound_of_tolerant {base : Base} {r : Reader} {verbose : Bool}
    (h : (start base r.scans true verbose).parseFile = (.ok f, q)) : f.Sound q.Excused := by
  have hfit := fit_start base r verbose
  have hlogs := logsFirst_start base r.scans verbose
  obtain ⟨hfunctions, hstarved⟩ := books_start base r.scans true verbose
  generalize start base r.scans true verbose = p at h hfit hlogs hfunctions hstarved
  rw [parseFile_of_tolerant hfit.tolerant] at h
  obtain ⟨hleads, hbuilds⟩ : Ensures (file p.budget) p _ := builds_file hfit
  have hbuilt := hbuilds f (congrArg Prod.fst h)
  have halike := alike_file hfit.ends hfunctions p.le_budget p.le_budget
  -- The budget has not run out, which is the one excuse that would not be said.
  have hcut : ¬((file p.budget).run p).2.starved = true := by
    rw [halike.reaches.starved, hstarved]
    exact Bool.false_ne_true
  have hlogs' := lasting_logsFirst.run (routine_file p.budget) hlogs
  have hq : ((file p.budget).run p).2 = q := congrArg Prod.snd h
  rw [hq] at hbuilt hcut hlogs'
  have hclustered := hbuilt.clustered
  rw [flatMap_decls_parts] at hclustered
  refine ⟨fun n hn => ?_, hclustered.together⟩
  exact Node.Each.mono (hbuilt.sound n hn) fun m hm => hm.mono hcut fun _ _ he =>
    he.excused hbuilt.leads.fit.tolerant hlogs'

/-- A tree that it returns without a diagnostic is complete. -/
theorem complete_of_tolerant {base : Base} {r : Reader} {verbose : Bool}
    (h : (start base r.scans true verbose).parseFile = (.ok f, q)) (hnone : q.diagnostics = []) :
    f.Complete := by
  have hok : (start base r.scans true verbose).parseFile.1 = .ok f := congrArg Prod.fst h
  have hnone' : (start base r.scans true verbose).parseFile.2.diagnostics = [] := by
    rw [h]
    exact hnone
  have hcalm : r.Calm := calm_of_accepts ⟨⟨f, hok⟩, hnone'⟩
  have ht : (start base r.scans true verbose).tolerant = true := (lasting_tolerant true).next rfl
  have hspells := (hcalm.at_start base true verbose).spells ht (logsFirst_start base r.scans verbose)
    hok hnone'
  have hfault (scan) (hscan : scan ∈ r.scans) (e) : .error e ∉ scan.reports :=
    fun he => hcalm scan hscan _ he
  refine hspells.complete fun l hl => ⟨fun hname => ?_, (hcalm.fine l hl).bad⟩
  obtain ⟨scan, hscan, rfl⟩ := List.mem_map.mp (List.dropLast_subset _ hl)
  exact Reader.isIdentifier_of_mem_scans hfault hscan hname

/-- Every tree that is returned is sound, by a parser that goes on after a complaint or one that does not.
If nothing was said, no definition ends the clause of a `for`, and the tree is complete. -/
theorem sound_of_returned (base : Base) (r : Reader) (tolerant verbose : Bool)
    (h : (start base r.scans tolerant verbose).parseFile = (.ok f, q)) :
    f.Sound q.Excused ∧ (q.diagnostics = [] → f.Sound (fun _ _ => False) ∧ f.Complete) := by
  have hsilent {p : Parser} (hp : (start base r.scans true verbose).parseFile = (.ok f, p))
      (hnone : p.diagnostics = []) : f.Sound (fun _ _ => False) ∧ f.Complete :=
    ⟨(sound_of_tolerant hp).mono (not_excused hnone), complete_of_tolerant hp hnone⟩
  cases tolerant with
  | true => exact ⟨sound_of_tolerant h, hsilent h⟩
  | false =>
    rcases hasty_parseFile_cases base r.scans verbose with ⟨hsame, hnone⟩ | ⟨d, -, haborted⟩
    · rw [h] at hsame
      have hboth := hsilent (p := (start base r.scans true verbose).parseFile.2) (Prod.ext hsame.symm rfl) hnone
      exact ⟨hboth.1.mono fun _ _ => False.elim, fun _ => hboth⟩
    · rw [h] at haborted
      cases haborted

/-- A group of imports, and a `for` with a clause. -/
theorem sound_of_returned_group :
    let p := start (.file "") (Reader.ofBytes
      "module m\nimport (\"a\"; \"b\")\nfunc f() \x7b for ; ; x += 1 \x7b\x7d \x7d\n".toUTF8).scans true false
    p.parseFile.2.diagnostics = [] ∧
      ∃ f, p.parseFile.1 = .ok f ∧ f.Sound (fun _ _ => False) ∧ f.Complete := by
  intro p
  have hok : p.parseFile.1.isOk = true := by decide +kernel
  have hnone : p.parseFile.2.diagnostics = [] := by decide +kernel
  obtain ⟨f, hf⟩ := exists_eq_ok hok
  have hparse : p.parseFile = (.ok f, p.parseFile.2) := Prod.ext hf rfl
  exact ⟨hnone, f, hf, (sound_of_returned _ _ true false hparse).2 hnone⟩

/-- At the end of the input a parser that has complained about something else leaves out that there is a
definition at the end of the clause of a `for`. -/
theorem not_reported_at_end :
    let p := start (.file "") (Reader.ofBytes "module m\nfunc f() \x7b\nx y\nfor ;; x :=".toUTF8).scans
      true false
    ∃ f, p.parseFile.1 = .ok f ∧ p.parseFile.2.diagnostics.map (fun d => d.pos.place) = [⟨3, 3⟩] ∧
      ¬f.Each (Node.Sound False fun pos _ =>
        ∃ found, ⟨pos, .syntactic .declarationInPost found⟩ ∈ p.parseFile.2.diagnostics) := by
  intro p
  have hdefines : p.parseFile.1.toOption.any (fun f => (f.parts.flatMap (Node.downTo 3)).any
      fun n => n.loopDefinition?.any (fun pos => pos.place = ⟨4, 10⟩)) = true := by decide +kernel
  have hplaces : p.parseFile.2.diagnostics.map (fun d => d.pos.place) = [⟨3, 3⟩] := by decide +kernel
  cases hf : p.parseFile.1 with
  | error e =>
    rw [hf] at hdefines
    cases hdefines
  | ok f =>
    rw [hf] at hdefines
    refine ⟨f, rfl, hplaces, fun heach => ?_⟩
    -- The definition in the loop stands at 4:10, where nothing was said.
    obtain ⟨m, hm, hloop⟩ := List.any_eq_true.mp hdefines
    obtain ⟨n, hn, hm⟩ := List.mem_flatMap.mp hm
    obtain ⟨pos, hpos, hplace⟩ := (Option.any_eq_true _ _).mp hloop
    obtain ⟨_, found, hmem⟩ := (heach n hn m (Node.within_of_mem_downTo hm)).excused hpos
    have := List.mem_map_of_mem (f := fun d => d.pos.place) hmem
    rw [hplaces, List.mem_singleton] at this
    rw [this] at hplace
    cases hplace

end Parser

end FrontEnd
