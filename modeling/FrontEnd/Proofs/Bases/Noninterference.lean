import FrontEnd.Proofs.Bases.Blindness
import FrontEnd.Proofs.Gaps.Noticed
import FrontEnd.Proofs.Reworded.Scans

/-!
# Noninterference of bases

Reading a file is blind to bases (`parseFile_unbased`): a run tells nothing about the base that it started
with, nor about those that comments set up on the way, but in the bases of positions. So two runs over scans
that are the same but for such comments come to the same up to bases (`parseFile_sameUpToBases`).
-/

namespace FrontEnd

namespace Parser

variable (p : Parser)

/-- Without bases a parser is finished by the same failure. -/
theorem abortion?_unbased : p.unbased.abortion? = p.abortion?.map (Failure.mapPos .unbased) := by
  unfold abortion?
  change (if p.tolerant then none else (p.first?.map _).map _) = _
  split
  · rfl
  · cases p.first? <;> rfl

/-- Without bases the budget is the same. -/
theorem budget_unbased : p.unbased.budget = p.budget := by
  unfold budget unbased
  rw [List.length_map]

/-- Reading a file is blind to bases. -/
theorem parseFile_unbased :
    p.unbased.parseFile = (Failure.mapPosIn .unbased p.parseFile.1, p.parseFile.2.unbased) := by
  have hrun := ParseM.blind_file p.budget p
  unfold parseFile
  rw [abortion?_unbased, budget_unbased, hrun]
  cases p.abortion? with
  | some failure => rfl
  | none =>
    dsimp only [Option.map_none]
    rcases (ParseM.file p.budget).run p with ⟨failure | file, q⟩
    · rfl
    · dsimp only [Failure.mapPosIn]
      rw [abortion?_unbased]
      cases q.abortion? <;> rfl

/-- Without bases the diagnostics are the same, but for theirs. -/
theorem diagnostics_unbased : p.unbased.diagnostics = p.diagnostics.map (Diagnostic.mapPos .unbased) := by
  unfold diagnostics unbased
  rw [Array.toList_map, List.filterMap_map, List.map_filterMap]
  refine congrArg (List.filterMap · _) (funext fun e => ?_)
  cases e <;> rfl

end Parser

/-- What comes of two runs is the same up to the bases of positions. -/
structure SameUpToBases (ran ran' : Except Failure File × Parser) : Prop where
  result : Failure.mapPosIn .unbased ran.1 = Failure.mapPosIn .unbased ran'.1
  /-- In particular the same has been said, in the same order. -/
  parser : ran.2.unbased = ran'.2.unbased

namespace SameUpToBases

variable {ran ran' : Except Failure File × Parser}

/-- Runs that are the same up to bases have the same diagnostics up to theirs. -/
theorem diagnostics (h : SameUpToBases ran ran') :
    ran.2.diagnostics.map (Diagnostic.mapPos .unbased) =
      ran'.2.diagnostics.map (Diagnostic.mapPos .unbased) := by
  rw [← Parser.diagnostics_unbased, ← Parser.diagnostics_unbased, h.parser]

end SameUpToBases

/-- Runs over scans that are the same but for comments that only set up a base come to the same up to
bases. -/
theorem parseFile_sameUpToBases {scans scans' : List Scan} (base base' : Base) (tolerant verbose : Bool)
    (h : scans.map Scan.audible = scans'.map Scan.audible) :
    SameUpToBases (Parser.start base scans tolerant verbose).parseFile
      (Parser.start base' scans' tolerant verbose).parseFile := by
  have hstart : (Parser.start base scans tolerant verbose).unbased =
      (Parser.start base' scans' tolerant verbose).unbased := by
    rw [Parser.start_unbased, Parser.start_unbased, h]
  have hrun := (Parser.parseFile_unbased _).symm.trans
    ((congrArg Parser.parseFile hstart).trans (Parser.parseFile_unbased _))
  exact ⟨congrArg Prod.fst hrun, congrArg Prod.snd hrun⟩

/-- The scans of readers of two sources that differ in the word of a comment that sets up a base are the same
up to what is reported of that comment. -/
theorem Reader.audible_scans_commented {r r' : Reader} {front back : ByteArray} {x : Char} {word : List Char}
    (hx : x ∈ markerSeconds) (hword : CharStream.IsSubstitute word)
    (hr : r.Hands (commented front x CharStream.lineWord back) none)
    (hr' : r'.Hands (commented front x word back) none)
    (hn : r.NoticesNuls (commented front x CharStream.lineWord back))
    (hn' : r'.NoticesNuls (commented front x word back))
    (hmeets : (Scanner.ofWindow (Cursor.ofBytes (commented front x CharStream.lineWord back))).MeetsBase
      front.size) :
    r.scans.map Scan.audible = r'.scans.map Scan.audible := by
  rw [scans_eq_of_noticesNuls hn hr, scans_eq_of_noticesNuls hn' hr']
  exact Scanner.audible_scans_commented hx hword hmeets

/-- **Bases never influence parsing.** Whatever a reader delivers, runs with two bases, both tolerant or
not and both with a trace or without, come to the same up to the bases of positions. And so do runs on two
sources, if a comment that sets up a base in one of them starts in the other with another word of the same
length, and no NUL byte is missed. -/
theorem bases_without_influence (r : Reader) (base base' : Base) (tolerant verbose : Bool) :
    SameUpToBases (Parser.start base r.scans tolerant verbose).parseFile
        (Parser.start base' r.scans tolerant verbose).parseFile ∧
      ∀ {front back : ByteArray} {x : Char} {word : List Char} {r' : Reader},
        x ∈ markerSeconds → CharStream.IsSubstitute word →
        r.Hands (commented front x CharStream.lineWord back) none →
        r'.Hands (commented front x word back) none →
        r.NoticesNuls (commented front x CharStream.lineWord back) →
        r'.NoticesNuls (commented front x word back) →
        (Scanner.ofWindow (Cursor.ofBytes (commented front x CharStream.lineWord back))).MeetsBase front.size →
        SameUpToBases (Parser.start base r.scans tolerant verbose).parseFile
          (Parser.start base' r'.scans tolerant verbose).parseFile := by
  constructor
  · exact parseFile_sameUpToBases base base' tolerant verbose rfl
  · intro front back x word r' hx hword hr hr' hn hn' hmeets
    exact parseFile_sameUpToBases base base' tolerant verbose
      (Reader.audible_scans_commented hx hword hr hr' hn hn' hmeets)

/-- A directive on a line of its own, and the same comment with another word. -/
theorem bases_without_influence_lime :
    let r := Reader.ofBytes "module m\n//line f:1\nvar x\n".toUTF8
    let r' := Reader.ofBytes "module m\n//lime f:1\nvar x\n".toUTF8
    SameUpToBases (Parser.start (.file "g") r.scans true false).parseFile
      (Parser.start (.file "h") r'.scans true false).parseFile := by
  intro r r'
  let front := "module m\n".toUTF8
  let back := " f:1\nvar x\n".toUTF8
  have hbytes : "module m\n//line f:1\nvar x\n".toUTF8 = commented front '/' CharStream.lineWord back := by
    decide +kernel
  have hbytes' : "module m\n//lime f:1\nvar x\n".toUTF8 = commented front '/' "lime".toList back := by
    decide +kernel
  have hr : r.Hands _ none := (Reader.delivers_ofBytes _).hands
  have hr' : r'.Hands _ none := (Reader.delivers_ofBytes _).hands
  have hn : r.NoticesNuls _ := Reader.noticesNuls_ofBytes (by decide) (by decide)
  have hn' : r'.NoticesNuls _ := Reader.noticesNuls_ofBytes (by decide) (by decide)
  rw [hbytes] at hr hn
  rw [hbytes'] at hr' hn'
  have hword : CharStream.IsSubstitute "lime".toList := ⟨by decide, by decide, by decide⟩
  -- A keyword, a name and a separator come before the comment.
  have hmeets : (Scanner.ofWindow (Cursor.ofBytes (commented front '/' CharStream.lineWord back))).MeetsBase
      front.size :=
    .later _ (.later _ (.later _ (.here _ "//line f:1" (by decide +kernel) (by decide +kernel)
      (by decide +kernel) (by decide +kernel))))
  exact (bases_without_influence r (.file "g") (.file "h") true false).2 (by decide) hword hr hr' hn hn' hmeets

end FrontEnd
