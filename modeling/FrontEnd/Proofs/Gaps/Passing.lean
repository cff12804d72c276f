import FrontEnd.Proofs.Gaps.Comments

/-!
# Passing over what is between tokens

What a scanner passes over between tokens is a sequence of crossings: passages that stand in the bytes one
behind the other (`Crossings`). `Passing` says that a stream has passed over some crossings: they fit together
and with the character it has come to, the characters that no token starts with have been rejected, and
the comments that may be directives have been told of, in order.
-/

namespace FrontEnd

/-- A passage with the offset where it starts and that where the next character stands. -/
structure Crossing where
  passage : Passage
  start : Nat
  stop : Nat
deriving DecidableEq, Repr

/-- Whether the passage is a comment that is told of as a directive. -/
def Passage.mayDirect : Passage → Bool
  | lineComment text | blockComment text => CharStream.directiveWord.isPrefixOf text
  | blank _ | stray _ | openComment _ => false

/-- Where the crossing starts and stops, if it is told of as a directive. -/
def Crossing.span? (p : Crossing) : Option (Nat × Nat) :=
  if p.passage.mayDirect then some (p.start, p.stop) else none

/-- Whether the passage is a comment without a closing marker. -/
def Passage.isOpen : Passage → Bool
  | openComment _ => true
  | blank _ | stray _ | lineComment _ | blockComment _ => false

/-- Where the crossing starts, if it is a comment without a closing marker. -/
def Crossing.unclosed? (p : Crossing) : Option Nat := if p.passage.isOpen then some p.start else none

/-- The characters of some crossings. -/
def Crossing.charsOf (ps : List Crossing) : List Char := (ps.map Crossing.passage).flatMap Passage.chars

/-- The characters of crossings one behind the other. -/
@[simp] theorem Crossing.charsOf_append (ps qs : List Crossing) :
    Crossing.charsOf (ps ++ qs) = Crossing.charsOf ps ++ Crossing.charsOf qs := by
  unfold Crossing.charsOf
  rw [List.map_append, List.flatMap_append]

/-- From offset `i` to offset `k` stand the crossings one behind the other, each with its first character
where it starts. -/
inductive Crossings (r : Reader) (bytes : ByteArray) : Nat → List Crossing → Nat → Prop
  | nil {i} : Crossings r bytes i [] i
  | cons {i passage fs j ps k} : bytes.utf8DecodeChar? i = passage.chars.head? →
      Decodes r bytes i fs j → heard fs = passage.chars → Crossings r bytes j ps k →
      Crossings r bytes i (⟨passage, i, j⟩ :: ps) k

/-- Crossings behind crossings. -/
theorem Crossings.append {r : Reader} {bytes : ByteArray} {i j k : Nat} {ps qs : List Crossing}
    (h : Crossings r bytes i ps j) (h' : Crossings r bytes j qs k) : Crossings r bytes i (ps ++ qs) k := by
  induction h with
  | nil => exact h'
  | cons hhead hdecodes hheard _ ih => exact .cons hhead hdecodes hheard (ih h')

namespace CharStream

variable {r : Reader} {bytes : ByteArray} {exact : Prop} {mark? : Option Nat}
  {s t u : CharStream Buffer} {ps qs : List Crossing} {told told' : List Remark}

/-- The stream has passed over `ps` and told `told` on the way. -/
structure Passing (r : Reader) (bytes : ByteArray) (exact : Prop) (s t : CharStream Buffer)
    (ps : List Crossing) (told : List Remark) : Prop where
  crossings : Crossings r bytes (s.offset r.bytesLeft) ps (t.offset r.bytesLeft)
  stretch : ∃ fs, Stretch r bytes exact s t fs told ∧ heard fs = Crossing.charsOf ps
  gap : Gap (ps.map Crossing.passage) t.char?
  rejected_eq : told.filterMap Remark.rejected? = (ps.map Crossing.passage).filterMap Passage.stray?
  spans_eq : told.filterMap Remark.span? = ps.filterMap Crossing.span?
  unclosed_eq : told.filterMap Remark.unclosed? = ps.filterMap Crossing.unclosed?

/-- A stream that has not gone on has passed nothing. -/
theorem Sited.passing_nil (h : s.Sited r bytes exact mark?) : Passing r bytes exact s s [] [] :=
  ⟨.nil, ⟨[], h.refl.toStretch, rfl⟩, trivial, rfl, rfl, rfl⟩

/-- One crossing is passed over. -/
theorem Passing.single {fs : List Fetched} {p : Passage} (hs : s.Sited r bytes exact mark?)
    (h : Stretch r bytes exact s t fs told) (hheard : heard fs = p.chars) (hfits : p.Fits t.char?)
    (hrejected : told.filterMap Remark.rejected? = p.stray?.toList)
    (hspans : told.filterMap Remark.span? =
      if p.mayDirect then [(s.offset r.bytesLeft, t.offset r.bytesLeft)] else [])
    (hunclosed : told.filterMap Remark.unclosed? = if p.isOpen then [s.offset r.bytesLeft] else []) :
    Passing r bytes exact s t [⟨p, s.offset r.bytesLeft, t.offset r.bytesLeft⟩] told where
  -- The passage begins with the character that the stream stands at, and what was heard is its characters.
  crossings := by
    refine .cons ?_ h.account.decodes hheard .nil
    rw [hs.utf8DecodeChar?_eq, h.char?_eq, hheard]
    cases p <;> rfl
  stretch := ⟨fs, h, by rw [hheard]; exact (List.append_nil _).symm⟩
  gap := ⟨by simpa using hfits, trivial⟩
  rejected_eq := by
    rw [hrejected]
    cases hp : p.stray? <;> simp [hp]
  spans_eq := by
    rw [hspans]
    unfold Crossing.span?
    split <;> simp_all
  unclosed_eq := by
    rw [hunclosed]
    unfold Crossing.unclosed?
    split <;> simp_all

/-- Passing one thing after another. -/
theorem Passing.trans (h : Passing r bytes exact s t ps told) (h' : Passing r bytes exact t u qs told') :
    Passing r bytes exact s u (ps ++ qs) (told ++ told') := by
  obtain ⟨fs, hstretch, hheard⟩ := h.stretch
  obtain ⟨gs, hstretch', hheard'⟩ := h'.stretch
  constructor
  case crossings => exact h.crossings.append h'.crossings
  case stretch =>
    refine ⟨_, hstretch.trans hstretch', ?_⟩
    rw [heard_append, hheard, hheard', Crossing.charsOf_append]
  case gap =>
    have hgap := h.gap
    rw [hstretch'.char?_eq, hheard'] at hgap
    rw [List.map_append]
    exact hgap.append h'.gap
  case rejected_eq =>
    rw [List.filterMap_append, h.rejected_eq, h'.rejected_eq, List.map_append, List.filterMap_append]
  case spans_eq => rw [List.filterMap_append, h.spans_eq, h'.spans_eq, List.filterMap_append]
  case unclosed_eq => rw [List.filterMap_append, h.unclosed_eq, h'.unclosed_eq, List.filterMap_append]

/-- A stream passes the same with a mark as without. -/
theorem Passing.ofClearMark (h : Passing r bytes exact s.clearMark t ps told) :
    Passing r bytes exact s t ps told := by
  obtain ⟨fs, hstretch, hheard⟩ := h.stretch
  exact ⟨h.crossings, ⟨fs, hstretch.ofClearMark, hheard⟩, h.gap, h.rejected_eq, h.spans_eq, h.unclosed_eq⟩

/-- A mark may be set behind what has been passed. -/
theorem Passing.setMark (h : Passing r bytes exact s t ps told) :
    Passing r bytes exact s t.setMark ps told := by
  obtain ⟨fs, hstretch, hheard⟩ := h.stretch
  exact ⟨h.crossings, ⟨fs, hstretch.setMark, hheard⟩, h.gap, h.rejected_eq, h.spans_eq, h.unclosed_eq⟩

/-! ## Blanks -/

/-- What is blank where a newline separates is blank elsewhere. -/
theorem isBlank_of_isBlank {separable : Bool} {c : Char} (h : Scanner.isBlank separable c) :
    Scanner.isBlank false c := by
  cases separable with
  | false => exact h
  | true =>
    simp only [Scanner.isBlank, Bool.not_true, Bool.and_false, Bool.or_false, Bool.or_eq_true,
      decide_eq_true_eq, Bool.not_false, Bool.and_true] at h ⊢
    exact .inl h

/-- Where a newline separates, it is no blank. -/
theorem not_isBlank_newline : Scanner.isBlank true '\n' = false := by decide

/-- Blanks are passed over one by one. A newline is only one of them if nothing is to be separated. -/
theorem Sited.skipBlanks (h : s.Sited r bytes exact mark?) (separable : Bool) : ∃ ps told,
    (s.skipWhile (Scanner.isBlank separable)).Sited r bytes exact mark? ∧
      Passing r bytes exact s (s.skipWhile (Scanner.isBlank separable)) ps told ∧
      (separable → '\n' ∉ Crossing.charsOf ps) ∧
      (s.skipWhile (Scanner.isBlank separable)).char?.any (Scanner.isBlank separable) = false := by
  -- One passage for each blank, along the loop.
  fun_induction CharStream.skipWhile (Scanner.isBlank separable) s with
  | case1 s hp ih =>
    obtain ⟨fs, told, hsited, hrun, hheard⟩ := h.advance
    obtain ⟨ps, told', hsited', hpassing, hline, hstop⟩ := ih hsited
    obtain ⟨c, hc⟩ := Option.isSome_iff_exists.mp (Option.isSome_of_any hp)
    rw [hc] at hp hheard
    have hblank : Scanner.isBlank separable c := hp
    have hfirst := Passing.single (p := .blank c) h hrun.toStretch hheard (isBlank_of_isBlank hblank)
      hrun.plain.rejected_eq_nil hrun.plain.span_eq_nil hrun.plain.unclosed_eq_nil
    refine ⟨_, _, hsited', hfirst.trans hpassing, fun hs hmem => ?_, hstop⟩
    rw [Crossing.charsOf_append, List.mem_append] at hmem
    rcases hmem with hmem | hmem
    · rw [show c = '\n' from (List.mem_singleton.mp hmem).symm, hs, not_isBlank_newline] at hblank
      cases hblank
    · exact hline hs hmem
  | case2 s hp =>
    exact ⟨[], [], h, h.passing_nil, fun _ hmem => (List.not_mem_nil hmem).elim, by simpa using hp⟩

/-- Up to where the next token is looked for, blanks are passed over. -/
theorem Sited.toToken (h : s.Sited r bytes exact mark?) (separable : Bool) : ∃ ps told,
    (Scanner.toToken separable s).Sited r bytes exact
        (some ((Scanner.toToken separable s).offset r.bytesLeft)) ∧
      Passing r bytes exact s (Scanner.toToken separable s) ps told ∧
      (separable → '\n' ∉ Crossing.charsOf ps) ∧
      (Scanner.toToken separable s).char?.any (Scanner.isBlank separable) = false := by
  obtain ⟨ps, told, hsited, hpassing, hline, hstop⟩ := h.clearMark.skipBlanks separable
  exact ⟨ps, told, hsited.setMark, hpassing.ofClearMark.setMark, hline, hstop⟩

/-! ## Comments -/

/-- A comment that has been passed without telling of it. -/
theorem Run.passing {fs : List Fetched} {p : Passage} (h : Run r bytes exact s t fs told)
    (hs : s.Sited r bytes exact mark?)
    (hheard : heard fs = p.chars) (hfits : p.Fits t.char?) (hp : p.mayDirect = false)
    (hstray : p.stray? = none)
    (hclosed : p.isOpen = false) :
    Passing r bytes exact s t [⟨p, s.offset r.bytesLeft, t.offset r.bytesLeft⟩] told := by
  refine Passing.single hs h.toStretch hheard hfits ?_ ?_ ?_
  · rw [h.plain.rejected_eq_nil, hstray]
    rfl
  · rw [h.plain.span_eq_nil, hp]
    rfl
  · rw [h.plain.unclosed_eq_nil, hclosed]
    rfl

/-- A comment that has been passed and is told of as a directive. -/
theorem Run.passingDirective {fs : List Fetched} {p : Passage} (h : Run r bytes exact s t fs told)
    (hs : s.Sited r bytes exact mark?)
    (hsited : t.Sited r bytes exact (some (s.offset r.bytesLeft))) {start : Place}
    (hplace : exact → start = .ofOffset bytes (s.offset r.bytesLeft)) (hheard : heard fs = p.chars)
    (hfits : p.Fits t.char?) (hp : p.mayDirect) (hstray : p.stray? = none)
    (hclosed : p.isOpen = false) :
    Passing r bytes exact s (t.reportDirective start)
      [⟨p, s.offset r.bytesLeft, t.offset r.bytesLeft⟩]
      (told ++ [.directive (s.offset r.bytesLeft) (t.offset r.bytesLeft) start]) := by
  -- A comment is not empty, so the directive has a stretch of its own.
  have hne : heard fs ≠ [] := by
    rw [hheard]
    cases p <;> exact nofun
  have hstretch := h.directive hsited hplace (h.offset_lt hne)
  refine Passing.single hs hstretch hheard hfits ?_ ?_ ?_
  · rw [List.filterMap_append, h.plain.rejected_eq_nil, hstray]
    rfl
  · rw [List.filterMap_append, h.plain.span_eq_nil, hp]
    rfl
  · rw [List.filterMap_append, h.plain.unclosed_eq_nil, hclosed]
    rfl

/-- A comment that has been passed up to the end and is rejected. -/
theorem Run.passingOpen {fs : List Fetched} {text : List Char} (h : Run r bytes exact s t fs told)
    (hs : s.Sited r bytes exact mark?) {start : Place}
    (hplace : exact → start = .ofOffset bytes (s.offset r.bytesLeft))
    (hheard : heard fs = (Passage.openComment text).chars) (hfits : (Passage.openComment text).Fits t.char?) :
    Passing r bytes exact s (t.complainAt start .unterminatedComment)
      [⟨.openComment text, s.offset r.bytesLeft, t.offset r.bytesLeft⟩]
      (told ++ [.error (s.offset r.bytesLeft) ⟨.unterminatedComment, start⟩]) := by
  have hremark := h.toStretch.remark (x := .error (s.offset r.bytesLeft) ⟨.unterminatedComment, start⟩) rfl
    hplace ⟨Nat.le_refl _, h.account.decodes.le⟩ fun y hy => h.plain.precedes_error hy ..
  refine Passing.single hs hremark hheard hfits ?_ ?_ ?_
  · rw [List.filterMap_append, h.plain.rejected_eq_nil]
    rfl
  · rw [List.filterMap_append, h.plain.span_eq_nil]
    rfl
  · rw [List.filterMap_append, h.plain.unclosed_eq_nil]
    rfl

/-- What differs from a word does not start with it. -/
theorem isPrefixOf_append_eq_false {word pre rest more : List Char} {c : Char}
    (hword : word = pre ++ c :: rest) (hne : more.head? ≠ some c) :
    word.isPrefixOf (pre ++ more) = false := by
  subst hword
  induction pre with
  | nil =>
    cases more with
    | nil => rfl
    | cons d more =>
      have hcd : c ≠ d := fun he => hne (by rw [he]; rfl)
      simp [List.isPrefixOf, hcd]
  | cons d pre ih => simpa [List.isPrefixOf] using ih

/-- The word for a directive is told from the text of a comment. -/
theorem Sited.acceptDirectiveWord (h : s.Sited r bytes exact mark?) : ∃ fs told,
    (CharStream.accept directiveWord s).2.Sited r bytes exact mark? ∧
      Run r bytes exact s (CharStream.accept directiveWord s).2 fs told ∧
      ('*' ∉ heard fs ∧ '\n' ∉ heard fs) ∧
      ∀ more : List Char, more.head? = (CharStream.accept directiveWord s).2.char? ∨ more = [] →
        directiveWord.isPrefixOf (heard fs ++ more) = (CharStream.accept directiveWord s).1 := by
  obtain ⟨fs, told, hsited, hrun, hword⟩ := h.accept directiveWord
  -- Whether accepted or not, what was heard is a front part of the word.
  have hpre : heard fs <+: directiveWord := by
    split at hword
    · exact ⟨[], by rw [hword, List.append_nil]⟩
    · obtain ⟨c, rest, hword, -⟩ := hword
      exact ⟨_, hword.symm⟩
  refine ⟨fs, told, hsited, hrun, ?_, fun more hmore => ?_⟩
  · have hno : '*' ∉ directiveWord ∧ '\n' ∉ directiveWord := by decide
    exact ⟨fun hm => hno.1 (hpre.subset hm), fun hm => hno.2 (hpre.subset hm)⟩
  · split at hword
    · next ha =>
      rw [ha, hword]
      exact List.isPrefixOf_iff_prefix.mpr (List.prefix_append ..)
    · next ha =>
      obtain ⟨c, rest, hword, hne⟩ := hword
      rw [Bool.not_eq_true] at ha
      rw [ha]
      -- The next character is not the one the word goes on with, and nothing behind it can mend that.
      refine isPrefixOf_append_eq_false hword ?_
      rcases hmore with hmore | rfl
      · rwa [hmore]
      · exact nofun

/-- The two characters of a marker are passed over. -/
theorem Sited.marker (h : s.Sited r bytes exact mark?) {c d : Char} (hc : s.char? = some c)
    (hd : s.advance.char? = some d) : ∃ fs told,
    s.advance.advance.Sited r bytes exact mark? ∧ Run r bytes exact s s.advance.advance fs told ∧
      heard fs = [c, d] := by
  obtain ⟨fs, told, hsited, hrun, hheard⟩ := h.advance
  obtain ⟨gs, told', hsited', hrun', hheard'⟩ := hsited.advance
  refine ⟨_, _, hsited', hrun.trans hrun', ?_⟩
  rw [heard_append, hheard, hheard', hc, hd]
  rfl

/-- The first of some characters, if there are any. -/
theorem head?_eq_or_nil {more : List Char} {c? d? : Option Char} (h : c? = more.head?.or d?) :
    more.head? = c? ∨ more = [] := by
  cases more with
  | nil => exact .inr rfl
  | cons => exact .inl h.symm

/-- A run that stops at a newline or the end holds no newline. -/
theorem fits_lineComment {text more : List Char} {next? : Option Char} (hline : '\n' ∉ text)
    (hall : ∀ c ∈ more, decide (c ≠ '\n')) (hstop : next?.any (· ≠ '\n') = false) :
    (Passage.lineComment (text ++ more)).Fits next? := by
  refine ⟨fun hmem => ?_, fun c hc => ?_⟩
  · rcases List.mem_append.mp hmem with hmem | hmem
    · exact hline hmem
    · exact of_decide_eq_true (hall _ hmem) rfl
  · subst hc
    simpa using hstop

/-- A word without a star belongs to the text of the comment. -/
theorem fits_blockComment {word text : List Char} (hword : '*' ∉ word) (next? : Option Char)
    (hsplit : splitComment (text ++ ['*', '/']) = some (text, [])) :
    (Passage.blockComment (word ++ text)).Fits next? := by
  change splitComment (word ++ text ++ ['*', '/']) = _
  rw [List.append_assoc, splitComment_word hword, hsplit]
  rfl

/-- A line comment takes all up to the next newline. -/
theorem Sited.lineComment (h : s.Sited r bytes exact (some (s.offset r.bytesLeft)))
    (hc : s.char? = some '/') (hd : s.advance.char? = some '/') {start : Place}
    (hplace : exact → start = .ofOffset bytes (s.offset r.bytesLeft)) : ∃ p told mark?,
    (s.advance.advance.lineComment start).Sited r bytes exact mark? ∧
      Passing r bytes exact s (s.advance.advance.lineComment start) [p] told ∧
      '\n' ∉ Crossing.charsOf [p] := by
  obtain ⟨fs₁, told₁, h₁, hrun₁, hheard₁⟩ := h.marker hc hd
  obtain ⟨fs₂, told₂, h₂, hrun₂, ⟨-, hline⟩, hword⟩ := h₁.acceptDirectiveWord
  have hchars {text : List Char} (htext : '\n' ∉ text) :
      '\n' ∉ (Passage.lineComment text).chars ++ [] := by
    simpa [Passage.chars] using htext
  unfold CharStream.lineComment
  dsimp only
  -- With the directive's word the segment is kept and reported; without it the mark is given up.
  split
  · next ha =>
    obtain ⟨fs₃, told₃, h₃, hrun₃, hall, hstop⟩ := h₂.skipWhile (· ≠ '\n')
    have hfits := fits_lineComment hline hall hstop
    have hheard : heard (fs₁ ++ fs₂ ++ fs₃) = (Passage.lineComment (heard fs₂ ++ heard fs₃)).chars := by
      rw [heard_append, heard_append, hheard₁]
      rfl
    have hdirect := hword _ (head?_eq_or_nil hrun₃.char?_eq)
    rw [ha] at hdirect
    refine ⟨_, _, _, h₃.report _, ((hrun₁.trans hrun₂).trans hrun₃).passingDirective h h₃ hplace hheard
      hfits hdirect rfl rfl, hchars hfits.1⟩
  · next ha =>
    obtain ⟨fs₃, told₃, h₃, hrun₃, hall, hstop⟩ := h₂.clearMark.skipWhile (· ≠ '\n')
    have hfits := fits_lineComment hline hall hstop
    have hheard : heard (fs₁ ++ fs₂ ++ fs₃) = (Passage.lineComment (heard fs₂ ++ heard fs₃)).chars := by
      rw [heard_append, heard_append, hheard₁]
      rfl
    have hdirect := hword _ (head?_eq_or_nil hrun₃.char?_eq)
    rw [Bool.not_eq_true] at ha
    rw [ha] at hdirect
    exact ⟨_, _, _, h₃, ((hrun₁.trans hrun₂.clearMark).trans hrun₃).passing h hheard hfits hdirect rfl rfl,
      hchars hfits.1⟩

/-- A block comment takes all through its first closing marker, or everything. It takes in a newline
exactly if it ends on another line. -/
theorem Sited.blockComment (h : s.Sited r bytes exact (some (s.offset r.bytesLeft)))
    (hc : s.char? = some '/') (hd : s.advance.char? = some '*') {start : Place}
    (hplace : exact → start = .ofOffset bytes (s.offset r.bytesLeft)) : ∃ p told mark?,
    (s.advance.advance.blockComment start).Sited r bytes exact mark? ∧
      Passing r bytes exact s (s.advance.advance.blockComment start) [p] told ∧
      ((s.advance.advance.blockComment start).line ≠ s.line ↔ '\n' ∈ Crossing.charsOf [p]) ∧
      (mark? = none ∨ mark? = some (s.offset r.bytesLeft)) := by
  obtain ⟨fs₁, told₁, h₁, hrun₁, hheard₁⟩ := h.marker hc hd
  obtain ⟨fs₂, told₂, h₂, hrun₂, ⟨hstar, -⟩, hword⟩ := h₁.acceptDirectiveWord
  unfold CharStream.blockComment
  dsimp only
  -- The stream behind the opening, where a segment is kept for a directive only.
  generalize hs₂ : (if (CharStream.accept CharStream.directiveWord s.advance.advance).1 = true then
    (CharStream.accept CharStream.directiveWord s.advance.advance).2
    else (CharStream.accept CharStream.directiveWord s.advance.advance).2.clearMark) = s₂
  generalize hd : (CharStream.accept CharStream.directiveWord s.advance.advance).1 = isDirective at hs₂ hword
  have hcut : s₂.Sited r bytes exact (if isDirective then some (s.offset r.bytesLeft) else none) ∧
      Run r bytes exact s.advance.advance s₂ fs₂ told₂ ∧
      s₂.char? = (CharStream.accept CharStream.directiveWord s.advance.advance).2.char? := by
    subst hs₂
    cases isDirective with
    | true => exact ⟨h₂, hrun₂, rfl⟩
    | false => exact ⟨h₂.clearMark, hrun₂.clearMark, rfl⟩
  obtain ⟨hcut, hrunCut, hcharCut⟩ := hcut
  obtain ⟨fs₃, told₃, h₃, hrun₃, hrest⟩ := hcut.blockCommentRest
  have hrun := (hrun₁.trans hrunCut).trans hrun₃
  have hheard : heard (fs₁ ++ fs₂ ++ fs₃) = '/' :: '*' :: (heard fs₂ ++ heard fs₃) := by
    rw [heard_append, heard_append, hheard₁]
    rfl
  -- The line moves on once for each newline inside.
  have hlines {p : Passage} (hp : heard (fs₁ ++ fs₂ ++ fs₃) = p.chars) :
      s₂.blockCommentRest.2.line ≠ s.line ↔ '\n' ∈ p.chars ++ [] := by
    rw [List.append_nil, ← hp, hrun.line_eq, ← List.count_pos_iff]
    omega
  have hdirect := head?_eq_or_nil hrun₃.char?_eq
  rw [hcharCut] at hdirect
  generalize s₂.blockCommentRest = x at h₃ hrun hrun₃ hrest hlines hdirect
  obtain ⟨closed, t⟩ := x
  dsimp only at h₃ hrun hrun₃ hrest hlines hdirect ⊢
  cases closed with
  | false =>
    -- The comment was still open at the end of the input.
    obtain ⟨hsplit, hend⟩ : splitComment (heard fs₃) = none ∧ t.char? = none := hrest
    have hnone : splitComment (heard fs₂ ++ heard fs₃) = none := by
      rw [splitComment_word hstar, hsplit]
      rfl
    refine ⟨_, _, _, h₃.report _, hrun.passingOpen h hplace hheard ⟨hnone, hend⟩, hlines hheard, ?_⟩
    cases isDirective
    · exact .inl rfl
    · exact .inr rfl
  | true =>
    obtain ⟨text, htext, hsplit⟩ : ∃ text, heard fs₃ = text ++ ['*', '/'] ∧
      splitComment (heard fs₃) = some (text, []) := hrest
    have hp : heard (fs₁ ++ fs₂ ++ fs₃) = (Passage.blockComment (heard fs₂ ++ text)).chars := by
      rw [hheard, htext]
      simp [Passage.chars]
    have hfits := fits_blockComment hstar t.char? (htext ▸ hsplit)
    -- The word was accepted just when the text inside starts with it, since no star has been heard before its
    -- end.
    have hmay : (Passage.blockComment (heard fs₂ ++ text)).mayDirect = isDirective := by
      refine hword text ?_
      cases text with
      | nil => exact .inr rfl
      | cons c text =>
        rw [htext] at hdirect
        exact .inl (hdirect.resolve_right (List.cons_ne_nil _ _))
    cases isDirective with
    | true =>
      refine ⟨_, _, _, h₃.report _, hrun.passingDirective h h₃ hplace hp hfits hmay rfl rfl, hlines hp,
        .inr rfl⟩
    | false => exact ⟨_, _, _, h₃, hrun.passing h hp hfits hmay rfl rfl, hlines hp, .inl rfl⟩

end CharStream

end FrontEnd
