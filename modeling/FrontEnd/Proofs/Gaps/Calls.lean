import FrontEnd.Proofs.Gaps.Taking

/-!
# One token after another

A call of `next` passes over what stands before the next token and then takes the token in, or finds a
comment that is a separator (`Finds.taken`). Where one call leaves the stream, the next goes on
(`Scanner.sited_after`), and the first starts behind what is passed over at the very beginning
(`Scanner.opening`).
-/

namespace FrontEnd

/-- A newline is not rejected. -/
theorem Crossing.stray?_eq_none {p : Crossing} {next? : Option Char} (h : p.passage.Fits next?)
    (hline : '\n' ∈ Crossing.charsOf [p]) : p.passage.stray? = none := by
  obtain ⟨passage, start, stop⟩ := p
  cases passage with
  | stray c =>
    cases List.mem_singleton.mp hline
    exact Bool.noConfusion (h.2.symm.trans (by decide : Scanner.isBlank false '\n' = true))
  | _ => rfl

namespace CharStream

variable {r : Reader} {bytes : ByteArray} {exact : Prop} {mark? : Option Nat} {s : CharStream Buffer}
  {separable : Bool} {l : Lexeme} {x : Scanner Buffer}

/-- The separator `x` stands for a comment at `s`. -/
def IsComment (r : Reader) (bytes : ByteArray) (exact : Prop) (s : CharStream Buffer)
    (x : Scanner Buffer) : Prop :=
  x.lexeme.token = .semi ∧ ∃ p told mark?, x.stream.Sited r bytes exact mark? ∧
    (mark? = none ∨ mark? = some (s.offset r.bytesLeft)) ∧ Passing r bytes exact s x.stream [p] told ∧
    '\n' ∈ Crossing.charsOf [p]

/-- What is found is taken in, unless it stands for a comment. -/
theorem Finds.taken (h : Finds r bytes exact separable l s x)
    (hs : s.Sited r bytes exact (some (s.offset r.bytesLeft))) (hl : l.place = s.place) :
    TakenIn r bytes exact s x.stream ∨ IsComment r bytes exact s x := by
  cases h with
  | ended =>
    exact .inl (.of_stretch ⟨hs, [], [], hs.refl.toStretch, fun _ hx => (List.not_mem_nil hx).elim⟩)
  | newline =>
    obtain ⟨fs, told, hsited, hrun, -⟩ := hs.advance
    exact .inl (.of_stretch ⟨hsited, fs, told, hrun.toStretch, fun _ => hrun.plain.inToken⟩)
  | comment _ hsited hmark hpassing hline =>
    exact .inr ⟨rfl, _, _, _, hsited, hmark, hpassing, hline⟩
  | token hc _ hslash hx => exact .inl (hs.attemptAt_taking hc hl hslash hx)

/-- Wherever the stream is after what is found, it is there in order. -/
theorem Finds.sited (h : Finds r bytes exact separable l s x)
    (hs : s.Sited r bytes exact (some (s.offset r.bytesLeft))) (hl : l.place = s.place) :
    ∃ mark?, x.stream.Sited r bytes (exact ∧ ¬s.AtDotsAndNewline) mark? := by
  rcases h.taken hs hl with ⟨_, _, _, hsited, -⟩ | ⟨-, _, _, _, hsited, -⟩
  · exact ⟨_, hsited⟩
  · exact ⟨_, hsited.mono And.left⟩

end CharStream

namespace Scanner

variable {r : Reader} {bytes : ByteArray} {exact : Prop} {mark? : Option Nat} {s : Scanner Buffer}

/-- What a call of `next` passes over and then finds. -/
theorem call (h : s.stream.Sited r bytes exact mark?) : ∃ ps told,
    CharStream.Approach r bytes exact s.lexeme.endsStatement s.stream s.start ps told ∧
      CharStream.Finds r bytes exact s.lexeme.endsStatement
        { s.lexeme.cleared with place := s.start.place } s.start s.next :=
  h.find _ _

/-- Each call leaves a stream sited, unless two dots stand before a newline. -/
theorem sited_next (h : s.stream.Sited r bytes exact mark?) :
    ∃ mark?, s.next.stream.Sited r bytes (exact ∧ ¬s.start.AtDotsAndNewline) mark? := by
  obtain ⟨ps, told, happroach, hfinds⟩ := call h
  exact hfinds.sited happroach.sited rfl

/-- One more token. -/
theorem after_succ {ω : Type} [ByteWindow ω] (s : Scanner ω) (n : Nat) :
    s.after (n + 1) = (s.after n).next.dropReports := by
  induction n generalizing s with
  | zero => rfl
  | succ n ih => exact ih s.next.dropReports

/-- No newline stood behind two dots where one of the next `n` tokens starts. -/
def Unshifted (s : Scanner Buffer) (n : Nat) : Prop := ∀ k < n, ¬(s.after k).start.AtDotsAndNewline

instance (n : Nat) : Decidable (s.Unshifted n) :=
  inferInstanceAs (Decidable (∀ k < n, ¬_))

/-- One token without two dots before a newline, and then others. -/
theorem unshifted_succ {n : Nat} :
    s.Unshifted (n + 1) ↔ ¬s.start.AtDotsAndNewline ∧ s.next.dropReports.Unshifted n :=
  forall_after_succ (P := fun s => ¬s.start.AtDotsAndNewline)

/-- The stream is in order after any number of calls. -/
theorem sited_after (h : s.stream.Sited r bytes exact mark?) (n : Nat) :
    ∃ mark?, (s.after n).stream.Sited r bytes (exact ∧ s.Unshifted n) mark? := by
  induction n generalizing s exact mark? with
  | zero => exact ⟨_, h.mono And.left⟩
  | succ n ih =>
    obtain ⟨mark?, hnext⟩ := sited_next h
    obtain ⟨mark?, hafter⟩ := ih (s := s.next.dropReports) hnext.dropReports
    refine ⟨mark?, hafter.mono ?_⟩
    rintro ⟨he, hn⟩
    obtain ⟨hzero, hn⟩ := unshifted_succ.mp hn
    exact ⟨⟨he, hzero⟩, hn⟩

/-- The first character comes behind what is not heard at the start, which is told of. -/
theorem opening (hr : r.Hands bytes none) : ∃ fs told,
    (ofWindow (Buffer.ofReader r)).stream.Sited r bytes True none ∧
      Account r bytes True 0 fs told
        ((ofWindow (Buffer.ofReader r)).stream.offset r.bytesLeft) ∧
      (ofWindow (Buffer.ofReader r)).reports = told.map (Remark.report bytes) ∧
      heard fs = [] ∧ Plain told := by
  have hnearing : CharStream.Nearing r bytes True 0 (.ofBytes bytes)
      { window := Buffer.ofReader r, line := 0, column := 0, char? := none, width := 0,
        reports := #[] } :=
    ⟨⟨Buffer.views_ofReader hr, fun _ => rfl⟩, Buffer.draws_ofReader r bytes, fun _ => .inl rfl⟩
  obtain ⟨fs, told, n, hsited, haccount, hreports, hheard, hplain⟩ := hnearing.seek
  exact ⟨fs, told, ⟨_, hsited, rfl⟩, haccount, hreports, hheard, hplain⟩

end Scanner

end FrontEnd
