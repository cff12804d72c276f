import FrontEnd.Proofs.Failing.Scans
import FrontEnd.Proofs.Gaps.Calls

/-!
# A failure is told

A stream tells the failure of its reader when it comes to the end, and again whenever it asks for more
there. A scanner does not ask again, for all the tokens it takes in, with two exceptions: of two dots it
goes back to the first after it has looked behind the second (`CharStream.AtDotsAndEnd`), and in a block
comment it goes on behind a star without a look at what it has got. The comment is then told to be
unterminated. Otherwise the failure has been told exactly if the stream is at the end
(`CharStream.Tells`).

So what is scanned up to the failure is what is scanned up to the end of the input, and the failure is
told; once, and where the input ends, if neither of the two is the case (`Reader.failure_told`).
-/

namespace FrontEnd

/-- The failures of the reader that a scan reports. -/
def Scan.readings (scan : Scan) : List Report := scan.reports.filter Report.isReading

namespace CharStream

variable {r : Reader} {bytes : ByteArray} {message : String} {before : List Report}
  {told : Prop} {mark? : Option Nat} {s t : CharStream Buffer}

/-- At the end a stream stays there. -/
theorem Sited.char?_advance {exact : Prop} (h : s.Sited r bytes exact mark?) (hc : s.char? = none) :
    s.advance.char? = none := by
  obtain ⟨fs, told, ⟨c, hsited, -⟩, hrun, -⟩ := h.advance
  have hle := hrun.account.decodes.le
  rw [h.offset_of_end hc] at hle
  exact hsited.char?_of_end (Nat.le_antisymm hsited.offset_le hle)

/-! ## Every failure is told -/

/-- The failures that a twin has reported are those of its reader, and at the end there is one, or one
has been `told` before. -/
structure Warns (message : String) (told : Prop) (s t : CharStream Buffer) : Prop where
  twin : Twin message s t
  failed : ∀ x ∈ t.readings, ∃ place, x = .error ⟨.reading (.failed message), place⟩
  warned : t.char? = none → told ∨ t.readings ≠ []

/-- A failure is told at some place. -/
theorem exists_of_mem_failures {x : Report} (h : x ∈ t.failures message) :
    ∃ place, x = .error ⟨.reading (.failed message), place⟩ := by
  unfold failures at h
  split at h
  · exact ⟨_, List.mem_singleton.mp h⟩
  · cases h

/-- Other reports tell of no failure. -/
theorem readings_report {x : Report} (hx : x.isReading = false) (t : CharStream Buffer) :
    (t.report x).readings = t.readings := by
  simp [readings, CharStream.report, hx]

/-- After going on, failures have been told, too, and one at the end. -/
theorem Warns.more (h : Warns message told s t) {s' t' : CharStream Buffer} (htwin : Twin message s' t')
    (hreadings : t'.readings = t.readings ++ t'.failures message) : Warns message told s' t' where
  twin := htwin
  failed x hx := by
    rw [hreadings] at hx
    exact (List.mem_append.mp hx).elim (h.failed x) exists_of_mem_failures
  warned hc := by
    rw [hreadings, failures, if_pos hc]
    exact .inr <| List.append_ne_nil_of_right_ne_nil _ (List.cons_ne_nil _ _)

/-- A report that is no failure changes nothing about those that are told. -/
theorem Warns.report (h : Warns message told s t) {x : Report} (hx : x.isReading = false) :
    Warns message told (s.report x) (t.report x) where
  twin := h.twin.report hx
  failed := by
    rw [readings_report hx]
    exact h.failed
  warned := by
    rw [readings_report hx]
    exact h.warned

/-- Nothing that a scanner does to find a token leaves a failure untold. -/
theorem finding_warns (message : String) (told : Prop) : Finding (Warns message told) where
  -- No operation takes a warning back, and none but an advance can meet the failure.
  toForward start :=
    { char?_eq := fun h => h.twin.char?_eq.symm
      place_eq := fun h => h.twin.place_eq.symm
      marked_eq := fun h => h.twin.marked_eq
      advance := fun _ h => h.more h.twin.advance.1 h.twin.advance.2
      goOn := fun h => h.more h.twin.advance.1 h.twin.advance.2
      complain := by
        intro s t fault hf h
        unfold CharStream.complain
        rw [h.twin.place_eq]
        exact h.report (Report.isReading_of_isMalformation hf _)
      blame := fun hf h => h.report (Report.isReading_of_isMalformation hf _)
      clearMark := fun h => ⟨h.twin.clearMark, h.failed, h.warned⟩
      reportDirective := by
        intro s t h
        unfold CharStream.reportDirective
        rw [h.twin.marked_eq]
        exact h.report rfl
      reject := fun h => h.report rfl
      leaveOpen := fun h => h.report rfl }
  setMark h := ⟨h.twin.setMark, h.failed, h.warned⟩
  rewind h := h.more h.twin.rewind.1 h.twin.rewind.2

/-! ## It is told once -/

/-- It has been told that a comment does not end. -/
def Unterminated (s : CharStream Buffer) : Prop :=
  ∃ place, .error ⟨.unterminatedComment, place⟩ ∈ s.reports.toList

/-- After what was told `before`, the twin has told the failure exactly if the stream has come to the end,
unless a comment does not end. -/
structure Tells (r : Reader) (bytes : ByteArray) (message : String) (before : List Report)
    (s t : CharStream Buffer) : Prop where
  twin : Twin message s t
  sited : ∃ mark?, s.Sited r bytes False mark?
  readings_eq : t.readings = before ++ t.failures message ∨ s.Unterminated

namespace Tells

/-- What is reported stays reported. -/
theorem unterminated_mono {told : List Report} (h : s.Unterminated)
    (hreports : t.reports.toList = s.reports.toList ++ told) : t.Unterminated := by
  obtain ⟨place, hmem⟩ := h
  refine ⟨place, ?_⟩
  rw [hreports]
  exact List.mem_append_left _ hmem

/-- Going on from a character tells the failure once the end is reached. -/
theorem advance (h : Tells r bytes message before s t) (hc : s.char?.isSome) :
    Tells r bytes message before s.advance t.advance := by
  obtain ⟨htwin, ⟨mark?, hsited⟩, hreadings⟩ := h
  obtain ⟨htwin', htold⟩ := htwin.advance
  obtain ⟨fs, told, hsited', hrun, -⟩ := hsited.advance
  refine ⟨htwin', ⟨mark?, hsited'⟩, hreadings.imp (fun heq => ?_) fun hu => ?_⟩
  · rw [← htwin.char?_eq] at hc
    rw [htold, heq, failures_of_isSome hc, List.append_nil]
  · exact unterminated_mono hu hrun.reports_eq

/-- A report that is no failure tells none. -/
theorem report (h : Tells r bytes message before s t) {x : Report} (hx : x.isReading = false) :
    Tells r bytes message before (s.report x) (t.report x) := by
  obtain ⟨htwin, ⟨mark?, hsited⟩, hreadings⟩ := h
  refine ⟨htwin.report hx, ⟨mark?, hsited.report x⟩, hreadings.imp (fun heq => ?_) fun hu => ?_⟩
  · rw [readings_report hx]
    exact heq
  · exact unterminated_mono hu (Array.toList_push ..)

/-- Giving up the mark tells no failure. -/
theorem clearMark (h : Tells r bytes message before s t) :
    Tells r bytes message before s.clearMark t.clearMark := by
  obtain ⟨htwin, ⟨mark?, hsited⟩, hreadings⟩ := h
  exact ⟨htwin.clearMark, ⟨_, hsited.clearMark⟩, hreadings⟩

/-- Setting the mark tells no failure. -/
theorem setMark (h : Tells r bytes message before s t) :
    Tells r bytes message before s.setMark t.setMark := by
  obtain ⟨htwin, ⟨mark?, hsited⟩, hreadings⟩ := h
  exact ⟨htwin.setMark, ⟨_, hsited.setMark⟩, hreadings⟩

/-- A directive is no failure. -/
theorem reportDirective (h : Tells r bytes message before s t) (start : Place) :
    Tells r bytes message before (s.reportDirective start) (t.reportDirective start) := by
  unfold CharStream.reportDirective
  rw [h.twin.marked_eq]
  exact h.report rfl

end Tells

/-- Going on from a character, the failure is told exactly at the end. -/
theorem onward_tells (r : Reader) (bytes : ByteArray) (message : String) (before : List Report)
    (start : Place) : Onward start (Tells r bytes message before) where
  char?_eq h := h.twin.char?_eq.symm
  place_eq h := h.twin.place_eq.symm
  marked_eq h := h.twin.marked_eq
  advance hc h := h.advance hc
  complain := by
    intro s t fault hf h
    unfold CharStream.complain
    rw [h.twin.place_eq]
    exact h.report (Report.isReading_of_isMalformation hf _)
  blame hf h := h.report (Report.isReading_of_isMalformation hf _)

namespace Tells

variable (h : Tells r bytes message before s t)
include h

/-- A line comment asks for no more at the end. -/
theorem lineComment (start : Place) :
    Tells r bytes message before (s.lineComment start) (t.lineComment start) := by
  have honward := onward_tells r bytes message before start
  obtain ⟨h₁, h₂⟩ := honward.accept directiveWord (by decide) h
  unfold CharStream.lineComment
  dsimp only
  rw [h₁]
  split
  · exact (honward.skipWhile _ h₂).reportDirective start
  · exact honward.skipWhile _ h₂.clearMark

/-- A comment that ends has not gone beyond the end. -/
theorem blockCommentRest (hclosed : s.blockCommentRest.1) :
    Tells r bytes message before s.blockCommentRest.2 t.blockCommentRest.2 := by
  induction hn : s.remaining using Nat.strongRecOn generalizing s t with
  | ind n ih =>
    subst hn
    rw [s.blockCommentRest_eq] at hclosed ⊢
    rw [t.blockCommentRest_eq, h.twin.char?_eq]
    cases hc : s.char? with
    | none =>
      rw [hc] at hclosed
      cases hclosed
    | some c =>
      have hsome : s.char?.isSome := by rw [hc]; rfl
      have ha := h.advance hsome
      have hlt := s.remaining_advance_lt hsome
      rw [hc] at hclosed
      dsimp only at hclosed ⊢
      rw [ha.twin.char?_eq]
      split
      · next hstar =>
        rw [if_pos hstar] at hclosed
        split
        · next hslash => exact ha.advance (Option.isSome_of_eq_some hslash)
        · next hslash =>
          rw [if_neg hslash] at hclosed
          split
          · next hagain =>
            rw [if_pos hagain] at hclosed
            exact ih _ hlt ha hclosed rfl
          · next hagain =>
            rw [if_neg hagain] at hclosed
            cases hd : s.advance.char? with
            | some d =>
              exact ih _ (Nat.lt_of_le_of_lt s.advance.remaining_advance_le hlt)
                (ha.advance (Option.isSome_of_eq_some hd)) hclosed rfl
            | none =>
              -- Behind the end there is no closing marker.
              obtain ⟨mark?, hsited⟩ := ha.sited
              rw [blockCommentRest_eq, hsited.char?_advance hd] at hclosed
              cases hclosed
      · next hstar =>
        rw [if_neg hstar] at hclosed
        exact ih _ hlt ha hclosed rfl

/-- A block comment asks for more at the end only behind a star, and is then unterminated. -/
theorem blockComment (start : Place) :
    Tells r bytes message before (s.blockComment start) (t.blockComment start) := by
  have honward := onward_tells r bytes message before start
  have hforward := (finding_twin message).toForward start
  obtain ⟨h₁, h₂⟩ := honward.accept directiveWord (by decide) h
  -- The two streams behind the opening, with the segment kept only for a directive.
  have h₃ : Tells r bytes message before
      (if (CharStream.accept directiveWord s).1 then (CharStream.accept directiveWord s).2
        else (CharStream.accept directiveWord s).2.clearMark)
      (if (CharStream.accept directiveWord s).1 then (CharStream.accept directiveWord t).2
        else (CharStream.accept directiveWord t).2.clearMark) :=
    Onward.ite (fun _ => h₂) fun _ => h₂.clearMark
  unfold CharStream.blockComment
  dsimp only
  rw [← h₁]
  generalize (if (CharStream.accept directiveWord s).1 then (CharStream.accept directiveWord s).2
    else (CharStream.accept directiveWord s).2.clearMark) = s' at h₃ ⊢
  generalize (if (CharStream.accept directiveWord s).1 then (CharStream.accept directiveWord t).2
    else (CharStream.accept directiveWord t).2.clearMark) = t' at h₃ ⊢
  obtain ⟨hclosed, htwin⟩ := hforward.blockCommentRest h₃.twin
  rw [← hclosed]
  cases hb : s'.blockCommentRest.1 with
  | true =>
    have hrest := h₃.blockCommentRest hb
    exact Onward.ite (fun hn => nomatch hn) fun _ =>
      Onward.ite (fun _ => hrest.reportDirective start) fun _ => hrest
  -- A comment left open is reported, and from that report on the two runs need not tell the same.
  | false =>
    obtain ⟨mark?, hsited⟩ := h₃.sited
    obtain ⟨fs, told, hsited', -⟩ := hsited.blockCommentRest
    refine ⟨htwin.report rfl, ⟨mark?, hsited'.report _⟩, .inr ⟨start, ?_⟩⟩
    exact Array.mem_toList_iff.mpr Array.mem_push_self

/-- What starts with a slash tells the failure once, or of a comment that does not end. -/
theorem slash (separable : Bool) (hc : s.char?.isSome) (l : Lexeme) :
    (Scanner.slash separable l s).InStep (Tells r bytes message before)
      (Scanner.slash separable l t) := by
  have ha := h.advance hc
  unfold Scanner.slash
  dsimp only
  rw [ha.twin.char?_eq]
  refine Onward.ite (fun hslash => ?_) fun _ => Onward.ite (fun hstar => ?_) fun _ => ?_
  · exact .passed ((ha.advance (Option.isSome_of_eq_some hslash)).lineComment l.place)
  · have hb := (ha.advance (Option.isSome_of_eq_some hstar)).blockComment l.place
    rw [hb.twin.place_eq]
    exact Onward.ite (fun _ => .found ⟨rfl, hb⟩) fun _ => .passed hb
  · exact .found ((onward_tells r bytes message before l.place).assignable l .div ha)

end Tells

/-- The stream is at the first of two dots that the input ends behind. -/
def AtDotsAndEnd (s : CharStream Buffer) : Prop :=
  s.char? = some '.' ∧ s.advance.char? = some '.' ∧ s.advance.advance.char? = none

instance (s : CharStream Buffer) : Decidable s.AtDotsAndEnd :=
  inferInstanceAs (Decidable (_ ∧ _ ∧ _))

namespace Tells

variable (h : Tells r bytes message before s t)
include h

/-- Of two dots, the second is found again without telling the failure, unless it has been told behind
the second. -/
theorem dot (hs : s.Sited r bytes False (some (s.offset r.bytesLeft))) (hc : s.char? = some '.')
    (hdots : ¬s.AtDotsAndEnd) (l : Lexeme) :
    (Scanner.dot l s).InStep (Tells r bytes message before) (Scanner.dot l t) := by
  have honward := onward_tells r bytes message before l.place
  have ha := h.advance (Option.isSome_of_eq_some hc)
  unfold Scanner.dot
  dsimp only
  rw [ha.twin.char?_eq]
  refine Onward.ite (fun _ => honward.foundNumber l (honward.fraction ha)) fun _ =>
    Onward.ite (fun hd => ?_) fun _ => ⟨rfl, ha⟩
  have haa := ha.advance (Option.isSome_of_eq_some hd)
  rw [haa.twin.char?_eq]
  refine Onward.ite (fun hthird => ⟨rfl, haa.advance (Option.isSome_of_eq_some hthird)⟩) fun _ =>
    ⟨rfl, ?_⟩
  -- Behind two dots there is a character, by `hdots`, hence no failure has been told up to there.
  have hsome : s.advance.advance.char?.isSome :=
    Option.isSome_iff_ne_none.mpr fun hend => hdots ⟨hc, hd, hend⟩
  obtain ⟨c, hsited, hm⟩ := hs
  obtain ⟨fs, told, n, hfirst, hrun, -⟩ := hsited.advance
  obtain ⟨gs, told', n', hsecond, hrun', -⟩ := hfirst.advance
  -- Going back and over the first dot again reports nothing new in either run.
  obtain ⟨k, hback, -, hreports, hagain⟩ := hsited.rewind_dots hc hd hsecond hm
    (Nat.le_trans hrun.account.decodes.le hrun'.account.decodes.le)
  obtain ⟨htwin, htold⟩ := haa.twin.rewind
  have hdot : s.advance.advance.rewind.char?.isSome := Option.isSome_of_eq_some hagain
  refine advance ⟨htwin, ⟨_, _, hback.anew.mono False.elim, hm⟩, ?_⟩ hdot
  refine haa.readings_eq.imp (fun heq => ?_) fun hu => ?_
  · rw [← haa.twin.char?_eq] at hsome
    rw [htold, heq, failures_of_isSome hsome, List.append_nil]
  · exact unterminated_mono hu (hreports.trans (List.append_nil _).symm)

/-- Whatever is found at a character or passed over, the failure is told exactly at the end. -/
theorem attemptAt (hs : s.Sited r bytes False (some (s.offset r.bytesLeft))) {c : Char}
    (hc : s.char? = some c) (hdots : ¬s.AtDotsAndEnd) (separable : Bool) (l : Lexeme) :
    (Scanner.attemptAt separable l c s).InStep (Tells r bytes message before)
      (Scanner.attemptAt separable l c t) := by
  have hsome : s.char?.isSome := Option.isSome_of_eq_some hc
  refine (onward_tells r bytes message before l.place).attemptAt separable rfl hc h .found ?_ ?_ ?_
  · exact .passed ((h.report rfl).advance hsome)
  · rintro rfl
    exact .found (h.dot hs hc hdots l)
  · rintro rfl
    exact h.slash separable hsome l

/-- Blanks are skipped, and the failure is told once if the end is reached. -/
theorem toToken (separable : Bool) :
    Tells r bytes message before (Scanner.toToken separable s) (Scanner.toToken separable t) :=
  ((onward_tells r bytes message before s.place).skipWhile _ h.clearMark).setMark

/-- The same of one attempt. -/
theorem attempt (separable : Bool) (l : Lexeme) (hdots : ¬(Scanner.toToken separable s).AtDotsAndEnd) :
    (Scanner.attempt separable l s).InStep (Tells r bytes message before)
      (Scanner.attempt separable l t) := by
  have ht := h.toToken separable
  obtain ⟨mark?, hsited⟩ := h.sited
  obtain ⟨ps, told, hsited, -⟩ := hsited.toToken separable
  unfold Scanner.attempt
  dsimp only
  rw [ht.twin.place_eq, ht.twin.char?_eq]
  cases hc : (Scanner.toToken separable s).char? with
  | some c => exact ht.attemptAt hsited hc hdots separable _
  | none => exact .found ⟨rfl, ht⟩

/-- The same of a call of `next`, unless the token is the first of two dots that the input ends behind. -/
theorem find (separable : Bool) (l : Lexeme) (hdots : ¬(Scanner.findStart separable l s).AtDotsAndEnd) :
    (Scanner.find separable l s).InStep (Tells r bytes message before)
      (Scanner.find separable l t) := by
  -- By what is left; a passed comment is the only way around the loop.
  induction hn : s.remaining using Nat.strongRecOn generalizing s t with
  | ind n ih =>
    subst hn
    rw [Scanner.findStart_eq] at hdots
    rw [Scanner.find_eq separable l s, Scanner.find_eq separable l t]
    -- At two dots the attempt already finds the end, where the two dots are excluded by `hdots`.
    have hnot : ¬(Scanner.toToken separable s).AtDotsAndEnd := by
      intro hat
      have hfound : ∃ x, Scanner.attempt separable l s = .found x := by
        unfold Scanner.attempt
        dsimp only
        rw [hat.1]
        exact ⟨_, rfl⟩
      obtain ⟨x, hx⟩ := hfound
      rw [hx] at hdots
      exact hdots hat
    have ha := h.attempt separable l hnot
    generalize Scanner.attempt separable l t = y at ha
    cases hs : Scanner.attempt separable l s with
    | found x =>
      rw [hs] at ha
      cases ha with
      | found hf => exact hf
    | passed s' =>
      rw [hs] at ha hdots
      cases ha with
      | passed hp => exact ih _ (Scanner.remaining_of_attempt_eq_passed hs) hp hdots rfl

end Tells

end CharStream

namespace Scanner

variable {r : Reader} {bytes : ByteArray} {message : String} {s t : Scanner Buffer}

/-! ## From the end on -/

/-- From the end on nothing is told any more, and all that is found is at the end. -/
theorem readings_of_end (hc : t.stream.char? = none) (hr : t.stream.readings = []) (n : Nat) :
    (t.scanUpTo n).flatMap Scan.readings = [] ∧
      ∀ scan ∈ t.scanUpTo n, scan.lexeme.place = t.stream.place := by
  -- Once at the end with nothing more to read, every later scan stands there and reads nothing.
  induction n generalizing t with
  | zero => exact ⟨rfl, fun _ hmem => by cases hmem⟩
  | succ n ih =>
    have hnext := find_eq_of_end t.lexeme.endsStatement t.lexeme.cleared hc
    have hstream : t.next.stream = t.stream.clearMark.setMark := congrArg Scanner.stream hnext
    have hplace : t.next.lexeme.place = t.stream.place := by
      refine (congrArg (fun x => x.lexeme.place) hnext).trans ?_
      dsimp only
      split <;> rfl
    have hread : Scan.readings ⟨t.next.lexeme, t.next.reports⟩ = [] := by
      change t.next.stream.readings = []
      rw [hstream]
      exact hr
    have hend : t.next.stream.char? = none := by
      rw [hstream]
      exact hc
    have hlater := ih (t := t.next.dropReports) hend rfl
    have hsame : t.next.dropReports.stream.place = t.stream.place := by
      change t.next.stream.place = _
      rw [hstream]
      rfl
    rw [hsame] at hlater
    unfold scanUpTo
    dsimp only
    split
    · exact ⟨by rw [List.flatMap_singleton, hread], fun scan hmem => by
        rw [List.mem_singleton.mp hmem]; exact hplace⟩
    · refine ⟨by rw [List.flatMap_cons, hread, hlater.1]; rfl, fun scan hmem => ?_⟩
      rcases List.mem_cons.mp hmem with rfl | hmem
      · exact hplace
      · exact hlater.2 scan hmem

/-! ## Scans -/

/-- What is reported as a failure is one of the reader, and unless there was one before, there is one by
the end. -/
theorem warns_scanUpTo {told : Prop} (h : s.InStep (CharStream.Warns message told) t) {n : Nat}
    (hcomplete : Complete (t.scanUpTo n)) :
    (∀ x ∈ (t.scanUpTo n).flatMap Scan.readings,
        ∃ place, x = .error ⟨.reading (.failed message), place⟩) ∧
      (told ∨ (t.scanUpTo n).flatMap Scan.readings ≠ []) := by
  -- By the number of scans; `told` says that the failure has been told in a scan before.
  induction n generalizing s t told with
  | zero => cases hcomplete
  | succ n ih =>
    have hn := (CharStream.finding_warns message told).next h
    have hread : Scan.readings ⟨t.next.lexeme, t.next.reports⟩ = t.next.stream.readings := rfl
    unfold scanUpTo at hcomplete ⊢
    dsimp only at hcomplete ⊢
    split
    · next heof =>
      rw [List.flatMap_singleton, hread]
      exact ⟨hn.2.failed, hn.2.warned (char?_of_next_eq_eof heof)⟩
    · next hne =>
      rw [if_neg hne] at hcomplete
      have hdropped : s.next.dropReports.InStep
          (CharStream.Warns message (told ∨ t.next.stream.readings ≠ [])) t.next.dropReports :=
        ⟨hn.1, hn.2.twin.dropReports, fun _ hx => (List.not_mem_nil hx).elim,
          fun hc => .inl (hn.2.warned hc)⟩
      obtain ⟨hfailed, hwarned⟩ := ih hdropped (hcomplete.tail hne)
      rw [List.flatMap_cons, hread]
      refine ⟨fun x hx => (List.mem_append.mp hx).elim (hn.2.failed x) (hfailed x), ?_⟩
      -- The failure was told before, in this scan, or in a later one.
      rcases hwarned with (htold | hmore) | hmore
      · exact .inl htold
      · exact .inr (List.append_ne_nil_of_left_ne_nil hmore _)
      · exact .inr (List.append_ne_nil_of_right_ne_nil _ hmore)

/-- The end of the input is found where the stream is. -/
theorem place_next_of_eof {mark? : Option Nat} (hs : s.stream.Sited r bytes False mark?)
    (heof : s.next.lexeme.token = .eof) : s.next.lexeme.place = s.next.stream.place := by
  obtain ⟨ps, told, -, hfinds⟩ := call hs
  generalize s.next = x at heof hfinds
  cases hfinds with
  | ended =>
    dsimp only
    split <;> rfl
  | newline => cases heof
  | comment => cases heof
  | token _ _ _ hx => exact absurd heof (found_attemptAt hx).token_ne_eof

/-- Up to the end the failure is told once, and there, if no comment is unterminated and the input does
not end behind two dots. -/
theorem readings_scanUpTo (h : s.InStep (CharStream.Tells r bytes message []) t) {n : Nat}
    (hdots : ∀ k < (t.scanUpTo n).length, ¬(s.after k).start.AtDotsAndEnd)
    (hclosed : ∀ scan ∈ s.scanUpTo n, ∀ place, .error ⟨.unterminatedComment, place⟩ ∉ scan.reports)
    (hcomplete : Complete (t.scanUpTo n)) :
    ∃ scan, (t.scanUpTo n).getLast? = some scan ∧ (t.scanUpTo n).flatMap Scan.readings =
      [.error ⟨.reading (.failed message), scan.lexeme.place⟩] := by
  -- Scan by scan: the failure is told in this one or it is still ahead.
  induction n generalizing s t with
  | zero => cases hcomplete
  | succ n ih =>
    have hread : Scan.readings ⟨t.next.lexeme, t.next.reports⟩ = t.next.stream.readings := rfl
    obtain ⟨mark?, hsited⟩ := h.2.sited
    have hn : s.next.InStep (CharStream.Tells r bytes message []) t.next := by
      have hlength : 0 < (t.scanUpTo (n + 1)).length := by
        obtain ⟨rest, hall⟩ := t.scanUpTo_eq_cons n
        rw [hall]
        exact Nat.succ_pos _
      unfold next
      rw [← h.1]
      exact h.2.find _ _ (hdots 0 hlength)
    -- No comment is left open, so this scan reads nothing but the failure, if it gets there.
    have hfirst : t.next.stream.readings = t.next.stream.failures message := by
      refine hn.2.readings_eq.resolve_right fun hopen => ?_
      obtain ⟨place, hmem⟩ := hopen
      obtain ⟨rest, hall⟩ := s.scanUpTo_eq_cons n
      exact hclosed _ (hall ▸ List.mem_cons_self) place hmem
    by_cases heof : t.next.lexeme.token = .eof
    · rw [scanUpTo_of_eof n heof]
      refine ⟨⟨t.next.lexeme, t.next.reports⟩, rfl, ?_⟩
      rw [List.flatMap_singleton, hread, hfirst, CharStream.failures,
        if_pos (char?_of_next_eq_eof heof)]
      have hplace := place_next_of_eof hsited (by rw [hn.1]; exact heof)
      rw [hn.1, ← hn.2.twin.place_eq] at hplace
      rw [← hplace]
    · rw [scanUpTo_of_ne n heof] at hdots hcomplete ⊢
      rw [scanUpTo_of_ne n (by rwa [hn.1])] at hclosed
      have hrest := hcomplete.tail heof
      rw [List.flatMap_cons, hread, hfirst]
      cases hc : t.next.stream.char? with
      | none =>
        -- The failure has been told, and what is left is at the same place.
        obtain ⟨hnone, hplaces⟩ := readings_of_end (t := t.next.dropReports) hc rfl n
        obtain ⟨m, scan, hlength, hscan, -⟩ := hrest.exists_eof
        have hlast : (t.next.dropReports.scanUpTo n).getLast? = some scan := by
          rw [List.getLast?_eq_getElem?, hlength]
          exact hscan
        refine ⟨scan, ?_, ?_⟩
        · rw [List.getLast?_cons, hlast]
          rfl
        · rw [hnone, List.append_nil, CharStream.failures, if_pos hc,
            hplaces scan (List.mem_of_getLast? hlast)]
          rfl
      | some c =>
        have hsome : t.next.stream.char?.isSome := Option.isSome_of_eq_some hc
        have hdropped : s.next.dropReports.InStep (CharStream.Tells r bytes message [])
            t.next.dropReports := by
          obtain ⟨mark?, hsited⟩ := hn.2.sited
          refine ⟨hn.1, hn.2.twin.dropReports, ⟨_, hsited.dropReports⟩, .inl ?_⟩
          exact (CharStream.failures_of_isSome (s := t.next.stream.dropReports) hsome).symm
        obtain ⟨scan, hlast, hone⟩ := ih hdropped
          (fun k hk => hdots (k + 1) (Nat.succ_lt_succ hk))
          (fun scan hmem => hclosed scan (List.mem_cons_of_mem _ hmem)) hrest
        refine ⟨scan, ?_, ?_⟩
        · rw [List.getLast?_cons, hlast]
          rfl
        · rw [CharStream.failures_of_isSome hsome, hone]
          rfl

end Scanner

namespace Reader

/-- What is scanned of a reader that fails behind its events is what is scanned of one that ends there, or
of any that delivers the same bytes, if every NUL byte among them breaks off a character. Besides, the
failure is told; once, where the input ends, unless that is right behind two dots or in a comment that is
not closed. -/
theorem failure_told {r q : Reader} {bytes : ByteArray} (hr : r.Delivers bytes) (hq : q.Delivers bytes)
    (hn : .endOfInput ∉ q.events) (hpieces : q = r ∨ NulsBreakOff bytes) (message : String) :
    let scans := (q.failing message).scans
    scans.map Scan.withoutReadings = r.scans ∧
    (∀ x ∈ scans.flatMap Scan.readings, ∃ place, x = .error ⟨.reading (.failed message), place⟩) ∧
    scans.flatMap Scan.readings ≠ [] ∧
    ((∀ k < scans.length, ¬((Scanner.ofWindow (Buffer.ofReader q)).after k).start.AtDotsAndEnd) →
      (∀ scan ∈ r.scans, ∀ place, .error ⟨.unterminatedComment, place⟩ ∉ scan.reports) →
      ∃ scan, scans.getLast? = some scan ∧
        scans.flatMap Scan.readings = [.error ⟨.reading (.failed message), scan.lexeme.place⟩]) := by
  intro scans
  -- How the text comes in pieces plays no part where the NULs break off.
  have hsame : r.scans = q.scans := by
    rcases hpieces with rfl | hb
    · rfl
    · rw [scans_eq hb hr.hands, scans_eq hb hq.hands]
  obtain ⟨n, hscans, hfailing⟩ := Scanner.exists_scans_eq q.sound_ofReader (q.failing message).sound_ofReader
  obtain ⟨htwin, hstart⟩ := Scanner.twin_ofWindow hq hn message
  have hcomplete : Scanner.Complete scans := (q.failing message).complete_scans
  have hfailing : scans = _ := hfailing
  rw [hsame]
  refine ⟨withoutReadings_scans_failing hq hn message, ?_⟩
  rw [hfailing] at hcomplete ⊢
  -- At the start the failure is either told or still ahead.
  have hwarns : (Scanner.ofWindow (Buffer.ofReader q)).InStep (CharStream.Warns message False)
      (Scanner.ofWindow (Buffer.ofReader (q.failing message))) := by
    refine ⟨htwin.1, htwin.2, fun x hx => ?_, fun hc => .inr ?_⟩
    · rw [hstart] at hx
      exact CharStream.exists_of_mem_failures hx
    · rw [hstart, CharStream.failures, if_pos hc]
      exact List.cons_ne_nil _ _
  obtain ⟨hfailed, hwarned⟩ := Scanner.warns_scanUpTo hwarns hcomplete
  refine ⟨hfailed, hwarned.resolve_left id, fun hdots hclosed => ?_⟩
  rw [show q.scans = _ from hscans] at hclosed
  obtain ⟨fs, told, hsited, -⟩ := Scanner.opening hq.hands
  exact Scanner.readings_scanUpTo ⟨htwin.1, htwin.2, ⟨_, hsited.mono False.elim⟩, .inl hstart⟩ hdots
    hclosed hcomplete

/-- Two pieces, the second of them in the middle of a string. -/
theorem failure_told_string :
    let bytes := [0x61, 0x20, 0x22, 0x62].toByteArray
    let q : Reader :=
      ⟨[.data [0x61, 0x20, 0x22].toByteArray, .stall, .data [0x62].toByteArray], none, .finished⟩
    (ofBytes bytes).Delivers bytes ∧ q.Delivers bytes ∧ NulsBreakOff bytes ∧
      ∃ scan, (q.failing "boom").scans.getLast? = some scan ∧
        (q.failing "boom").scans.flatMap Scan.readings =
          [.error ⟨.reading (.failed "boom"), scan.lexeme.place⟩] := by
  intro bytes q
  have hq : q.Delivers bytes := by
    refine ⟨rfl, by simp [q], ?_⟩
    have hlast : Brings 8 [.data [0x62].toByteArray] ([0x62].toByteArray ++ .empty) :=
      .data (by decide) .finished
    have hsecond : Brings patience [.stall, .data [0x62].toByteArray] ([0x62].toByteArray ++ .empty) :=
      .stall hlast
    exact .data (by decide) hsecond
  have hb : NulsBreakOff bytes := by
    have hne : ∀ i : Fin 4, bytes.get i ≠ 0 := by decide
    exact fun i h hz => absurd hz (hne ⟨i, h⟩)
  have hn : .endOfInput ∉ q.events := by simp [q]
  have hdots : ∀ k < (q.failing "boom").scans.length,
      ¬((Scanner.ofWindow (Buffer.ofReader q)).after k).start.AtDotsAndEnd := by
    decide +kernel
  -- The one report of the text alone is the string that is not closed.
  have hclosed : ∀ scan ∈ (ofBytes bytes).scans, ∀ place,
      .error ⟨.unterminatedComment, place⟩ ∉ scan.reports := by
    have honly : ∀ scan ∈ (ofBytes bytes).scans, ∀ x ∈ scan.reports,
        x = .error ⟨.unterminatedString, ⟨1, 3⟩⟩ := by decide +kernel
    exact fun scan hscan place hmem => nomatch honly scan hscan _ hmem
  exact ⟨delivers_ofBytes bytes, hq, hb,
    (failure_told (delivers_ofBytes bytes) hq hn (.inr hb) "boom").2.2.2 hdots hclosed⟩

end Reader

end FrontEnd
