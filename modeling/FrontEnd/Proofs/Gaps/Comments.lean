import FrontEnd.Proofs.Gaps.Passages
import FrontEnd.Proofs.Gaps.Stretch

/-!
# What is told after a run

After it has passed over a comment, a stream may tell of it as a directive (`Run.directive`), after all
that is wrong with the bytes of the comment. The rest of a block comment ends with the first closing
marker, or goes on to the end (`Sited.blockCommentRest`).
-/

namespace FrontEnd

/-- Where a comment starts that is told of as a directive, and where the next character after it
stands. -/
def Remark.span? : Remark → Option (Nat × Nat)
  | error .. => none
  | directive start stop _ => some (start, stop)

/-- Where a comment starts that is told not to be closed. -/
def Remark.unclosed? : Remark → Option Nat
  | error start ⟨.unterminatedComment, _⟩ => some start
  | _ => none

/-- What is told about items tells of no comment. -/
theorem Plain.span_eq_nil {told : List Remark} (h : Plain told) : told.filterMap Remark.span? = [] := by
  refine List.filterMap_eq_nil_iff.mpr fun x hx => ?_
  have hplain := h x hx
  cases x with
  | error => rfl
  | directive => cases hplain

/-- What is told about items rejects no character. -/
theorem Plain.rejected_eq_nil {told : List Remark} (h : Plain told) :
    told.filterMap Remark.rejected? = [] := by
  refine List.filterMap_eq_nil_iff.mpr fun x hx => ?_
  have hplain := h x hx
  rcases x with ⟨offset, ⟨fault, place⟩⟩ | _
  · cases fault with
    | unexpectedCharacter => cases hplain
    | _ => rfl
  · rfl

/-- What is told about items leaves no comment open. -/
theorem Plain.unclosed_eq_nil {told : List Remark} (h : Plain told) :
    told.filterMap Remark.unclosed? = [] := by
  refine List.filterMap_eq_nil_iff.mpr fun x hx => ?_
  have hplain := h x hx
  rcases x with ⟨offset, ⟨fault, place⟩⟩ | _
  · cases fault with
    | unterminatedComment => cases hplain
    | _ => rfl
  · rfl

/-- Any fault may be told after faults of items. -/
theorem Plain.precedes_error {told : List Remark} (h : Plain told) {x : Remark} (hx : x ∈ told)
    (offset : Nat) (e : LexError) : x.Precedes (.error offset e) := by
  have hplain := h x hx
  cases x with
  | error => exact trivial
  | directive => cases hplain

namespace CharStream

variable {r : Reader} {bytes : ByteArray} {exact : Prop} {mark? : Option Nat} {s t : CharStream Buffer}
  {fs : List Fetched} {told : List Remark}

/-- The faults of items are told of bytes that have been passed. -/
theorem Run.precedes (h : Run r bytes exact s t fs told) {x : Remark} (hx : x ∈ told) (start : Nat)
    (place : Place) : x.Precedes (.directive start (t.offset r.bytesLeft) place) := by
  have hplain := h.plain x hx
  obtain ⟨y, hy⟩ := Option.isSome_iff_exists.mp hplain
  have hmem : y ∈ told.filterMap Remark.decoding? := List.mem_filterMap.mpr ⟨x, hx, hy⟩
  rw [h.account.decoding_eq] at hmem
  have hlt := (h.account.decodes.bounds_of_mem_faultsFrom hmem).2
  cases x with
  | directive => cases hy
  | error offset e =>
    rw [Remark.decoding?, Option.ite_none_right_eq_some] at hy
    obtain ⟨-, hy⟩ := hy
    rw [← Option.some.inj hy] at hlt
    exact hlt

/-- Something that is no fault of an item may be told after a stretch. -/
theorem Stretch.remark (h : Stretch r bytes exact s t fs told) {x : Remark} (hx : x.decoding? = none)
    (hplace : exact → x.place = .ofOffset bytes x.offset)
    (hwithin : x.Within (s.offset r.bytesLeft) (t.offset r.bytesLeft))
    (hordered : ∀ y ∈ told, y.Precedes x) :
    Stretch r bytes exact s (t.report (x.report bytes)) fs (told ++ [x]) where
  account := h.account.remark hx hplace hwithin hordered
  reports_eq := by
    unfold CharStream.report
    rw [Array.toList_push, h.reports_eq, List.map_append, List.append_assoc]
    rfl
  char?_eq := h.char?_eq

/-- A comment that has been passed may be told of as a directive. -/
theorem Run.directive (h : Run r bytes exact s t fs told)
    (hsited : t.Sited r bytes exact (some (s.offset r.bytesLeft))) {start : Place}
    (hplace : exact → start = .ofOffset bytes (s.offset r.bytesLeft))
    (hlt : s.offset r.bytesLeft < t.offset r.bytesLeft) :
    Stretch r bytes exact s (t.reportDirective start) fs
      (told ++ [.directive (s.offset r.bytesLeft) (t.offset r.bytesLeft) start]) := by
  have hreport : t.reportDirective start = t.report (Remark.report bytes
      (.directive (s.offset r.bytesLeft) (t.offset r.bytesLeft) start)) := by
    unfold reportDirective Remark.report
    rw [hsited.marked_eq]
    rfl
  rw [hreport]
  exact h.toStretch.remark rfl hplace ⟨Nat.le_refl _, hlt, Nat.le_refl _⟩ fun x hx => h.precedes hx _ _

/-- A run that hears something goes on. -/
theorem Stretch.offset_lt (h : Stretch r bytes exact s t fs told) (hne : heard fs ≠ []) :
    s.offset r.bytesLeft < t.offset r.bytesLeft := by
  cases fs with
  | nil => exact absurd rfl hne
  | cons f fs =>
    have hdecodes := h.account.decodes
    generalize s.offset r.bytesLeft = i at hdecodes
    cases hdecodes with
    | cons hseen hfound hrest =>
      have := hrest.le
      have := Fetched.width_pos hfound
      omega

/-- The rest of a block comment that is passed over, closed or not: its text and the closing marker, or
all up to the end. -/
def EndsComment (r : Reader) (bytes : ByteArray) (exact : Prop) (mark? : Option Nat)
    (s : CharStream Buffer) (x : Bool × CharStream Buffer) : Prop :=
  ∃ fs told, x.2.Sited r bytes exact mark? ∧ Run r bytes exact s x.2 fs told ∧
    if x.1 then ∃ text, heard fs = text ++ ['*', '/'] ∧ splitComment (heard fs) = some (text, [])
    else splitComment (heard fs) = none ∧ x.2.char? = none

/-- What comes before and does not close the comment is part of its text. -/
theorem EndsComment.after {x : Bool × CharStream Buffer} (h : EndsComment r bytes exact mark? t x)
    (hrun : Run r bytes exact s t fs told)
    (hsplit : ∀ cs : List Char, cs.head? = t.char? → splitComment (heard fs ++ cs) =
      (splitComment cs).map fun (text, rest) => (heard fs ++ text, rest)) :
    EndsComment r bytes exact mark? s x := by
  -- The run in front is part of the text of the comment, closed or not.
  obtain ⟨gs, told', hsited, hrun', hrest⟩ := h
  refine ⟨_, _, hsited, hrun.trans hrun', ?_⟩
  have hchar := hrun'.char?_eq
  rw [heard_append]
  split
  · next hclosed =>
    rw [if_pos hclosed] at hrest
    obtain ⟨text, hheard, hfound⟩ := hrest
    refine ⟨heard fs ++ text, by rw [hheard, List.append_assoc], ?_⟩
    rw [hsplit, hfound]
    · rfl
    · rw [hchar, hheard, List.head?_append]
      cases text <;> rfl
  · next hopen =>
    rw [if_neg hopen] at hrest
    refine ⟨?_, hrest.2⟩
    rw [hsplit, hrest.1]
    · rfl
    · rw [hchar, hrest.2, Option.or_none]

/-- The rest of a block comment ends where its characters do. -/
theorem Sited.blockCommentRest (h : s.Sited r bytes exact mark?) :
    EndsComment r bytes exact mark? s s.blockCommentRest := by
  induction hn : s.remaining using Nat.strongRecOn generalizing s with
  | ind n ih =>
    subst hn
    rw [s.blockCommentRest_eq]
    cases hc : s.char? with
    | none => exact ⟨[], [], h, h.refl, rfl, hc⟩
    | some c =>
      have hlt := s.remaining_advance_lt (by rw [hc]; rfl)
      obtain ⟨fs, told, hnext, hrun, hheard⟩ := h.advance
      rw [hc] at hheard
      have hfirst : heard fs = [c] := hheard
      dsimp only
      by_cases hstar : c = '*'
      · subst hstar
        rw [if_pos rfl]
        obtain ⟨gs, told', hafter, hrun', hheard'⟩ := hnext.advance
        have hless := Nat.lt_of_le_of_lt s.advance.remaining_advance_le hlt
        split
        · next hslash =>
          rw [hslash] at hheard'
          have hmarker : heard (fs ++ gs) = [] ++ ['*', '/'] := by
            rw [heard_append, hfirst, hheard']
            rfl
          exact ⟨_, _, hafter, hrun.trans hrun', [], hmarker, by rw [hmarker]; rfl⟩
        · next hslash =>
          split
          · -- The second star is looked at again.
            refine (ih _ hlt hnext rfl).after hrun fun cs hcs => ?_
            rw [hfirst]
            exact splitComment_star cs (by rwa [hcs])
          · next hstar =>
            refine (ih _ hless hafter rfl).after (hrun.trans hrun') fun cs hcs => ?_
            rw [heard_append, hfirst, hheard']
            cases hd : s.advance.char? with
            | none =>
              -- At the end the stream stays.
              have hend := hrun'.char?_eq
              rw [hheard', hd] at hend
              refine splitComment_star cs ?_
              rw [hcs, show s.advance.advance.char? = none from hend.symm]
              exact nofun
            | some d =>
              rw [hd] at hslash hstar
              have hword : '*' ∉ [d] := fun hm => hstar (by rw [List.mem_singleton.mp hm])
              have htail := splitComment_word hword cs
              change splitComment ('*' :: ([d] ++ cs)) = _
              rw [splitComment_star ([d] ++ cs) hslash, htail, Option.map_map]
              rfl
      · rw [if_neg hstar]
        refine (ih _ hlt hnext rfl).after hrun fun cs _ => ?_
        rw [hfirst]
        exact splitComment_word (fun hm => hstar (List.mem_singleton.mp hm).symm) cs

end CharStream

end FrontEnd
