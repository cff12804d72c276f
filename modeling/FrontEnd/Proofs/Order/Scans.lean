import FrontEnd.Proofs.Gaps.Items
import FrontEnd.Proofs.Lexemes
import FrontEnd.Proofs.Places.Stream

/-!
# Lexemes come one behind the other

A stream never goes back in its places, with one exception: of two dots, the first is gone back to. But
then it goes on from there, to the second or to a later line. So every token ends behind the place where it
starts, whatever the bytes are and whether its place is right or not, and each lexeme of a reader is behind
the one before it. Only the end of the input may have the place of the separator before it
(`Reader.rising_scans`).
-/

namespace FrontEnd

/-! ## Streams go on -/

namespace CharStream

variable {s : CharStream Buffer} {fetched : Fetched × Buffer}

/-- Counting a character goes forward. -/
theorem place_le_passChar (s : CharStream Buffer) : s.place ≤ s.passChar.place := by
  unfold passChar
  split
  · exact .inl (Nat.lt_succ_self _)
  · exact .inr ⟨rfl, Nat.succ_le_succ (Nat.le_add_right ..)⟩

/-- Whatever has a width is behind the stream once it is passed. -/
theorem place_lt_passChar (h : 0 < s.width) : s.place < s.passChar.place := by
  unfold passChar
  split
  · exact .inl (Nat.lt_succ_self _)
  · exact .inr ⟨rfl, Nat.succ_lt_succ (Nat.lt_add_of_pos_right h)⟩

/-- What is found takes a byte. -/
theorem width_pos_of_found (h : fetched.1.found) : 0 < (s.receive fetched).width := by
  rw [width_receive]
  exact Fetched.width_pos h

/-- What is passed over goes forward. -/
theorem place_le_seek (s : CharStream Buffer) : s.place ≤ s.seek.place := by
  fun_induction seek s with
  | case1 s _ ih =>
    calc s.place = (s.receive s.window.fetch).place := (place_receive ..).symm
      _ ≤ (s.receive s.window.fetch).passChar.place := place_le_passChar _
      _ ≤ (s.receive s.window.fetch).passChar.seek.place := ih
  | case2 s _ => exact le_of_eq (place_receive ..).symm

/-- Going on does not go back. -/
theorem place_le_advance (s : CharStream Buffer) : s.place ≤ s.advance.place :=
  le_trans (place_le_passChar s) (place_le_seek _)

/-- A current character has a byte. -/
theorem Sound.width_pos (h : s.Sound) (hc : s.char?.isSome) : 0 < s.width := by
  obtain ⟨c, hc⟩ := Option.isSome_iff_exists.mp hc
  rw [h.width_eq c hc]
  exact c.utf8Size_pos

/-- Going on from a character goes forward. -/
theorem place_lt_advance (h : s.Sound) (hc : s.char?.isSome) : s.place < s.advance.place :=
  lt_of_lt_of_le (place_lt_passChar (h.width_pos hc)) (place_le_seek _)

/-- What a stream finds next, it passes with the step after that. -/
theorem place_lt_advance_seek (h : s.window.fetch.1.found) : s.place < s.seek.advance.place := by
  have hplace := place_receive s s.window.fetch
  have hpass : s.place < (s.receive s.window.fetch).passChar.place :=
    hplace ▸ place_lt_passChar (width_pos_of_found h)
  rw [seek]
  split
  · calc s.place < (s.receive s.window.fetch).passChar.place := hpass
      _ ≤ (s.receive s.window.fetch).passChar.seek.place := place_le_seek _
      _ ≤ (s.receive s.window.fetch).passChar.seek.advance.place := place_le_advance _
  · exact lt_of_lt_of_le hpass (place_le_seek _)

/-- What holds of a place and all later ones, going forward keeps. -/
theorem forward_of_le {P : Place → Prop} (hP : ∀ {p q}, p ≤ q → P p → P q) (start : Place) :
    Forward start fun s t : CharStream Buffer => s = t ∧ P s.place :=
  .of_invariant start (fun h => hP (place_le_advance _) h) (fun _ h => h) fun h => h

/-- Going on is strictly forward, as far as it is getting on. -/
theorem onward_getting_on (s : CharStream Buffer) (start : Place) :
    Onward start fun t t' : CharStream Buffer =>
      t = t' ∧ t.Sound ∧ s.place ≤ t.place ∧ (t.remaining < s.remaining → s.place < t.place) :=
  .of_invariant start
    (fun hc ⟨hsound, hle, _⟩ =>
      have hlt := lt_of_le_of_lt hle (place_lt_advance hsound hc)
      ⟨sound_advance hsound.intact, le_of_lt hlt, fun _ => hlt⟩)
    (fun _ ⟨hsound, h⟩ => ⟨⟨hsound.intact, hsound.width_eq⟩, h⟩)
    fun _ ⟨hsound, h⟩ => ⟨⟨hsound.intact, hsound.width_eq⟩, h⟩

/-! ## Going back -/

/-- The column in which the input would end if there were no line to come. -/
def endColumn (s : CharStream Buffer) : Nat := s.column + s.width + s.window.remaining

/-- Behind a character that is no newline, the column has moved by its bytes. -/
theorem column_passChar (s : CharStream Buffer) (h : s.char? ≠ some '\n') :
    s.passChar.column = s.column + s.width := by
  unfold passChar
  rw [if_neg h]

/-- A stream counts what it fetches. -/
theorem endColumn_seek (h : s.window.Within) : s.seek.endColumn = s.column + s.window.remaining := by
  have hreceive (s : CharStream Buffer) (h : s.window.Within) :
      (s.receive s.window.fetch).endColumn = s.column + s.window.remaining := by
    have hfetch := Buffer.remaining_fetch h
    unfold endColumn
    rw [column_receive, width_receive, window_receive]
    omega
  fun_induction seek s with
  | case1 s hp ih =>
    have hwindow : (s.receive s.window.fetch).passChar.window = s.window.fetch.2 := by
      rw [window_passChar, window_receive]
    have hcolumn := column_passChar _ (char?_receive_ne s s.window.fetch (ne_newline_of_passedOver hp))
    have hend := hreceive s h
    unfold endColumn at hend
    rw [ih (hwindow ▸ (Buffer.within_fetch h).1)]
    change (s.receive s.window.fetch).passChar.column +
      (s.receive s.window.fetch).passChar.window.remaining = _
    rw [hcolumn, hwindow, ← hend, window_receive]
  | case2 s hp => exact hreceive s h

/-- Within a line, the end is where it was. -/
theorem endColumn_advance (h : s.window.Within) (hc : s.char? ≠ some '\n') :
    s.advance.endColumn = s.endColumn := by
  unfold advance
  rw [endColumn_seek (by rwa [window_passChar]), column_passChar s hc, window_passChar]
  rfl

/-- Two steps on from the mark on its line, all the bytes since then have been counted. So going back takes no
more off the column than has been put on since. -/
theorem column_add_sinceMark_le (h : s.Sound) (hmark : s.fromMark ≤ s.width + s.window.remaining)
    (hline : s.char? ≠ some '\n') (hline' : s.advance.char? ≠ some '\n') :
    s.column + ByteWindow.sinceMark s.advance.advance.window ≤ s.advance.advance.column + s.advance.advance.width := by
  have h₁ := sound_advance h.intact
  have hend : s.advance.advance.endColumn = s.endColumn :=
    (endColumn_advance h₁.intact hline').trans (endColumn_advance h.intact hline)
  have hfrom : s.advance.advance.fromMark ≤ s.width + s.window.remaining :=
    Nat.le_trans (fromMark_advance_le h₁.intact) (Nat.le_trans (fromMark_advance_le h.intact) hmark)
  generalize s.advance.advance = b at hend hfrom ⊢
  have hsince : b.window.remaining + ByteWindow.sinceMark b.window ≤ s.width + s.window.remaining := hfrom
  unfold endColumn at hend
  omega

/-- Two steps on from the mark, going back to it and one step on gets behind it. -/
theorem place_lt_advance_rewind (h : s.Sound) (hmark : s.fromMark ≤ s.width + s.window.remaining)
    (hc : s.char?.isSome) (hline : s.char? ≠ some '\n') (hline' : s.advance.char? ≠ some '\n') :
    s.place < s.advance.advance.rewind.advance.place := by
  have hcolumn := column_add_sinceMark_le h hmark hline hline'
  have h₁ := sound_advance h.intact
  have h₂ := sound_advance h₁.intact
  have hsame : s.advance.advance.line = s.line :=
    (line_advance _ hline').trans (line_advance _ hline)
  have hlater : s.place < s.advance.advance.place :=
    lt_of_lt_of_le (place_lt_advance h hc) (place_le_advance _)
  generalize s.advance.advance = b at hcolumn hsame hlater h₂
  rw [rewind_eq]
  by_cases hb : b.char? = some '\n'
  · -- A newline that has been looked at counts, although it is still to come.
    have hplace : s.place < b.rewound.place := by
      refine .inl (Nat.succ_lt_succ ?_)
      unfold rewound passChar
      rw [if_pos hb]
      exact Nat.lt_succ_of_le (Nat.le_of_eq hsame.symm)
    exact lt_of_lt_of_le hplace (le_trans (place_le_seek _) (place_le_advance _))
  · have hrewound : b.rewound.line = s.line ∧
        b.rewound.column = b.column + b.width - ByteWindow.sinceMark b.window := by
      unfold rewound passChar
      rw [if_neg hb]
      exact ⟨hsame, rfl⟩
    by_cases hzero : ByteWindow.sinceMark b.window = 0
    · -- Nothing has been taken since the mark, so going back stays where the two steps have led.
      have hplace : s.place < b.rewound.place := by
        rcases hlater with hlt | ⟨-, hlt⟩
        · exact absurd hlt (Nat.not_lt_of_le (Nat.succ_le_succ (Nat.le_of_eq hsame)))
        · refine .inr ⟨congrArg (· + 1) hrewound.1.symm, Nat.succ_lt_succ ?_⟩
          have := Nat.lt_of_succ_lt_succ hlt
          omega
      exact lt_of_lt_of_le hplace (le_trans (place_le_seek _) (place_le_advance _))
    · have hplace : s.place ≤ b.rewound.place := by
        refine .inr ⟨congrArg (· + 1) hrewound.1.symm, Nat.succ_le_succ ?_⟩
        omega
      have hwindow : b.rewound.window = ByteWindow.rewind b.window := by
        unfold rewound
        rw [window_passChar]
      have hfound : b.rewound.window.fetch.1.found := by
        rw [hwindow]
        exact Rewindable.found_rewind h₂.intact (Nat.pos_of_ne_zero hzero)
      exact lt_of_le_of_lt hplace (place_lt_advance_seek hfound)

end CharStream

/-! ## Tokens end behind their start -/

namespace Scanner

open CharStream

variable {s : CharStream Buffer}

/-- A token that starts with a dot ends behind it: where the scanner goes back, it goes on to the second dot. -/
theorem place_lt_dot (l : Lexeme) (h : s.Sound) (hc : s.char? = some '.')
    (hmark : s.fromMark ≤ s.width + s.window.remaining) : s.place < (dot l s).stream.place := by
  have hsome := Option.isSome_of_eq_some hc
  have hlt := place_lt_advance h hsome
  have hbeyond := forward_of_le (P := (s.place < ·)) (fun hpq hp => lt_of_lt_of_le hp hpq) l.place
  unfold dot
  dsimp only
  split
  · exact (hbeyond.foundNumber l (hbeyond.fraction ⟨rfl, hlt⟩)).2.2
  · split
    · next hdot =>
      split
      · exact (hbeyond.goOn (hbeyond.goOn ⟨rfl, hlt⟩)).2
      · exact place_lt_advance_rewind h hmark hsome (by rw [hc]; decide) (by rw [hdot]; decide)
    · exact hlt

/-- A slash goes forward, whether a comment or a token starts with it. -/
theorem place_lt_slash (separable : Bool) (l : Lexeme) (h : s.Sound) (hc : s.char?.isSome) :
    s.place < (slash separable l s).stream.place := by
  have hlt := place_lt_advance h hc
  have hbeyond := forward_of_le (P := (s.place < ·)) (fun hpq hp => lt_of_lt_of_le hp hpq) l.place
  unfold slash
  dsimp only
  split
  · exact (hbeyond.lineComment (hbeyond.goOn ⟨rfl, hlt⟩)).2
  · split
    · have hcomment := (hbeyond.blockComment (hbeyond.goOn ⟨rfl, hlt⟩)).2
      split
      · exact hcomment
      · exact hcomment
    · exact (hbeyond.assignable l .div ⟨rfl, hlt⟩).2.2

/-- An attempt at a character gets behind it. -/
theorem place_lt_attemptAt (separable : Bool) (l : Lexeme) {c : Char} (h : s.Sound)
    (hc : s.char? = some c) (hmark : s.fromMark ≤ s.width + s.window.remaining) :
    s.place < (attemptAt separable l c s).stream.place := by
  have hsome := Option.isSome_of_eq_some hc
  -- The attempt takes something, which is what makes the place grow.
  have hgets : (attemptAt separable l c s).stream.remaining < s.remaining := by
    cases ha : attemptAt separable l c s with
    | found x =>
      refine remaining_of_attemptAt_eq_found ha hc h.intact fun hdot => ?_
      subst hdot
      have hwidth : s.width = 1 := h.width_eq '.' hc
      unfold CharStream.remaining
      rw [hc]
      rw [hwidth, Nat.add_comm] at hmark
      exact hmark
    | passed t => exact remaining_of_attemptAt_eq_passed ha hsome
  have hon := onward_getting_on s l.place
  have hself : s = s ∧ s.Sound ∧ s.place ≤ s.place ∧ (s.remaining < s.remaining → s.place < s.place) :=
    ⟨rfl, h, le_refl _, fun hlt => absurd hlt (Nat.lt_irrefl _)⟩
  -- The stream is compared with itself, the relation saying that no operation goes back.
  refine hon.attemptAt
    (Q := fun x _ : Attempt Buffer => x.stream.remaining < s.remaining → s.place < x.stream.place)
    (t := s) separable rfl hc hself ?_ ?_ ?_ ?_ hgets
  · rintro x y ⟨-, -, -, -, hstrict⟩
    exact hstrict
  · exact fun _ => place_lt_advance (s := s.complainAt l.place _) ⟨h.intact, h.width_eq⟩ hsome
  · rintro rfl _
    exact place_lt_dot l h hc hmark
  · exact fun _ _ => place_lt_slash separable l h hsome

/-- The scanner is behind the lexeme that it has found last, or at the end with what it finds there. -/
def Settled (x : Scanner Buffer) : Prop :=
  x.lexeme.place < x.stream.place ∨
    x.stream.char? = none ∧ x.lexeme.place ≤ x.stream.place ∧ x.lexeme.endsStatement = false

/-- Blanks are passed over, and the mark is set behind them. -/
theorem sound_toToken (separable : Bool) (h : s.Sound) :
    (toToken separable s).Sound ∧ s.place ≤ (toToken separable s).place ∧
      (toToken separable s).fromMark ≤ (toToken separable s).width + (toToken separable s).window.remaining := by
  have hforward := lockstep_sound.toForward (ω := Buffer) s.place
  have hskip := (hforward.skipWhile (isBlank separable) (hforward.clearMark ⟨rfl, h⟩)).2
  have hsame := forward_of_le (P := (s.place ≤ ·)) (fun hpq hp => le_trans hp hpq) s.place
  refine ⟨(lockstep_sound.setMark ⟨rfl, hskip⟩).2, ?_, ?_⟩
  · exact (hsame.skipWhile (isBlank separable) (t := s.clearMark) ⟨rfl, le_refl _⟩).2
  · have hmark := Rewindable.setMark_le (s.clearMark.skipWhile (isBlank separable)).width hskip.intact
    have hremaining := ByteWindow.remaining_setMark
      (s.clearMark.skipWhile (isBlank separable)).width (s.clearMark.skipWhile (isBlank separable)).window
    change _ ≤ (s.clearMark.skipWhile (isBlank separable)).width + ByteWindow.remaining
      (ByteWindow.setMark (s.clearMark.skipWhile (isBlank separable)).width
        (s.clearMark.skipWhile (isBlank separable)).window)
    rw [hremaining, Nat.add_comm]
    exact hmark

/-- An attempt does not go back, and settles what it finds. -/
theorem settled_attempt (separable : Bool) {l : Lexeme} (hl : l.endsStatement = false) (h : s.Sound) :
    match attempt separable l s with
    | .found x => s.place ≤ x.lexeme.place ∧ x.Settled
    | .passed t => s.place ≤ t.place := by
  obtain ⟨hsound, hle, hmark⟩ := sound_toToken separable h
  unfold attempt
  dsimp only
  -- At the end the lexeme stands where the stream does; otherwise it starts there and the stream has moved on.
  cases hc : (toToken separable s).char? with
  | none =>
    dsimp only
    split
    · exact ⟨hle, .inr ⟨hc, le_refl _, hl⟩⟩
    · exact ⟨hle, .inr ⟨hc, le_refl _, hl⟩⟩
  | some c =>
    have hlt := place_lt_attemptAt separable { l with place := (toToken separable s).place } hsound hc hmark
    dsimp only
    cases ha : attemptAt separable _ c (toToken separable s) with
    | found x =>
      rw [ha] at hlt
      have hplace := (found_attemptAt ha).place_eq
      dsimp only
      rw [hplace]
      exact ⟨hle, .inl (hplace ▸ hlt)⟩
    | passed t =>
      rw [ha] at hlt
      exact le_trans hle (le_of_lt hlt)

/-- The next token is not before where it is looked for. -/
theorem settled_find (separable : Bool) {l : Lexeme} (hl : l.endsStatement = false) (h : s.Sound) :
    s.place ≤ (find separable l s).lexeme.place ∧ (find separable l s).Settled := by
  induction hn : s.remaining using Nat.strongRecOn generalizing s with
  | ind n ih =>
    subst hn
    have hattempt := settled_attempt separable hl h
    have hsound := lockstep_sound.attempt separable l ⟨rfl, h⟩
    rw [find_eq]
    cases ha : attempt separable l s with
    | found x =>
      rw [ha] at hattempt
      exact hattempt
    | passed t =>
      rw [ha] at hattempt hsound
      cases hsound with
      | passed ht =>
        obtain ⟨hle, hsettled⟩ := ih _ (remaining_of_attempt_eq_passed ha) ht.2 rfl
        exact ⟨le_trans hattempt hle, hsettled⟩

end Scanner

/-! ## Scans -/

/-- The second lexeme is behind the first. The end of the input may also be where the first is. -/
def Lexeme.Precedes (l m : Lexeme) : Prop :=
  l.place < m.place ∨ m.token = .eof ∧ l.place ≤ m.place

/-- The scans come one behind the other, the first of them behind `l`. -/
def Rising : Lexeme → List Scan → Prop
  | _, [] => True
  | l, scan :: rest => l.Precedes scan.lexeme ∧ Rising scan.lexeme rest

namespace Scanner

variable {x : Scanner Buffer}

/-- Each lexeme is behind the one before it. -/
theorem Settled.precedes_next (h : x.Settled) (hs : x.stream.Sound) :
    x.lexeme.Precedes x.next.lexeme ∧ x.next.Settled := by
  obtain ⟨hle, hsettled⟩ := settled_find x.lexeme.endsStatement (l := x.lexeme.cleared) rfl hs
  refine ⟨?_, hsettled⟩
  rcases h with hlt | ⟨hc, hplace, hsep⟩
  · exact .inl (lt_of_lt_of_le hlt hle)
  · -- At the end there is only the end to come, after anything but what may end a statement.
    have htoken : x.next.lexeme.token = if x.lexeme.endsStatement then .semi else .eof :=
      (find_of_end _ _ hc).2
    rw [hsep] at htoken
    exact .inr ⟨htoken, le_trans hplace hle⟩

/-- So the lexemes come one behind the other. -/
theorem Settled.rising (h : x.Settled) (hs : x.stream.Sound) (n : Nat) : Rising x.lexeme (x.scanUpTo n) := by
  induction n generalizing x with
  | zero => exact trivial
  | succ n ih =>
    obtain ⟨hprecedes, hnext⟩ := h.precedes_next hs
    by_cases heof : x.next.lexeme.token = .eof
    · rw [scanUpTo_of_eof n heof]
      exact ⟨hprecedes, trivial⟩
    · rw [scanUpTo_of_ne n heof]
      refine ⟨hprecedes, ih (x := x.next.dropReports) hnext ?_⟩
      exact sound_dropReports (sound_next hs)

end Scanner

/-- The scans of a reader come one behind the other, whatever it hands out. -/
theorem Reader.rising_scans {r : Reader} {scan : Scan} {rest : List Scan} (h : r.scans = scan :: rest) :
    Rising scan.lexeme rest := by
  have hs := r.sound_ofReader
  unfold scans Scanner.scans at h
  generalize Scanner.ofWindow (Buffer.ofReader r) = x at h hs
  have hnext := (Scanner.settled_find x.lexeme.endsStatement (l := x.lexeme.cleared) rfl hs).2
  by_cases heof : x.next.lexeme.token = .eof
  · rw [Scanner.scanUpTo_of_eof _ heof] at h
    cases h
    exact trivial
  · rw [Scanner.scanUpTo_of_ne _ heof] at h
    cases h
    exact Scanner.Settled.rising (x := x.next.dropReports) hnext
      (Scanner.sound_dropReports (Scanner.sound_next hs)) _

end FrontEnd
