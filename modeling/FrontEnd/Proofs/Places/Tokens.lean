import FrontEnd.Proofs.Lexemes
import FrontEnd.Proofs.Places.Stream

/-!
# Tokens know where they are

The place of a token is that of its first byte, counted off the bytes before it
(`Scanner.place_next_eq`): the byte that its segment starts with, the first byte of a comment that
stands for a newline, or the end of the input. There is one exception. The second of two dots is
found by going back to the first, and if the character after both is a newline, it has been counted
by then. From there on no place is right any more. Places are counted in 32 bits, so the bytes must not
be more than these can count.
-/

namespace FrontEnd

variable {ω : Type} [ByteWindow ω]

/-- The stream is at the first of two dots with a newline after them. -/
def CharStream.AtDotsAndNewline (s : CharStream ω) : Prop :=
  s.char? = some '.' ∧ s.advance.char? = some '.' ∧ s.advance.advance.char? = some '\n'

instance (s : CharStream ω) : Decidable s.AtDotsAndNewline :=
  inferInstanceAs (Decidable (_ ∧ _ ∧ _))

namespace Scanner

/-- The stream at the first character of the next token. -/
def findStart (separable : Bool) (l : Lexeme) (s : CharStream ω) : CharStream ω :=
  match _h : attempt separable l s with
  | .found _ => toToken separable s
  | .passed s' => findStart separable l s'
termination_by s.remaining
decreasing_by exact remaining_of_attempt_eq_passed _h

/-- Where a token starts: behind the blanks, or where one starts behind a comment. -/
theorem findStart_eq (separable : Bool) (l : Lexeme) (s : CharStream ω) :
    findStart separable l s =
      match attempt separable l s with
      | .found _ => toToken separable s
      | .passed s' => findStart separable l s' := by
  rw [findStart.eq_def]
  split <;> next h => rw [h]

/-- The stream at the first character of the token that `next` finds. -/
def start (s : Scanner ω) : CharStream ω :=
  findStart s.lexeme.endsStatement s.lexeme.cleared s.stream

end Scanner

namespace CharStream

/-- Where a token that starts at `s` ends: the place is still right, unless the token is the first of
two dots with a newline after them, and the mark is still there, unless a comment took it along. -/
def Ends (bytes : ByteArray) (total : Nat) (exact : Prop) (s : CharStream Buffer)
    (x : Scanner Buffer) : Prop :=
  ∃ c, x.stream.Placed bytes total none (exact ∧ ¬s.AtDotsAndNewline) c ∧
    (c.mark? = some (s.offset total) ∨ c.mark? = none ∧ x.lexeme.token = .semi ∧
      s.char? = some '/' ∧ s.advance.char? = some '*')

/-- An attempt at `s` comes to a token, or to where the next attempt is made. -/
inductive Leads (bytes : ByteArray) (total : Nat) (exact : Prop) (s : CharStream Buffer) :
    Attempt Buffer → Prop
  | found {x} : s.Ends bytes total exact x → Leads bytes total exact s (.found x)
  | passed {s' c} : s'.Placed bytes total none exact c → Leads bytes total exact s (.passed s')

variable {bytes : ByteArray} {total : Nat} {exact : Prop} {c : Cursor} {s : CharStream Buffer}

/-- Going on keeps the mark where it is. -/
theorem onward_placed (bytes : ByteArray) (total : Nat) (exact : Prop) (m : Nat) (start : Place) :
    Onward start fun s t : CharStream Buffer =>
      s = t ∧ ∃ c, s.Placed bytes total none exact c ∧ c.mark? = some m :=
  .of_invariant start
    (fun _ ⟨_, h, hm⟩ => by
      obtain ⟨n, -, hn⟩ := h.advance.resolve_right (not_fails_none _)
      exact ⟨_, hn, hm⟩)
    (fun _ ⟨c, h, hm⟩ => ⟨c, h.report _, hm⟩) fun _ ⟨c, h, hm⟩ => ⟨c, h.report _, hm⟩

/-- Going forward keeps the mark where it is, or drops it. -/
theorem forward_placed (bytes : ByteArray) (total : Nat) (exact : Prop) (m : Nat) (start : Place) :
    Forward start fun s t : CharStream Buffer =>
      s = t ∧ ∃ c, s.Placed bytes total none exact c ∧ (c.mark? = some m ∨ c.mark? = none) :=
  .of_invariant start
    (fun ⟨_, h, hm⟩ => by
      obtain ⟨n, -, hn⟩ := h.advance.resolve_right (not_fails_none _)
      exact ⟨_, hn, hm⟩)
    (fun r ⟨c, h, hm⟩ => ⟨c, h.report r, hm⟩) fun ⟨c, h, _⟩ => ⟨_, h.clearMark, .inr rfl⟩

/-- A token ends where the stream is placed. -/
theorem Placed.ends {x : Scanner Buffer} (h : x.stream.Placed bytes total none exact c)
    (hm : c.mark? = some (s.offset total)) : s.Ends bytes total exact x :=
  ⟨c, h.mono And.left, .inl hm⟩

/-- Of two dots, the second is found again. -/
theorem Placed.dot (h : s.Placed bytes total none exact c) (hm : c.mark? = some (s.offset total))
    (hc : s.char? = some '.') (l : Lexeme) : s.Ends bytes total exact (Scanner.dot l s) := by
  have honward := onward_placed bytes total exact (s.offset total) l.place
  have hstart := h.offset_eq
  obtain ⟨n₁, hn₁, h₁⟩ := h.advance.resolve_right (not_fails_none _)
  obtain ⟨n₂, hn₂, h₂⟩ := h₁.advance.resolve_right (not_fails_none _)
  have hat : s.advance = s.advance ∧ ∃ c, s.advance.Placed bytes total none exact c ∧
      c.mark? = some (s.offset total) := ⟨rfl, _, h₁, hm⟩
  unfold Scanner.dot
  dsimp only
  split
  · obtain ⟨-, -, c', h', hm'⟩ := honward.foundNumber l (honward.fraction hat)
    exact h'.ends hm'
  · split
    · next hdot =>
      split
      · next hthird =>
        obtain ⟨-, c', h', hm'⟩ := honward.advance (Option.isSome_of_eq_some hthird)
          (honward.advance (Option.isSome_of_eq_some hdot) hat)
        exact Placed.ends (x := ⟨_, _⟩) h' hm'
      · -- Both dots stand on the line of the mark, so going back leaves the line as it is.
        have hline : exact → s.advance.advance.place.line =
            (Place.ofOffset bytes (s.offset total)).line := by
          intro he
          have hplace := congrArg Place.line (h.place_eq he)
          rw [← hstart] at hplace
          rw [← hplace]
          refine congrArg (· + 1) ?_
          rw [line_advance _ (by rw [hdot]; decide), line_advance _ (by rw [hc]; decide)]
        obtain ⟨n, -, hback⟩ := (h₂.rewound hm (by dsimp only; omega) hline).seek.resolve_right
          (not_fails_none _)
        obtain ⟨n', -, hagain⟩ := hback.advance.resolve_right (not_fails_none _)
        refine ⟨_, hagain.mono ?_, .inl hm⟩
        -- The place is exact unless it was a newline that stood behind the two dots.
        rintro ⟨he, hnot⟩
        exact ⟨he, fun hnewline => hnot ⟨hc, hdot, hnewline⟩⟩
    · exact Placed.ends (x := ⟨_, _⟩) h₁ hm

/-- A comment, if it does not count as a newline, and otherwise a token. -/
theorem Placed.slash (h : s.Placed bytes total none exact c) (hm : c.mark? = some (s.offset total))
    (hc : s.char? = some '/') (separable : Bool) (l : Lexeme) :
    Leads bytes total exact s (Scanner.slash separable l s) := by
  have honward := onward_placed bytes total exact (s.offset total) l.place
  have hforward := forward_placed bytes total exact (s.offset total) l.place
  obtain ⟨n, -, h₁⟩ := h.advance.resolve_right (not_fails_none _)
  unfold Scanner.slash
  dsimp only
  split
  · obtain ⟨-, c', h', -⟩ := hforward.lineComment (hforward.goOn ⟨rfl, _, h₁, .inl hm⟩)
    exact .passed h'
  · split
    · next hstar =>
      obtain ⟨-, c', h', hm'⟩ := hforward.blockComment (hforward.goOn ⟨rfl, _, h₁, .inl hm⟩)
      split
      · -- A block comment that stands for a newline is found as a token; its mark may be gone.
        refine .found ⟨c', h'.mono And.left, hm'.imp_right fun hm' => ?_⟩
        exact ⟨hm', rfl, hc, hstar⟩
      · exact .passed h'
    · obtain ⟨-, -, c', h', hm'⟩ := honward.assignable l .div ⟨rfl, _, h₁, hm⟩
      exact .found (h'.ends hm')

/-- An attempt at a character leads on from there. -/
theorem Placed.attemptAt (h : s.Placed bytes total none exact c) (hm : c.mark? = some (s.offset total))
    {ch : Char} (hc : s.char? = some ch) (separable : Bool) (l : Lexeme) :
    Leads bytes total exact s (Scanner.attemptAt separable l ch s) := by
  refine (onward_placed bytes total exact (s.offset total) l.place).attemptAt
    (Q := fun x _ => Leads bytes total exact s x) (t := s) separable rfl hc
    ⟨rfl, c, h, hm⟩ ?_ ?_ ?_ ?_
  · rintro x y ⟨-, -, c', h', hm'⟩
    exact .found (h'.ends hm')
  · obtain ⟨n, -, hn⟩ := (h.report _).advance.resolve_right (not_fails_none _)
    exact .passed hn
  · rintro rfl
    exact .found (h.dot hm hc l)
  · rintro rfl
    exact h.slash hm hc separable l

/-- Blanks are passed over, and the mark is set behind them. -/
theorem Placed.toToken (h : s.Placed bytes total none exact c) (separable : Bool) :
    ∃ c', (Scanner.toToken separable s).Placed bytes total none exact c' ∧
      c'.mark? = some ((Scanner.toToken separable s).offset total) := by
  have hforward := forward_placed bytes total exact 0 s.place
  obtain ⟨-, c', h', -⟩ := hforward.skipWhile (Scanner.isBlank separable)
    (t := s.clearMark) ⟨rfl, _, h.clearMark, .inr rfl⟩
  refine ⟨_, h'.setMark, ?_⟩
  exact congrArg some h'.offset_eq.symm

/-- The token `x` starts at `s`: it is placed there, and only at the end of the input it is told as
that. -/
structure Begins (bytes : ByteArray) (total : Nat) (exact : Prop) (s : CharStream Buffer)
    (x : Scanner Buffer) : Prop where
  placed : ∃ c, s.Placed bytes total none exact c
  place_eq : x.lexeme.place = s.place
  ends : s.Ends bytes total exact x
  char?_eq : x.lexeme.token = .eof ∨ x.lexeme.token = .semi ∧ x.lexeme.literal = Lexeme.endReason →
    s.char? = none

/-- An attempt finds a token that starts behind the blanks, or passes over something. -/
theorem Placed.attempt (h : s.Placed bytes total none exact c) (separable : Bool) (l : Lexeme) :
    (∃ x, Scanner.attempt separable l s = .found x ∧
        (Scanner.toToken separable s).Begins bytes total exact x) ∨
      ∃ s' c', Scanner.attempt separable l s = .passed s' ∧ s'.Placed bytes total none exact c' := by
  obtain ⟨c', h', hm'⟩ := h.toToken separable
  unfold Scanner.attempt
  dsimp only
  cases hc : (Scanner.toToken separable s).char? with
  | none =>
    refine .inl ⟨_, rfl, ⟨_, h'⟩, ?_, Placed.ends (x := ⟨_, _⟩) h' hm', fun _ => hc⟩
    dsimp only
    split <;> rfl
  | some ch =>
    have hleads := h'.attemptAt hm' hc separable { l with place := (Scanner.toToken separable s).place }
    dsimp only
    cases ha : Scanner.attemptAt separable _ ch (Scanner.toToken separable s) with
    | found x =>
      rw [ha] at hleads
      have hfound := Scanner.found_attemptAt ha
      cases hleads with
      | found hends =>
        refine .inl ⟨x, rfl, ⟨_, h'⟩, hfound.place_eq, hends, ?_⟩
        -- A token that was found is neither the end of the input nor the semicolon inserted there.
        rintro (he | ⟨he, hl⟩)
        · exact absurd he hfound.token_ne_eof
        · rcases hfound.literal_of_semi he with hr | hr <;> rw [hr] at hl <;>
            exact absurd hl (by decide)
    | passed s' =>
      rw [ha] at hleads
      cases hleads with
      | passed hpassed => exact .inr ⟨s', _, rfl, hpassed⟩

/-- The next token starts where it is looked for. -/
theorem Placed.find (h : s.Placed bytes total none exact c) (separable : Bool) (l : Lexeme) :
    (Scanner.findStart separable l s).Begins bytes total exact (Scanner.find separable l s) := by
  induction hn : s.remaining using Nat.strongRecOn generalizing s c with
  | ind n ih =>
    subst hn
    rw [Scanner.findStart_eq, Scanner.find_eq]
    rcases h.attempt separable l with ⟨x, hx, hbegins⟩ | ⟨s', c', hs', h'⟩
    · rw [hx]
      exact hbegins
    · rw [hs']
      exact ih _ (Scanner.remaining_of_attempt_eq_passed hs') h' rfl

end CharStream

namespace Scanner

variable {bytes : ByteArray} {total : Nat}

/-- The next token after any number of others starts where it is looked for, and its place is right
if there was no newline after two dots up to there. -/
theorem begins_next {exact : Prop} {s : Scanner Buffer} {c : Cursor}
    (h : s.stream.Placed bytes total none exact c) (n : Nat) :
    (s.after n).start.Begins bytes total (exact ∧ ∀ k < n, ¬(s.after k).start.AtDotsAndNewline)
      (s.after n).next := by
  induction n generalizing s c exact with
  | zero => exact (h.mono And.left).find _ _
  | succ n ih =>
    have hbegins := h.find s.lexeme.endsStatement s.lexeme.cleared
    obtain ⟨c', h', -⟩ := hbegins.ends
    have hlater := ih (s := s.next.dropReports) h'.dropReports
    have hiff : (exact ∧ ∀ k < n + 1, ¬(s.after k).start.AtDotsAndNewline) →
        (exact ∧ ¬s.start.AtDotsAndNewline) ∧
          ∀ k < n, ¬(s.next.dropReports.after k).start.AtDotsAndNewline :=
      fun ⟨he, hk⟩ => ⟨⟨he, hk 0 n.succ_pos⟩, fun k hkn => hk (k + 1) (Nat.succ_lt_succ hkn)⟩
    obtain ⟨⟨c₁, hplaced⟩, hplace, ⟨c₂, hstream, hmark⟩, hend⟩ := hlater
    exact ⟨⟨c₁, hplaced.mono hiff⟩, hplace,
      ⟨c₂, hstream.mono fun ⟨he, hd⟩ => ⟨hiff he, hd⟩, hmark⟩, hend⟩

/-- The scanner on a reader before its first token is at the first byte. -/
theorem placed_ofWindow {r : Reader} (hr : r.Delivers bytes) :
    ∃ c, (ofWindow (Buffer.ofReader r)).stream.Placed bytes r.bytesLeft none True c := by
  have hreached : CharStream.Reached bytes r.bytesLeft none True (.ofBytes bytes)
      { window := Buffer.ofReader r, line := 0, column := 0, char? := none, width := 0,
        reports := #[] } :=
    ⟨Buffer.views_ofReader hr.hands, fun _ => rfl⟩
  obtain ⟨n, -, hn⟩ := hreached.seek.resolve_right (CharStream.not_fails_none _)
  exact ⟨_, hn⟩

/-- What reads `bytes` places each token by the bytes before its first one, as long as 32 bits can count
them all, and one more, and no newline came right after two dots. Then 32 bits hold that place too. The
segment starts with that byte, unless the token is a separator that a comment stands for; and the input is
at its end where the token says so. -/
theorem place_next_eq {r : Reader} (hr : r.Delivers bytes) (n : Nat) :
    let s := (ofWindow (Buffer.ofReader r)).after n
    let first := s.start.offset r.bytesLeft
    (∀ scan, r.scans[n]? = some scan → scan.lexeme = s.next.lexeme) ∧
    (bytes.size + 1 < UInt32.size →
      (∀ k < n, ¬((ofWindow (Buffer.ofReader r)).after k).start.AtDotsAndNewline) →
      s.next.lexeme.place = .ofOffset bytes first ∧ s.next.lexeme.place.Fits) ∧
    (s.next.segment = bytes.extract first (s.next.stream.offset r.bytesLeft) ∨
      s.next.segment = .empty ∧ s.next.lexeme.token = .semi ∧
        s.start.char? = some '/' ∧ s.start.advance.char? = some '*') ∧
    (s.next.lexeme.token = .eof ∨
        s.next.lexeme.token = .semi ∧ s.next.lexeme.literal = Lexeme.endReason →
      first = bytes.size) := by
  intro s first
  obtain ⟨c, hstart⟩ := placed_ofWindow hr
  -- Where call `n` begins and ends, from the invariant carried through the calls before.
  obtain ⟨⟨c₁, hplaced⟩, hplace, ⟨c₂, hstream, hmark⟩, hend⟩ := begins_next hstart n
  have hfirst : first = c₁.offset - s.start.width := hplaced.offset_eq
  refine ⟨fun scan => lexeme_of_scanUpTo, fun hsize hdots => ?_, ?_, fun he => ?_⟩
  · have hexact : s.next.lexeme.place = .ofOffset bytes first := by
      rw [hplace, hfirst]
      exact hplaced.place_eq ⟨trivial, hdots⟩
    -- A place in the text is no larger than the text, so the bound on its size makes it fit.
    have hle : first ≤ bytes.size := by
      have hoffset := hplaced.views.offset_le
      omega
    exact ⟨hexact, hexact ▸ Place.fits_ofOffset (Nat.lt_of_le_of_lt (Nat.succ_le_succ hle) hsize)⟩
  · have hsegment := hstream.marked_eq
    rcases hmark with hm | ⟨hm, hcomment⟩
    · rw [hm, ← hstream.offset_eq] at hsegment
      exact .inl hsegment
    · rw [hm] at hsegment
      exact .inr ⟨hsegment, hcomment⟩
  · exact hplaced.offset_of_end (hend he)

/-- The second of two dots behind a comment with a newline. -/
theorem place_next_eq_dots :
    let bytes := "x /*\n*/ ..y".toUTF8
    let r := Reader.ofBytes bytes
    let s := (ofWindow (Buffer.ofReader r)).after 3
    bytes.size + 1 < UInt32.size ∧
      (∀ k < 3, ¬((ofWindow (Buffer.ofReader r)).after k).start.AtDotsAndNewline) ∧
      s.next.lexeme.token = .dot ∧ s.start.offset r.bytesLeft = 9 ∧
      s.next.lexeme.place = .ofOffset bytes 9 ∧ s.next.lexeme.place.Fits := by
  intro bytes r s
  have hsize : bytes.size + 1 < UInt32.size := by decide +kernel
  have hdots : ∀ k < 3, ¬((ofWindow (Buffer.ofReader r)).after k).start.AtDotsAndNewline := by
    decide +kernel
  have hfirst : s.start.offset r.bytesLeft = 9 := by decide +kernel
  have hplace := (place_next_eq (Reader.delivers_ofBytes bytes) 3).2.1 hsize hdots
  refine ⟨hsize, hdots, by decide +kernel, hfirst, ?_⟩
  rw [← hfirst]
  exact hplace

/-- After two dots and a newline the places are wrong: here, the second dot is in the first line. -/
example :
    ((ofWindow (Buffer.ofReader (.ofBytes "..\nx".toUTF8))).after 1).next.lexeme.place = ⟨2, 2⟩ := by
  decide +kernel

end Scanner

end FrontEnd
