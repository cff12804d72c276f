import FrontEnd.Proofs.Reworded.Comment

/-!
# Sources that differ in the word of one comment

A scanner gets from one token to the next by attempts, and comes by them to a comment that sets up a base
(`Scanner.MeetsBase`). On a source in which that comment starts with another word, the attempts before it
come to the same, since none of them gets past the marker. The two comments are passed over alike, and
behind them everything is the same. So the scans are the same up to the report of the comment, about which
nothing is said (`Scanner.audible_scans_commented`).
-/

namespace FrontEnd

/-- Whether the report is a directive that sets up a base. -/
def Report.setsUpBase : Report → Bool
  | .error _ => false
  | .directive place comment =>
    match LineDirective.candidate? place comment with
    | none => false
    | some candidate =>
      match LineDirective.read candidate.text with
      | .accepted _ => true
      | .unrelated | .rejected .. => false

/-- Nothing is said about a directive that only sets up a base. -/
theorem Report.isSilent_of_setsUpBase {r : Report} (h : r.setsUpBase) : r.isSilent := by
  cases r with
  | error e => cases h
  | directive place comment =>
    unfold setsUpBase at h
    unfold isSilent
    dsimp only at h ⊢
    cases hc : LineDirective.candidate? place comment with
    | none => rfl
    | some candidate =>
      rw [hc] at h
      dsimp only at h ⊢
      cases hread : LineDirective.read candidate.text with
      | unrelated => rfl
      | accepted directive => rfl
      | rejected offset cause =>
        rw [hread] at h
        cases h

/-- A source with a comment behind `front` that starts with the word. -/
def commented (front : ByteArray) (x : Char) (word : List Char) (back : ByteArray) : ByteArray :=
  opened front x ++ ((String.ofList word).toUTF8 ++ back)

/-- The source is what opens the comment, its word, and what is behind. -/
theorem commented_eq (front : ByteArray) (x : Char) (word : List Char) (back : ByteArray) :
    commented front x word back = opened front x ++ (word.utf8Encode ++ back) :=
  congrArg (fun bytes => opened front x ++ (bytes ++ back)) String.toByteArray_ofList

namespace Scanner

open CharStream

/-! ## One attempt after the other -/

section

variable {ω ω' : Type} [ByteWindow ω] [ByteWindow ω']

/-- The first attempt to find the next token. -/
def attempted (s : Scanner ω) : Attempt ω :=
  attempt s.lexeme.endsStatement s.lexeme.cleared s.stream

/-- The scanner after one attempt, at the token that it finds or behind what it passes over. -/
def tried (s : Scanner ω) : Scanner ω :=
  match s.attempted with
  | .found x => x.dropReports
  | .passed t => { s with stream := t }

/-- What an attempt finds is the next token. -/
theorem next_of_found {s x : Scanner ω} (h : s.attempted = .found x) : s.next = x := by
  unfold next
  rw [find_eq]
  unfold attempted at h
  rw [h]

/-- An attempt that passes over a comment finds no token. -/
theorem scanUpTo_of_passed {s : Scanner ω} {t : CharStream ω} (h : s.attempted = .passed t) (n : Nat) :
    s.scanUpTo n = ({ s with stream := t } : Scanner ω).scanUpTo n := by
  have hnext : s.next = ({ s with stream := t } : Scanner ω).next := by
    unfold next
    rw [find_eq]
    unfold attempted at h
    rw [h]
  cases n with
  | zero => rfl
  | succ n => rw [scanUpTo, scanUpTo, hnext]

/-- Trying leaves as much to come as the attempt does. -/
theorem remaining_tried (s : Scanner ω) : s.tried.stream.remaining = s.attempted.stream.remaining := by
  unfold tried
  cases s.attempted <;> rfl

/-- After attempts that come to the same, scanners are in step, if dropping the reports keeps them so. -/
theorem inStep_tried {R : CharStream ω → CharStream ω' → Prop} {s : Scanner ω} {t : Scanner ω'}
    (hlexeme : s.lexeme = t.lexeme) (h : s.attempted.InStep R t.attempted)
    (hdrop : ∀ {p q}, R p q → R p.dropReports q.dropReports) : s.tried.InStep R t.tried := by
  unfold tried
  cases hs : s.attempted <;> cases ht : t.attempted <;> rw [hs, ht] at h <;> cases h
  case found.found.found h => exact ⟨h.1, hdrop h.2⟩
  case passed.passed.passed h => exact ⟨hlexeme, h⟩

end

variable {s t : Scanner Cursor}

/-- If attempts come to the same and leave the same to find, the same is found. -/
theorem audible_scanUpTo_of_tried {R : CharStream Cursor → CharStream Cursor → Prop}
    (hR : ∀ {p q}, R p q → p.audible = q.audible) (h : s.attempted.InStep R t.attempted)
    (htried : ∀ n, (s.tried.scanUpTo n).map Scan.audible = (t.tried.scanUpTo n).map Scan.audible) (n : Nat) :
    (s.scanUpTo n).map Scan.audible = (t.scanUpTo n).map Scan.audible := by
  unfold tried at htried
  -- Both attempts pass over, and the scans are those behind; or both find a token, and the scans start with it.
  cases hs : s.attempted with
  | passed p =>
    cases ht : t.attempted with
    | found y => rw [hs, ht] at h; cases h
    | passed q =>
      rw [hs, ht] at htried
      rw [scanUpTo_of_passed hs, scanUpTo_of_passed ht]
      exact htried n
  | found x =>
    cases ht : t.attempted with
    | passed q => rw [hs, ht] at h; cases h
    | found y =>
      rw [hs, ht] at h htried
      cases h with
      | found hstep =>
        have hscan : Scan.audible ⟨x.lexeme, x.reports⟩ = Scan.audible ⟨y.lexeme, y.reports⟩ := by
          unfold Scan.audible
          rw [hstep.1]
          exact congrArg (Scan.mk _) (hR hstep.2)
        cases n with
        | zero => rfl
        | succ n =>
          unfold scanUpTo
          dsimp only
          rw [next_of_found hs, next_of_found ht, ← hstep.1]
          split
          · rw [List.map_singleton, List.map_singleton, hscan, hstep.1]
          · rw [List.map_cons, List.map_cons, hscan, hstep.1, htried n]

/-- The mark that the stream has before the next token does not matter. -/
theorem scanUpTo_clearMark (s : Scanner Cursor) (n : Nat) :
    ({ s with stream := s.stream.clearMark } : Scanner Cursor).scanUpTo n = s.scanUpTo n := by
  have hnext : ({ s with stream := s.stream.clearMark } : Scanner Cursor).next = s.next :=
    find_clearMark ..
  cases n with
  | zero => rfl
  | succ n => rw [scanUpTo, scanUpTo, hnext]

/-! ## Up to the comment -/

/-- The scanner comes to a comment that starts at offset `i` and sets up a base. -/
inductive MeetsBase (i : Nat) : Scanner Cursor → Prop
  /-- nothing but blanks comes before it -/
  | here (s : Scanner Cursor) (comment : String) :
      (toToken s.lexeme.endsStatement s.stream).char? = some '/' →
      (toToken s.lexeme.endsStatement s.stream).window.offset = i + 1 →
      s.attempted.stream.reports.back? =
        some (.directive (toToken s.lexeme.endsStatement s.stream).place comment) →
      (Report.directive (toToken s.lexeme.endsStatement s.stream).place comment).setsUpBase →
      MeetsBase i s
  /-- something else comes before it -/
  | later (s : Scanner Cursor) : MeetsBase i s.tried → MeetsBase i s

/-- Going on leaves the bytes as they are. -/
theorem bytes_advance (s : CharStream Cursor) : s.advance.window.bytes = s.window.bytes := by
  have hseek (s : CharStream Cursor) : s.seek.window.bytes = s.window.bytes := by
    have hfetch (s : CharStream Cursor) : (s.receive (ByteWindow.fetch s.window)).window.bytes = s.window.bytes := by
      rw [window_receive]
      exact s.window.bytes_fetch
    fun_induction seek s with
    | case1 s hp ih => rw [ih, window_passChar, hfetch]
    | case2 s hp => rw [hfetch]
  rw [advance, hseek, window_passChar]

/-- The bytes stay the same. -/
theorem finding_bytes (bytes : ByteArray) :
    Finding fun s t : CharStream Cursor => s = t ∧ s.window.bytes = bytes where
  toForward start := .of_invariant start (fun {s} h => (bytes_advance s).trans h) (fun _ h => h) fun h => h
  setMark := by
    rintro s _ ⟨rfl, h⟩
    exact ⟨rfl, h⟩
  rewind := by
    rintro s _ ⟨rfl, h⟩
    exact ⟨rfl, (bytes_advance _).trans h⟩

/-- Trying leaves a sound stream. -/
theorem sound_tried (hs : s.stream.Sound) : s.tried.stream.Sound :=
  (inStep_tried rfl (lockstep_sound.attempt _ _ ⟨rfl, hs⟩) lockstep_sound.dropReports).2.2

/-- Trying leaves the bytes as they are. -/
theorem bytes_tried (s : Scanner Cursor) : s.tried.stream.window.bytes = s.stream.window.bytes := by
  refine (inStep_tried rfl ((finding_bytes s.stream.window.bytes).attempt _ _ ⟨rfl, rfl⟩) ?_).2.2
  rintro p _ ⟨rfl, h⟩
  exact ⟨rfl, h⟩

variable {front back : ByteArray} {x : Char} {word : List Char}

/-- As long as the comment is to come, so is its marker. -/
theorem MeetsBase.fromMarker_le {rest : ByteArray} (h : s.MeetsBase front.size) (hs : s.stream.Sound)
    (hbytes : s.stream.window.bytes = opened front x ++ rest) : fromMarker front x rest ≤ s.stream.remaining := by
  induction h with
  | here s comment hslash hat =>
    have hmarked := (finding_bytes _).toToken s.lexeme.endsStatement ⟨rfl, hbytes⟩
    have hcount : (toToken s.lexeme.endsStatement s.stream).remaining =
        (opened front x ++ rest).size - (front.size + 1) + 1 := by
      unfold CharStream.remaining
      rw [hslash, ← hmarked.2, ← hat]
      rfl
    have hle := remaining_toToken_le s.lexeme.endsStatement s.stream
    unfold fromMarker
    omega
  | later s _ ih =>
    have hle := remaining_attempt_le s.lexeme.endsStatement s.lexeme.cleared hs
    have hrest := ih (sound_tried hs) ((bytes_tried s).trans hbytes)
    rw [remaining_tried] at hrest
    exact Nat.le_trans hrest hle

/-- At a slash the attempt is the one for slashes, on both sources. -/
theorem attempted_of_slash {rest rest' : ByteArray}
    (hslash : (toToken s.lexeme.endsStatement s.stream).char? = some '/') (hlexeme : s.lexeme = t.lexeme)
    (h : Alike front x rest rest' (toToken s.lexeme.endsStatement s.stream)
      (toToken s.lexeme.endsStatement t.stream)) :
    ∃ l,
      s.attempted = slash s.lexeme.endsStatement l (toToken s.lexeme.endsStatement s.stream) ∧
      t.attempted = slash s.lexeme.endsStatement l (toToken s.lexeme.endsStatement t.stream) := by
  unfold attempted attempt
  dsimp only
  rw [← hlexeme, ← h.place_eq, ← h.char?_eq, hslash]
  exact ⟨_, rfl, rfl⟩

/-- The comments are passed over alike, and behind them the same is found. -/
theorem MeetsBase.audible_scanUpTo (hx : x ∈ markerSeconds) (hword : IsSubstitute word)
    (h : s.MeetsBase front.size) (hs : s.stream.Sound)
    (hstep : s.InStep (Alike front x (lineWord.utf8Encode ++ back) (word.utf8Encode ++ back)) t) (n : Nat) :
    (s.scanUpTo n).map Scan.audible = (t.scanUpTo n).map Scan.audible := by
  induction h generalizing t n with
  | here s comment hslash hat hlast hbase =>
    have htoken := alike_toToken hx hstep.2 s.lexeme.endsStatement
    have hattempted : s.attempted.InStep (BehindUnmarked (opened front x ++ lineWord.utf8Encode)
        (opened front x ++ word.utf8Encode) back) t.attempted := by
      obtain ⟨l, hs', ht'⟩ := attempted_of_slash hslash hstep.1 htoken
      -- The last that is reported is the comment, which only sets up a base.
      rw [hs'] at hlast
      rw [hs', ht']
      refine inStep_slash hx hword htoken hat _ l fun r hr => ?_
      rw [hlast] at hr
      cases hr
      exact Report.isSilent_of_setsUpBase hbase
    -- Nothing looks at the mark any more.
    have htried := inStep_tried hstep.1 hattempted BehindUnmarked.dropReports
    refine audible_scanUpTo_of_tried BehindUnmarked.audible_eq hattempted (fun n => ?_) n
    rw [← scanUpTo_clearMark s.tried, ← scanUpTo_clearMark t.tried]
    exact audible_scanUpTo_of_behind (hword.size_append _) n htried
  | later s hmeets ih =>
    have hattempted : s.attempted.InStep
        (Alike front x (lineWord.utf8Encode ++ back) (word.utf8Encode ++ back)) t.attempted := by
      have hupto := upto_attempt hx hstep.2 s.lexeme.endsStatement s.lexeme.cleared
      unfold attempted
      rw [← hstep.1]
      -- The comment is still to come, so the attempt has not got past its marker.
      refine hupto ?_
      have hrest := hmeets.fromMarker_le (sound_tried hs) ((bytes_tried s).trans hstep.2.bytes_eq)
      rwa [remaining_tried] at hrest
    have htried := inStep_tried hstep.1 hattempted Alike.dropReports
    refine audible_scanUpTo_of_tried (fun halike => ?_) hattempted (ih (sound_tried hs) htried) n
    unfold audible
    rw [halike.reports_eq]

/-- The scans of sources that differ in the word of a comment that sets up a base are the same up to what is
reported of that comment. -/
theorem audible_scans_commented (hx : x ∈ markerSeconds) (hword : IsSubstitute word)
    (h : (ofWindow (Cursor.ofBytes (commented front x lineWord back))).MeetsBase front.size) :
    (ofWindow (Cursor.ofBytes (commented front x lineWord back))).scans.map Scan.audible =
      (ofWindow (Cursor.ofBytes (commented front x word back))).scans.map Scan.audible := by
  have hs := Cursor.sound_ofBytes (commented front x lineWord back)
  have ht := Cursor.sound_ofBytes (commented front x word back)
  obtain ⟨n, hscans, hscans'⟩ := exists_scans_eq hs ht
  rw [hscans, hscans']
  have hstep : (ofWindow (Cursor.ofBytes (commented front x lineWord back))).InStep
      (Alike front x (lineWord.utf8Encode ++ back) (word.utf8Encode ++ back))
      (ofWindow (Cursor.ofBytes (commented front x word back))) := by
    rw [commented_eq, commented_eq]
    exact ⟨rfl, alike_seek_of_le hx rfl (Nat.le_refl 0) (Nat.zero_le _)⟩
  exact h.audible_scanUpTo hx hword hs hstep n

end Scanner

end FrontEnd
