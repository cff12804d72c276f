import FrontEnd.Proofs.Places.Counters
import Mathlib.Data.List.Chain
import Mathlib.Logic.Function.Iterate

/-!
# Streams of tokens end for good

A text has few lexemes, they come one behind the other, and the last of them is the end of the input, the
only one. What the end of the input may share its place with is the separator that it stands for itself:
the scanner rests at the end then, instead of behind what it has found (`Scanner.Rests`).

Behind the end there is nothing but the end. A scanner that has come to it stays as it is, down to what it
has to tell and to its reader, whatever that would hand out (`Scanner.iterate_next_of_eof`).
-/

namespace FrontEnd

/-! ## One lexeme and the next -/

/-- The second lexeme is behind the first, or the two are at the end of the input: the separator that this
stands for, and the end itself. -/
def Lexeme.Before (l m : Lexeme) : Prop :=
  l.place < m.place ∨
    m.token = .eof ∧ l.token = .semi ∧ l.literal = Lexeme.endReason ∧ l.place = m.place

/-- The lexeme is there because the input ends: the end itself, or the separator that it stands for. -/
def Lexeme.OfEnd (l : Lexeme) : Prop :=
  l.token = .eof ∨ l.token = .semi ∧ l.literal = Lexeme.endReason

namespace Scanner

open CharStream

/-- The scanner is behind the lexeme that it has found last, or right at the end, which is what it has
found. -/
def Rests (x : Scanner Buffer) : Prop :=
  x.lexeme.place < x.stream.place ∨
    x.stream.char? = none ∧ x.lexeme.place = x.stream.place ∧ x.lexeme.OfEnd ∧
      x.lexeme.endsStatement = false

/-- Forgetting the reports leaves a scanner at rest. -/
theorem Rests.dropReports {x : Scanner Buffer} (h : x.Rests) : x.dropReports.Rests := h

/-- A scanner rests behind what an attempt finds. -/
theorem rests_of_attempt_eq_found {separable : Bool} {l : Lexeme} {s : CharStream Buffer}
    {x : Scanner Buffer} (hl : l.endsStatement = false) (hs : s.Sound)
    (h : attempt separable l s = .found x) : x.Rests := by
  obtain ⟨hsound, -, hmark⟩ := sound_toToken separable hs
  unfold attempt at h
  dsimp only at h
  cases hc : (toToken separable s).char? with
  | none =>
    rw [hc] at h
    cases h
    refine .inr ⟨hc, ?_⟩
    -- With a statement to end, the end of the input is a separator first.
    cases separable
    · exact ⟨rfl, .inl rfl, hl⟩
    · exact ⟨rfl, .inr ⟨rfl, rfl⟩, hl⟩
  | some c =>
    rw [hc] at h
    dsimp only at h
    have hlt := place_lt_attemptAt separable { l with place := (toToken separable s).place } hsound hc hmark
    rw [h] at hlt
    left
    rw [(found_attemptAt h).place_eq]
    exact hlt

/-- A scanner rests after every token. -/
theorem rests_next {x : Scanner Buffer} (hx : x.stream.Sound) : x.next.Rests := by
  -- Attempts that pass something over keep the stream sound.
  have hpassed {separable : Bool} {l : Lexeme} {s s' : CharStream Buffer} (hs : s.Sound)
      (ha : attempt separable l s = .passed s') : s'.Sound := by
    have hsound := lockstep_sound.attempt separable l ⟨rfl, hs⟩
    rw [ha] at hsound
    cases hsound with
    | passed h => exact h.2
  obtain ⟨s, hs, ha⟩ : ∃ s, s.Sound ∧ attempt x.lexeme.endsStatement x.lexeme.cleared s = .found x.next :=
    exists_attempt_eq_found hpassed hx
  exact rests_of_attempt_eq_found rfl hs ha

/-- What a scanner finds after something other than the end is behind that. -/
theorem Rests.before_next {x : Scanner Buffer} (h : x.Rests) (hx : x.stream.Sound)
    (hne : x.lexeme.token ≠ .eof) : x.lexeme.Before x.next.lexeme := by
  obtain hlt | ⟨hc, hplace, heof | ⟨hsemi, hreason⟩, hsep⟩ := h
  · -- The search starts behind the lexeme and does not go back.
    have hle : x.stream.place ≤ x.next.lexeme.place := (settled_find _ rfl hx).1
    exact .inl (lt_of_lt_of_le hlt hle)
  · exact absurd heof hne
  · -- After the separator there is the end, where the stream already is.
    have hnext := find_eq_of_end x.lexeme.endsStatement x.lexeme.cleared hc
    rw [hsep] at hnext
    have hlexeme : x.next.lexeme = Lexeme.atEnd { x.lexeme.cleared with place := x.stream.place } := by
      unfold next
      rw [hsep, hnext]
      rfl
    right
    rw [hlexeme]
    exact ⟨rfl, hsemi, hreason, hplace⟩

/-- The scans of a scanner come one behind the other, the first of them behind the lexeme that it has found
last. -/
theorem Rests.chain_scanUpTo {x : Scanner Buffer} (h : x.Rests) (hx : x.stream.Sound)
    (hne : x.lexeme.token ≠ .eof) (n : Nat) :
    (x.lexeme :: (x.scanUpTo n).map Scan.lexeme).IsChain Lexeme.Before := by
  induction n generalizing x with
  | zero => exact .singleton _
  | succ n ih =>
    have hbefore := h.before_next hx hne
    by_cases heof : x.next.lexeme.token = .eof
    · rw [scanUpTo_of_eof n heof]
      exact .cons_cons hbefore (.singleton _)
    · rw [scanUpTo_of_ne n heof]
      refine .cons_cons hbefore (ih (rests_next hx).dropReports ?_ heof)
      exact sound_dropReports (sound_next hx)

/-- There are no more scans than were asked for. -/
theorem length_scanUpTo_le (x : Scanner Buffer) (n : Nat) : (x.scanUpTo n).length ≤ n := by
  induction n generalizing x with
  | zero => exact Nat.le_refl 0
  | succ n ih =>
    unfold scanUpTo
    dsimp only
    split
    · exact Nat.succ_le_succ n.zero_le
    · exact Nat.succ_le_succ (ih _)

/-- Of complete scans, the last and only the last is the end of the input. -/
theorem Complete.exists_last {scans : List Scan} (h : Complete scans) : ∃ before last,
    scans = before ++ [last] ∧ last.lexeme.token = .eof ∧
      ∀ scan ∈ before, scan.lexeme.token ≠ .eof := by
  induction h with
  | @last scan heof => exact ⟨[], scan, rfl, heof, List.forall_mem_nil _⟩
  | @cons scan rest hne _ ih =>
    obtain ⟨before, last, rfl, heof, hbefore⟩ := ih
    exact ⟨scan :: before, last, rfl, heof, List.forall_mem_cons.mpr ⟨hne, hbefore⟩⟩

end Scanner

/-! ## The lexemes of a reader -/

namespace Reader

variable (r : Reader)

/-- There is a lexeme for each byte at most, but for a separator at the end and the end itself. -/
theorem length_scans_le : r.scans.length ≤ r.bytesLeft + 2 := by
  have hseek : (Scanner.ofWindow (Buffer.ofReader r)).stream.remaining ≤ (Buffer.ofReader r).remaining :=
    CharStream.remaining_seek_le _
  have hstart : (Buffer.ofReader r).remaining = r.bytesLeft := Nat.zero_add _
  calc r.scans.length ≤ (Scanner.ofWindow (Buffer.ofReader r)).stream.remaining + 2 :=
        Scanner.length_scanUpTo_le _ _
    _ ≤ r.bytesLeft + 2 := by omega

/-- The lexemes of a reader come one behind the other. -/
theorem chain_scans : (r.scans.map Scan.lexeme).IsChain Lexeme.Before := by
  have hs := r.sound_ofReader
  unfold scans Scanner.scans
  generalize Scanner.ofWindow (Buffer.ofReader r) = x at hs
  -- Before the first lexeme nothing has been found that it could be behind of.
  by_cases heof : x.next.lexeme.token = .eof
  · rw [Scanner.scanUpTo_of_eof _ heof]
    exact .singleton _
  · rw [Scanner.scanUpTo_of_ne _ heof]
    have hnext := Scanner.sound_dropReports (Scanner.sound_next hs)
    exact (Scanner.rests_next hs).dropReports.chain_scanUpTo hnext heof _

end Reader

/-! ## Behind the end -/

namespace Scanner

/-- The scanner with another reader behind its buffer and other things to tell. -/
def withInput (x : Scanner Buffer) (r : Reader) (reports : Array Report) : Scanner Buffer :=
  { x with stream := { x.stream with window := { x.stream.window with reader := r }, reports } }

/-- A scanner with its own reader and what it has to tell is itself. -/
theorem withInput_self (x : Scanner Buffer) :
    x.withInput x.stream.window.reader x.stream.reports = x := rfl

/-- The scanner has found the end of the input where its stream is, and has set the mark there. -/
structure AtEnd (x : Scanner Buffer) : Prop where
  char?_eq : x.stream.char? = none
  token_eq : x.lexeme.token = .eof
  setMark_eq : x.stream.clearMark.setMark = x.stream
  lexeme_eq : Lexeme.atEnd { x.lexeme.cleared with place := x.stream.place } = x.lexeme

variable {x : Scanner Buffer}

/-- A scanner that has found the end is there. -/
theorem atEnd_next (h : x.next.lexeme.token = .eof) : x.next.AtEnd := by
  obtain ⟨s, -, ha⟩ : ∃ s, True ∧ attempt x.lexeme.endsStatement x.lexeme.cleared s = .found x.next :=
    exists_attempt_eq_found (P := fun _ => True) (fun _ _ => trivial) trivial
  unfold attempt at ha
  dsimp only at ha
  cases hc : (toToken x.lexeme.endsStatement s).char? with
  | some c =>
    rw [hc] at ha
    exact absurd h (found_attemptAt ha).token_ne_eof
  | none =>
    rw [hc] at ha
    generalize x.next = y at h ha
    cases ha
    -- It is the end that has been found, and no separator.
    cases hsep : x.lexeme.endsStatement with
    | true =>
      rw [hsep] at h
      cases h
    | false =>
      rw [hsep] at hc
      exact ⟨hc, rfl, rfl, rfl⟩

/-- At the end, nothing that is read from a reader or told plays a part. -/
theorem AtEnd.withInput (h : x.AtEnd) (r : Reader) (reports : Array Report) :
    (x.withInput r reports).AtEnd := by
  have hmark := congrArg (fun s : CharStream Buffer => s.window.mark?) h.setMark_eq
  constructor
  case char?_eq => exact h.char?_eq
  case token_eq => exact h.token_eq
  case lexeme_eq => exact h.lexeme_eq
  case setMark_eq =>
    change some (x.stream.window.next - x.stream.width) = x.stream.window.mark? at hmark
    unfold Scanner.withInput CharStream.clearMark CharStream.setMark
    dsimp only
    change CharStream.mk { x.stream.window with
      reader := r, mark? := some (x.stream.window.next - x.stream.width) } _ _ _ _ _ = _
    rw [hmark]

/-- A scanner at the end stays as it is. -/
theorem AtEnd.next_eq (h : x.AtEnd) : x.next = x := by
  have hsep : x.lexeme.endsStatement = false := (congrArg Lexeme.endsStatement h.lexeme_eq).symm
  calc x.next
      = find false x.lexeme.cleared x.stream := by rw [next, hsep]
    _ = ⟨x.stream.clearMark.setMark,
          Lexeme.atEnd { x.lexeme.cleared with place := x.stream.place }⟩ :=
        find_eq_of_end false _ h.char?_eq
    _ = ⟨x.stream, x.lexeme⟩ := by rw [h.setMark_eq, h.lexeme_eq]

/-- Once the end of the input has been found, scanning on changes nothing, and would change nothing if
another reader stood behind the buffer: that is not asked for anything. -/
theorem iterate_next_of_eof (h : x.next.lexeme.token = .eof) (r : Reader) (reports : Array Report)
    (k : Nat) : next^[k] (x.next.withInput r reports) = x.next.withInput r reports :=
  Function.iterate_fixed ((atEnd_next h).withInput r reports).next_eq k

end Scanner

/-! ## Texts and readers -/

/-- **Streams of tokens end for good.** A text of `n` bytes has `n + 2` lexemes at most, and the last and
only the last is the end of the input. Each is behind the one before it but for the end of the input, which
may be where the separator is that it stands for, and all their places fit, if `n + 1` does. And a scanner on
any reader that has found the end of the input finds it again where it was, however often it goes on: it
stays as it is, and so it tells nothing and has not asked its reader, whichever that is. -/
theorem streams_end :
    (∀ text : String,
      (tokenize text).1.length ≤ text.utf8ByteSize + 2 ∧
      (text.utf8ByteSize + 1 < UInt32.size →
        (tokenize text).1.IsChain Lexeme.Before ∧ ∀ l ∈ (tokenize text).1, l.place.Fits) ∧
      ∃ before last, (tokenize text).1 = before ++ [last] ∧ last.token = .eof ∧
        ∀ l ∈ before, l.token ≠ .eof) ∧
    ∀ x : Scanner Buffer, x.next.lexeme.token = .eof →
      ∀ (r : Reader) (reports : Array Report) (k : Nat),
        Scanner.next^[k] (x.next.withInput r reports) = x.next.withInput r reports := by
  constructor
  · -- The length, the order and the end of what `tokenize` gives are those of the scans.
    intro text
    have hlength := (Reader.ofBytes text.toUTF8).length_scans_le
    have hupTo := (Reader.ofBytes text.toUTF8).scan_upTo
    have hbytes : (Reader.ofBytes text.toUTF8).bytesLeft = text.utf8ByteSize := Nat.add_zero _
    rw [hbytes] at hlength hupTo
    obtain ⟨before, last, hscans, heof, hbefore⟩ := (Reader.ofBytes text.toUTF8).complete_scans.exists_last
    refine ⟨(List.length_map ..).trans_le hlength, fun hsize => ⟨Reader.chain_scans _, ?_⟩,
      before.map Scan.lexeme, last.lexeme, ?_, heof, ?_⟩
    · exact List.forall_mem_map.mpr fun scan hscan => (hupTo scan hscan).1.fits hsize
    · change (Reader.ofBytes text.toUTF8).scans.map Scan.lexeme = _
      rw [hscans, List.map_append, List.map_singleton]
    · exact List.forall_mem_map.mpr hbefore
  · exact fun _ h => Scanner.iterate_next_of_eof h

/-- Three lexemes of a text, and a scanner whose reader fails once and would deliver more: the failure is
told with the end, and the reader is not asked again. -/
theorem streams_end_failing :
    let text := "a"
    let x := Scanner.ofWindow (Buffer.ofReader
      { events := [.failure "offline", .data "more".toUTF8], limit? := none, ending := .finished })
    (text.utf8ByteSize + 1 < UInt32.size ∧ (tokenize text).1.map (·.place) = [⟨1, 1⟩, ⟨1, 2⟩, ⟨1, 2⟩] ∧
      (tokenize text).1.IsChain Lexeme.Before ∧ ∀ l ∈ (tokenize text).1, l.place.Fits) ∧
    x.next.lexeme.token = .eof ∧ x.next.reports.length = 1 ∧ Scanner.next^[3] x.next = x.next := by
  intro text x
  have hsize : text.utf8ByteSize + 1 < UInt32.size := by decide +kernel
  have hplaces : (tokenize text).1.map (·.place) = [⟨1, 1⟩, ⟨1, 2⟩, ⟨1, 2⟩] := by decide +kernel
  have heof : x.next.lexeme.token = .eof := by decide +kernel
  have htold : x.next.reports.length = 1 := by decide +kernel
  have hstays := streams_end.2 x heof x.next.stream.window.reader x.next.stream.reports 3
  rw [Scanner.withInput_self] at hstays
  exact ⟨⟨hsize, hplaces, (streams_end.1 text).2.1 hsize⟩, heof, htold, hstays⟩

end FrontEnd
