import FrontEnd.Proofs.Endings.Comments
import FrontEnd.Proofs.Reworded.Behind
import FrontEnd.Proofs.Reworded.Upto

/-!
# A comment with another word

A comment that starts with the word `line` keeps the mark and may be reported, and one that starts with
another word does neither. Otherwise both are passed over alike: the word itself is passed over with the
rest, since it has neither a newline nor a star in it, and streams that have passed over words of the same
length are at the same offset and in the same column. So if nothing is said about the report, the streams
behind the comments are the same up to the mark, which nothing looks at any more.
-/

namespace FrontEnd

open Cursor

namespace CharStream

/-! ## Over the word -/

/-- Whether a character is decoded as it stands, and is no newline. -/
def isPlain (c : Char) : Bool := c ≠ '\x00' && c ≠ byteOrderMark && c ≠ '\n'

/-- The stream, about to fetch, behind `n` more bytes of the same line. -/
def past (n : Nat) (s : CharStream Cursor) : CharStream Cursor :=
  { s with window := { s.window with offset := s.window.offset + n }, column := s.column + n }

section

variable {s : CharStream Cursor} {c : Char} {cs : List Char}

/-- A plain character is the next one, and what comes behind it is what comes next behind its bytes. -/
theorem seek_plain (hc : isPlain c) (hd : s.window.bytes.utf8DecodeChar? s.window.offset = some c) :
    s.seek.char? = some c ∧ s.seek.advance = (s.past c.utf8Size).seek := by
  simp only [isPlain, Bool.and_eq_true, decide_eq_true_eq] at hc
  obtain ⟨⟨hnul, hmark⟩, hline⟩ := hc
  have hfetch : ByteWindow.fetch s.window =
      (.char c, { s.window with offset := s.window.offset + c.utf8Size }) := by
    change s.window.fetch = _
    rw [Cursor.fetch_of_some hd, Cursor.ofChar, if_neg hnul]
  -- A plain character stops the search, and being no newline it leaves the line alone.
  have hseek : s.seek = { s with
      window := { s.window with offset := s.window.offset + c.utf8Size }
      char? := some c, width := c.utf8Size } := by
    rw [seek, hfetch, if_neg (by simpa [passedOver] using hmark)]
    unfold receive fault?
    simp [hmark]
  have hpass : s.seek.passChar = { s.past c.utf8Size with char? := some c, width := c.utf8Size } := by
    rw [hseek, passChar, if_neg (fun he => hline (Option.some.inj he))]
    rfl
  constructor
  · rw [hseek]
  · rw [advance, hpass, seek_with]

/-- The stream is about to fetch these characters. -/
def ComesNext (cs : List Char) (s : CharStream Cursor) : Prop :=
  ∃ before more, s.window.bytes = before ++ cs.utf8Encode ++ more ∧ s.window.offset = before.size

/-- The first character comes next, and behind it the others. -/
theorem ComesNext.cons (h : s.ComesNext (c :: cs)) :
    s.window.bytes.utf8DecodeChar? s.window.offset = some c ∧ (s.past c.utf8Size).ComesNext cs := by
  obtain ⟨before, more, hbytes, hoffset⟩ := h
  constructor
  · rw [hbytes, hoffset, Utf8.utf8DecodeChar?_append]
  · refine ⟨before ++ [c].utf8Encode, more, ?_, ?_⟩
    · change s.window.bytes = _
      rw [hbytes, List.utf8Encode_cons, ← ByteArray.append_assoc]
    · change s.window.offset + c.utf8Size = _
      rw [hoffset, ByteArray.size_append, List.utf8Encode_singleton]
      simp

/-- Bytes behind bytes. -/
theorem past_past (m n : Nat) (s : CharStream Cursor) : (s.past m).past n = s.past (m + n) := by
  unfold past
  simp only [Nat.add_assoc]

/-- The bytes of a character and of those behind it. -/
theorem size_utf8Encode_cons (c : Char) (cs : List Char) :
    (c :: cs).utf8Encode.size = c.utf8Size + cs.utf8Encode.size := by
  rw [List.utf8Encode_cons, ByteArray.size_append, List.utf8Encode_singleton]
  simp

/-- A word is passed over with what comes behind it. -/
theorem skipWhile_word {p : Char → Bool} (h : s.ComesNext cs) (hcs : ∀ c ∈ cs, isPlain c ∧ p c) :
    s.seek.skipWhile p = (s.past cs.utf8Encode.size).seek.skipWhile p := by
  induction cs generalizing s with
  | nil => rfl
  | cons c cs ih =>
    obtain ⟨hd, hrest⟩ := h.cons
    obtain ⟨⟨hplain, hpc⟩, hcs⟩ := List.forall_mem_cons.mp hcs
    obtain ⟨hchar, hadvance⟩ := seek_plain hplain hd
    calc s.seek.skipWhile p = s.seek.advance.skipWhile p := by
          rw [skipWhile.eq_def, hchar, if_pos (by simpa using hpc)]
      _ = ((s.past c.utf8Size).past cs.utf8Encode.size).seek.skipWhile p := by rw [hadvance, ih hrest hcs]
      _ = (s.past (c :: cs).utf8Encode.size).seek.skipWhile p := by rw [past_past, size_utf8Encode_cons]

/-- A word without newlines and stars is passed with the rest of its comment. -/
theorem blockCommentRest_word (h : s.ComesNext cs) (hcs : ∀ c ∈ cs, isPlain c ∧ c ≠ '*') :
    s.seek.blockCommentRest = (s.past cs.utf8Encode.size).seek.blockCommentRest := by
  induction cs generalizing s with
  | nil => rfl
  | cons c cs ih =>
    obtain ⟨hd, hrest⟩ := h.cons
    obtain ⟨⟨hplain, hstar⟩, hcs⟩ := List.forall_mem_cons.mp hcs
    obtain ⟨hchar, hadvance⟩ := seek_plain hplain hd
    calc s.seek.blockCommentRest = s.seek.advance.blockCommentRest := blockCommentRest_of_ne hchar hstar
      _ = ((s.past c.utf8Size).past cs.utf8Encode.size).seek.blockCommentRest := by rw [hadvance, ih hrest hcs]
      _ = (s.past (c :: cs).utf8Encode.size).seek.blockCommentRest := by rw [past_past, size_utf8Encode_cons]

/-- If a word is accepted where another comes next, one of them starts with the other. -/
theorem prefix_of_accept {word : List Char} (h : s.ComesNext cs) (hcs : ∀ c ∈ cs, isPlain c)
    (haccept : (accept word s.seek).1 = true) : cs <+: word ∨ word <+: cs := by
  induction cs generalizing s word with
  | nil => exact .inl List.nil_prefix
  | cons c cs ih =>
    cases word with
    | nil => exact .inr List.nil_prefix
    | cons d word =>
      obtain ⟨hd, hrest⟩ := h.cons
      obtain ⟨hplain, hcs⟩ := List.forall_mem_cons.mp hcs
      obtain ⟨hchar, hadvance⟩ := seek_plain hplain hd
      unfold accept at haccept
      rw [hchar, hadvance] at haccept
      split at haccept
      · next hsame =>
        cases hsame
        exact (ih hrest hcs haccept).imp (List.prefix_cons_inj c).mpr (List.prefix_cons_inj c).mpr
      · cases haccept

end

section

variable {ω : Type} [ByteWindow ω]

/-- A word that is accepted would be passed over anyway. -/
theorem skipWhile_accept {p : Char → Bool} {word : List Char} (hword : ∀ c ∈ word, p c) (s : CharStream ω) :
    (accept word s).2.skipWhile p = s.skipWhile p := by
  induction word generalizing s with
  | nil => rfl
  | cons c word ih =>
    obtain ⟨hc, hword⟩ := List.forall_mem_cons.mp hword
    unfold accept
    split
    · next hchar =>
      calc (accept word s.advance).2.skipWhile p = s.advance.skipWhile p := ih hword _
        _ = s.skipWhile p := by rw [skipWhile.eq_def p s, hchar, if_pos (by simpa using hc)]
    · rfl

/-- Whether a word has been looked for or not, the comment ends at the same place. -/
theorem blockCommentRest_accept {word : List Char} (hword : '*' ∉ word) (s : CharStream ω) :
    (accept word s).2.blockCommentRest = s.blockCommentRest := by
  induction word generalizing s with
  | nil => rfl
  | cons c word ih =>
    rw [List.mem_cons, not_or] at hword
    unfold accept
    split
    · next hchar =>
      calc (accept word s.advance).2.blockCommentRest = s.advance.blockCommentRest := ih hword.2 _
        _ = s.blockCommentRest := (blockCommentRest_of_ne hchar (Ne.symm hword.1)).symm
    · rfl

end

/-! ## Comments with different words -/

/-- The word that a line directive starts with. -/
def lineWord : List Char := "line".toList

/-- Both streams are about to fetch the word of a comment, which is `line` in the source of the first. -/
structure AtWords (lead back : ByteArray) (word : List Char) (s t : CharStream Cursor) : Prop where
  bytes_eq : s.window.bytes = lead ++ lineWord.utf8Encode ++ back
  other : t = s.withBytes (lead ++ word.utf8Encode ++ back)
  offset_eq : s.window.offset = lead.size

/-- A word that may stand there instead: it takes as many bytes, and a comment goes on over it. -/
structure IsSubstitute (word : List Char) : Prop where
  plain : ∀ c ∈ word, isPlain c ∧ c ≠ '*'
  size_eq : word.utf8Encode.size = lineWord.utf8Encode.size
  other : word ≠ lineWord

/-- The two words take as many bytes. -/
theorem IsSubstitute.size_append {word : List Char} (h : IsSubstitute word) (lead : ByteArray) :
    (lead ++ word.utf8Encode).size = (lead ++ lineWord.utf8Encode).size := by
  rw [ByteArray.size_append, ByteArray.size_append, h.size_eq]

/-- A directive does not start with another word of the same size. -/
theorem IsSubstitute.not_prefix {word : List Char} (h : IsSubstitute word) :
    ¬(word <+: directiveWord ∨ directiveWord <+: word) := by
  have hfour : word.utf8Encode.size = 4 := h.size_eq.trans (by decide)
  rintro (hstarts | ⟨tail, hstarts⟩)
  · -- Of the prefixes of the word, only one has four bytes.
    have htake := List.prefix_iff_eq_take.mp hstarts
    have hlength : word.length ≤ 5 := hstarts.length_le
    generalize word.length = n at htake hlength
    subst htake
    have hcases : n = 0 ∨ n = 1 ∨ n = 2 ∨ n = 3 ∨ n = 4 ∨ n = 5 := by omega
    rcases hcases with rfl | rfl | rfl | rfl | rfl | rfl
    case inr.inr.inr.inr.inl => exact h.other (by decide)
    all_goals exact absurd hfour (by decide)
  · rw [← hstarts, List.utf8Encode_append, ByteArray.size_append] at hfour
    have hfive : directiveWord.utf8Encode.size = 5 := by decide
    omega

namespace AtWords

variable {lead back : ByteArray} {word : List Char} {s t : CharStream Cursor}
  (h : AtWords lead back word s t) (hword : IsSubstitute word)

include h

/-- Each of the streams is about to fetch its word. -/
theorem comesNext : s.ComesNext lineWord ∧ t.ComesNext word := by
  constructor
  · exact ⟨lead, back, h.bytes_eq, h.offset_eq⟩
  · rw [h.other]
    exact ⟨lead, back, rfl, h.offset_eq⟩

include hword

/-- Without the mark the streams are the same behind the words. -/
theorem behind : Behind (lead ++ lineWord.utf8Encode) (lead ++ word.utf8Encode) back
    (s.past lineWord.utf8Encode.size).seek.clearMark (t.past word.utf8Encode.size).seek.clearMark := by
  have hsize := hword.size_append lead
  have hcoming : Coming (lead ++ lineWord.utf8Encode) (lead ++ word.utf8Encode) back
      (s.past lineWord.utf8Encode.size).clearMark (t.past word.utf8Encode.size).clearMark := by
    rw [h.other, hword.size_eq]
    constructor
    · exact h.bytes_eq
    · rfl
    · rfl
    · rfl
    · rfl
    · refine Nat.le_of_eq ?_
      change _ = s.window.offset + _
      rw [h.offset_eq, ByteArray.size_append]
    · exact nofun
  have hseek := hcoming.seek hsize
  rwa [seek_clearMark, seek_clearMark] at hseek

/-- The other word is not the one for directives. -/
theorem accept_eq_false : (accept directiveWord t.seek).1 = false := by
  refine Bool.eq_false_iff.mpr fun haccept => hword.not_prefix ?_
  exact prefix_of_accept h.comesNext.2 (fun c hc => (hword.plain c hc).1) haccept

end AtWords

/-- A report about which nothing is said makes no difference. -/
theorem Behind.report_silent {a a' back : ByteArray} {s t : CharStream Cursor} (h : Behind a a' back s t)
    {r : Report} (hr : r.isSilent) : Behind a a' back (s.report r) t := by
  have haudible : (s.report r).audible = s.audible := by
    rw [audible_report, List.filter_cons_of_neg (by simpa using hr), List.filter_nil, List.append_nil]
  exact { h with audible_eq := haudible.trans h.audible_eq }

namespace AtWords

variable {lead back : ByteArray} {word : List Char} {s t : CharStream Cursor}
  (h : AtWords lead back word s t) (hword : IsSubstitute word) (start : Place)

include h hword

/-- Behind the line comments the streams are the same, up to the mark. -/
theorem lineComment (hsilent : ∀ r, (s.seek.lineComment start).reports.back? = some r → r.isSilent) :
    Behind (lead ++ lineWord.utf8Encode) (lead ++ word.utf8Encode) back
      (s.seek.lineComment start).clearMark (t.seek.lineComment start).clearMark := by
  have hsize := hword.size_append lead
  have hs : (accept directiveWord s.seek).2.skipWhile (· ≠ '\n') =
      (s.past lineWord.utf8Encode.size).seek.skipWhile (· ≠ '\n') := by
    rw [skipWhile_accept (by decide), skipWhile_word h.comesNext.1 (by decide)]
  have ht : (accept directiveWord t.seek).2.skipWhile (· ≠ '\n') =
      (t.past word.utf8Encode.size).seek.skipWhile (· ≠ '\n') := by
    rw [skipWhile_accept (by decide), skipWhile_word h.comesNext.2 fun c hc => ?_]
    have hplain := (hword.plain c hc).1
    refine ⟨hplain, ?_⟩
    simp only [isPlain, Bool.and_eq_true] at hplain
    exact hplain.2
  -- Behind the rest of the line, the streams are still the same without the mark.
  have hbehind := ((finding_behind hsize).toForward start).skipWhile (· ≠ '\n') (h.behind hword)
  rw [skipWhile_clearMark, skipWhile_clearMark, ← hs, ← ht] at hbehind
  unfold CharStream.lineComment at hsilent ⊢
  dsimp only at hsilent ⊢
  rw [h.accept_eq_false hword, if_neg Bool.false_ne_true,
    skipWhile_clearMark (accept directiveWord t.seek).2]
  cases hdirective : (accept directiveWord s.seek).1 with
  | false =>
    rw [if_neg Bool.false_ne_true, skipWhile_clearMark]
    exact hbehind
  | true =>
    rw [hdirective, if_pos rfl] at hsilent
    rw [if_pos rfl]
    exact hbehind.report_silent (hsilent _ Array.back?_push)

/-- Behind the block comments the streams are the same, up to the mark. -/
theorem blockComment (hsilent : ∀ r, (s.seek.blockComment start).reports.back? = some r → r.isSilent) :
    Behind (lead ++ lineWord.utf8Encode) (lead ++ word.utf8Encode) back
      (s.seek.blockComment start).clearMark (t.seek.blockComment start).clearMark := by
  have hsize := hword.size_append lead
  have hs : (accept directiveWord s.seek).2.blockCommentRest =
      (s.past lineWord.utf8Encode.size).seek.blockCommentRest := by
    rw [blockCommentRest_accept (by decide), blockCommentRest_word h.comesNext.1 (by decide)]
  have ht : (accept directiveWord t.seek).2.blockCommentRest =
      (t.past word.utf8Encode.size).seek.blockCommentRest := by
    rw [blockCommentRest_accept (by decide), blockCommentRest_word h.comesNext.2 hword.plain]
  -- Both comments end at the same place or neither does.
  obtain ⟨hclosed, hbehind⟩ := ((finding_behind hsize).toForward start).blockCommentRest (h.behind hword)
  rw [blockCommentRest_clearMark, blockCommentRest_clearMark, ← hs, ← ht] at hclosed hbehind
  dsimp only at hclosed hbehind
  unfold CharStream.blockComment at hsilent ⊢
  dsimp only at hsilent ⊢
  rw [h.accept_eq_false hword, if_neg Bool.false_ne_true,
    blockCommentRest_clearMark (accept directiveWord t.seek).2]
  dsimp only
  rw [← hclosed]
  generalize (accept directiveWord t.seek).2.blockCommentRest.2 = t' at hbehind ⊢
  cases hdirective : (accept directiveWord s.seek).1 with
  | false =>
    rw [if_neg Bool.false_ne_true, blockCommentRest_clearMark]
    dsimp only
    cases (accept directiveWord s.seek).2.blockCommentRest.1 with
    | false => exact hbehind.report _
    | true => exact hbehind
  | true =>
    rw [hdirective, if_pos rfl] at hsilent
    rw [if_pos rfl]
    cases hend : (accept directiveWord s.seek).2.blockCommentRest.1 with
    | false => exact hbehind.report _
    | true =>
      rw [hend] at hsilent
      exact hbehind.report_silent (hsilent _ Array.back?_push)

end AtWords

variable {front back : ByteArray} {x : Char} {word : List Char} {s t : CharStream Cursor}

/-- At the slash that a comment starts with, streams that are alike are about to fetch the words of the
comments once they have passed the marker. -/
theorem Alike.atWords (hx : x ∈ markerSeconds)
    (h : Alike front x (lineWord.utf8Encode ++ back) (word.utf8Encode ++ back) s t)
    (hat : s.window.offset = front.size + 1) :
    s.advance.char? = some x ∧ t.advance.char? = some x ∧
      ∃ p q, s.advance.advance = p.seek ∧ t.advance.advance = q.seek ∧
        AtWords (opened front x) back word p q := by
  have hplain : isPlain x := by
    rcases eq_of_mem_markerSeconds hx with rfl | rfl <;> decide
  have hone : x.utf8Size = 1 := by
    rcases eq_of_mem_markerSeconds hx with rfl | rfl <;> decide
  have hs : s.passChar.window.bytes.utf8DecodeChar? s.passChar.window.offset = some x := by
    rw [window_passChar, h.bytes_eq, hat, utf8DecodeChar?_second]
  have ht : t.passChar.window.bytes.utf8DecodeChar? t.passChar.window.offset = some x := by
    rw [window_passChar, h.other]
    change (opened front x ++ (word.utf8Encode ++ back)).utf8DecodeChar? s.window.offset = some x
    rw [hat, utf8DecodeChar?_second]
  -- The second character of the marker is the same in both texts and plain, so both stop before the word.
  obtain ⟨hchar, hnext⟩ := seek_plain hplain hs
  obtain ⟨hchar', hnext'⟩ := seek_plain hplain ht
  refine ⟨hchar, hchar', _, _, hnext, hnext', ?_⟩
  constructor
  · change s.passChar.window.bytes = _
    rw [window_passChar, h.bytes_eq, ByteArray.append_assoc]
  · rw [h.other, passChar_withBytes, ByteArray.append_assoc]
    rfl
  · change s.passChar.window.offset + x.utf8Size = _
    rw [window_passChar, hat, hone, size_opened front hx]

/-- The streams are the same behind some bytes, but for the mark. -/
def BehindUnmarked (a a' back : ByteArray) (s t : CharStream Cursor) : Prop :=
  Behind a a' back s.clearMark t.clearMark

namespace BehindUnmarked

variable {a a' back : ByteArray} {s t : CharStream Cursor}

/-- The same has been reported that something is said about. -/
theorem audible_eq (h : BehindUnmarked a a' back s t) : s.audible = t.audible := h.toComing.audible_eq

/-- Both forget their reports. -/
theorem dropReports (h : BehindUnmarked a a' back s t) :
    BehindUnmarked a a' back s.dropReports t.dropReports :=
  { h with audible_eq := rfl }

end BehindUnmarked

end CharStream

namespace Scanner

open CharStream

variable {front back : ByteArray} {x : Char} {word : List Char} {s t : CharStream Cursor}

/-- Comments with different words are passed over alike, if nothing is said about the one that may be a
directive. -/
theorem inStep_slash (hx : x ∈ markerSeconds) (hword : IsSubstitute word)
    (h : Alike front x (lineWord.utf8Encode ++ back) (word.utf8Encode ++ back) s t)
    (hat : s.window.offset = front.size + 1) (separable : Bool) (l : Lexeme)
    (hsilent : ∀ r, (slash separable l s).stream.reports.back? = some r → r.isSilent) :
    (slash separable l s).InStep (BehindUnmarked (opened front x ++ lineWord.utf8Encode)
      (opened front x ++ word.utf8Encode) back) (slash separable l t) := by
  obtain ⟨hs, ht, p, q, hp, hq, hwords⟩ := h.atWords hx hat
  -- The second character of the marker says which kind of comment it is.
  unfold slash at hsilent ⊢
  dsimp only at hsilent ⊢
  rw [hs, hp] at hsilent
  rw [hs, ht, hp, hq]
  rcases eq_of_mem_markerSeconds hx with rfl | rfl
  · rw [if_pos rfl] at hsilent
    rw [if_pos rfl, if_pos rfl]
    exact .passed (hwords.lineComment hword l.place hsilent)
  · have hne : ¬some '*' = some '/' := by decide
    rw [if_neg hne, if_pos rfl] at hsilent
    rw [if_neg hne, if_neg hne, if_pos rfl, if_pos rfl]
    have hbehind := hwords.blockComment hword l.place fun r hr => hsilent r (by split <;> exact hr)
    have hplace : (p.seek.blockComment l.place).place = (q.seek.blockComment l.place).place :=
      hbehind.place_eq
    rw [← hplace]
    exact Onward.ite (fun _ => .found ⟨rfl, hbehind⟩) fun _ => .passed hbehind

end Scanner

end FrontEnd
