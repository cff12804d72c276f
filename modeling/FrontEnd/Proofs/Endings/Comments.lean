import FrontEnd.Proofs.Endings.Inline
import FrontEnd.Proofs.Unmarked

/-!
# Comments over the ends of lines

A line comment ends before a newline, a block comment may go over many lines. Where streams are level at
the start of a comment, they are level behind it, but for a carriage return that a line comment takes with
it (`CharStream.Rests`). If the comment is reported, both reports say the same about positions.
-/

namespace FrontEnd

namespace CharStream

variable {front cs rest : List Char} {s t u : CharStream Cursor} {c : Char}

namespace Before

variable {taken : List Char}

/-- At the end of the text there is nothing to go on to. -/
theorem advance_nil (h : s.Before taken []) : s.advance.Before taken [] := by
  have hreports : s.passChar.reports = s.reports := reports_passChar s
  refine before_seek ?_ ?_ h.clean (by rw [hreports]; exact h.fine)
  · rw [window_passChar]
    exact h.bytes_eq
  · rw [window_passChar, h.offset_eq]
    rfl

end Before

namespace Level

/-- Both are at the same character, unless that is a newline. -/
theorem char?_eq_some (h : Level front cs rest s t) (hc : s.char? = some c) (hn : c ≠ '\n') :
    t.char? = some c := by
  rw [h.char?_eq (by rw [hc]; exact fun he => hn (Option.some.inj he)), hc]

/-- Streams that are level at their mark are level on their line. -/
theorem inline_nil (h : Level front [] rest s t) : s.Inline t := ⟨front, [], rest, List.not_mem_nil, h⟩

/-- A word without a newline comes next in both or in neither. -/
theorem accept (h : Level front cs rest s t) (word : List Char) (hn : '\n' ∉ word) (hr : '\r' ∉ word) :
    (s.accept word).1 = (t.accept word).1 ∧
      ∃ ds rest', '\n' ∉ ds ∧ Level front (cs ++ ds) rest' (s.accept word).2 (t.accept word).2 := by
  -- By the word, which has neither ending in it: it stops before a newline in both texts.
  induction word generalizing cs rest s t with
  | nil => exact ⟨rfl, [], rest, List.not_mem_nil, by rwa [List.append_nil]⟩
  | cons c word ih =>
    rw [List.mem_cons, not_or] at hn hr
    unfold CharStream.accept
    cases rest with
    | nil =>
      have hs : s.char? = none := h.before.char?_eq
      have ht : t.char? = none := h.returned.char?_eq
      rw [hs, ht]
      exact ⟨rfl, [], [], List.not_mem_nil, by rwa [List.append_nil]⟩
    | cons d rest =>
      have hs : s.char? = some d := h.before.char?_eq
      by_cases hline : d = '\n'
      · subst hline
        rw [hs, h.advance_newline.1, if_neg fun he => hn.1 (Option.some.inj he),
          if_neg fun he => hr.1 (Option.some.inj he)]
        exact ⟨rfl, [], '\n' :: rest, List.not_mem_nil, by rwa [List.append_nil]⟩
      · rw [hs, h.char?_eq_some hs hline]
        split
        · obtain ⟨hsame, ds, rest', hds, hlevel⟩ := ih (h.advance hline) hn.2 hr.2
          rw [List.append_assoc] at hlevel
          refine ⟨hsame, d :: ds, rest', ?_, hlevel⟩
          rw [List.mem_cons, not_or]
          exact ⟨Ne.symm hline, hds⟩
        · exact ⟨rfl, [], d :: rest, List.not_mem_nil, by rwa [List.append_nil]⟩

end Level

/-! ## Line comments -/

/-- The streams are level, or would be if the other had not taken a carriage return already. -/
def Rests (s t : CharStream Cursor) : Prop := ∃ front cs rest u, Level front cs rest s u ∧
  (t = u ∨ u.char? = some '\r' ∧ t = u.advance)

/-- What is left of a line is passed over by both, with the carriage return at its end. -/
theorem Level.skipLine (h : Level front cs rest s t) : ∃ ds rest' u, '\n' ∉ ds ∧
    Level front (cs ++ ds) rest' (s.skipWhile (· ≠ '\n')) u ∧
      (t.skipWhile (· ≠ '\n') = u ∨
        u.char? = some '\r' ∧ t.skipWhile (· ≠ '\n') = u.advance ∧ ∃ rest'', rest' = '\n' :: rest'') := by
  -- Up to the newline the two streams move alike; the one with returns then takes the return as well.
  induction rest generalizing cs s t with
  | nil =>
    have hs : s.char? = none := h.before.char?_eq
    have ht : t.char? = none := h.returned.char?_eq
    rw [skipWhile.eq_def _ s, skipWhile.eq_def _ t, hs, ht]
    exact ⟨[], [], t, List.not_mem_nil, by rwa [List.append_nil], .inl rfl⟩
  | cons c rest ih =>
    have hs : s.char? = some c := h.before.char?_eq
    by_cases hline : c = '\n'
    · subst hline
      obtain ⟨hreturn, hnewline, -⟩ := h.advance_newline
      have hskip : t.skipWhile (· ≠ '\n') = t.advance := by
        rw [skipWhile.eq_def _ t, hreturn, if_pos (by decide), skipWhile.eq_def _ t.advance, hnewline,
          if_neg (by decide)]
      rw [skipWhile.eq_def _ s, hs, if_neg (by decide), hskip]
      exact ⟨[], '\n' :: rest, t, List.not_mem_nil, by rwa [List.append_nil],
        .inr ⟨hreturn, rfl, rest, rfl⟩⟩
    · have hskip {r : CharStream Cursor} (hr : r.char? = some c) :
          r.skipWhile (· ≠ '\n') = r.advance.skipWhile (· ≠ '\n') := by
        rw [skipWhile.eq_def _ r, if_pos (by rw [hr]; simpa using hline)]
      rw [hskip hs, hskip (h.char?_eq_some hs hline)]
      obtain ⟨ds, rest', u, hds, hlevel, hu⟩ := ih (h.advance hline)
      rw [List.append_assoc] at hlevel
      refine ⟨c :: ds, rest', u, ?_, hlevel, hu⟩
      rw [List.mem_cons, not_or]
      exact ⟨Ne.symm hline, hds⟩

/-- What has been encoded is decoded without loss. -/
theorem decodeLossy_utf8Encode (cs : List Char) : Utf8.decodeLossy cs.utf8Encode = String.ofList cs := by
  unfold Utf8.decodeLossy
  rw [Utf8.lossyChars_utf8Encode]

/-- A line comment is passed alike: it ends before the newline, or before the return in the other. -/
theorem Level.lineComment (h : Level front ['/', '/'] rest s t) (start : Place) :
    Rests (s.lineComment start) (t.lineComment start) := by
  obtain ⟨hsame, ds, rest', hds, hword⟩ :=
    h.accept directiveWord (by decide) (by decide)
  unfold CharStream.lineComment
  dsimp only
  rw [← hsame]
  split
  · obtain ⟨ds', rest'', u, hds', hlevel, hu⟩ := hword.skipLine
    generalize (s.accept directiveWord).2.skipWhile (· ≠ '\n') = s' at hlevel
    generalize (t.accept directiveWord).2.skipWhile (· ≠ '\n') = t' at hu
    have hline : '\n' ∉ ['/', '/'] ++ ds ++ ds' := by
      simp only [List.mem_append, not_or]
      exact ⟨⟨by decide, hds⟩, hds'⟩
    unfold reportDirective
    rcases hu with rfl | ⟨hreturn, rfl, more, rfl⟩
    · refine ⟨front, _, rest'', _, hlevel.report ?_, .inl rfl⟩
      rcases hlevel.marked_cases with ⟨hs, ht⟩ | ⟨hs, ht⟩
      · rw [hs, ht]
      · rw [hs, ht, withReturns_eq_self hline]
    · -- The carriage return has been taken, and is reported with the comment.
      have hreturned := hlevel.returned
      rw [withReturns_newline] at hreturned
      rw [← hreturned.advance_report fun _ => Report.noConfusion]
      refine ⟨front, _, _, _, hlevel.report ?_, .inr ⟨hreturn, rfl⟩⟩
      rcases hlevel.marked_cases_return with ⟨hs, ht⟩ | ⟨hs, ht⟩
      · rw [hs, ht]
      · have hnone : '\r' ∉ ds ++ ds' := by
          have := hlevel.noReturn
          simp only [List.mem_append, not_or] at this ⊢
          exact ⟨this.1.2.1.2, this.1.2.2⟩
        rw [hs, ht, withReturns_eq_self hline, decodeLossy_utf8Encode, decodeLossy_utf8Encode]
        exact (LineDirective.candidate?_return hnone start).symm
  · obtain ⟨ds', rest'', u, hds', hlevel, hu⟩ := hword.clearMark.skipLine
    refine ⟨front, _, rest'', u, hlevel, hu.imp_right fun ⟨hreturn, hskip, _⟩ => ⟨hreturn, hskip⟩⟩

/-! ## Block comments -/

/-- What is no star is passed over in a comment. -/
theorem blockCommentRest_of_ne {ω : Type} [ByteWindow ω] {r : CharStream ω} (hc : r.char? = some c)
    (hstar : c ≠ '*') : r.blockCommentRest = r.advance.blockCommentRest := by
  rw [blockCommentRest_eq r, hc]
  exact if_neg hstar

/-- A star that another character comes after is passed over in a comment, and so is the other
character. -/
theorem blockCommentRest_star {ω : Type} [ByteWindow ω] {r : CharStream ω} (hc : r.char? = some '*')
    (hslash : r.advance.char? ≠ some '/') (hstar : r.advance.char? ≠ some '*') :
    r.blockCommentRest = r.advance.advance.blockCommentRest := by
  rw [blockCommentRest_eq r, hc]
  dsimp only
  rw [if_pos rfl, if_neg hslash, if_neg hstar]

/-- A star in front of a star is passed over in a comment. -/
theorem blockCommentRest_stars {ω : Type} [ByteWindow ω] {r : CharStream ω} (hc : r.char? = some '*')
    (hc' : r.advance.char? = some '*') : r.blockCommentRest = r.advance.blockCommentRest := by
  rw [blockCommentRest_eq r, hc]
  dsimp only
  rw [if_pos rfl, hc', if_neg (by decide), if_pos rfl]

/-- A star and a slash are the end of a comment. -/
theorem blockCommentRest_close {ω : Type} [ByteWindow ω] {r : CharStream ω} (hc : r.char? = some '*')
    (hc' : r.advance.char? = some '/') : r.blockCommentRest = (true, r.advance.advance) := by
  rw [blockCommentRest_eq r, hc]
  dsimp only
  rw [if_pos rfl, if_pos hc']

/-- A comment is not closed where the text ends. -/
theorem blockCommentRest_of_end {ω : Type} [ByteWindow ω] {r : CharStream ω} (hc : r.char? = none) :
    r.blockCommentRest.1 = false := by
  rw [blockCommentRest_eq r, hc]

/-- How a comment goes on that two streams are in. -/
inductive CommentStep (front cs rest : List Char) (s t : CharStream Cursor) : Prop
  /-- It is not closed. -/
  | unclosed (h : s.blockCommentRest.1 = false)
  /-- It is closed here. -/
  | closed (ds rest' : List Char) (s' t' : CharStream Cursor) (hs : s.blockCommentRest = (true, s'))
    (ht : t.blockCommentRest = (true, t')) (h : Level front (cs ++ ds) rest' s' t')
  /-- It goes on with what is left. -/
  | more (ds rest' : List Char) (s' t' : CharStream Cursor)
    (hs : s.blockCommentRest = s'.blockCommentRest) (ht : t.blockCommentRest = t'.blockCommentRest)
    (h : Level front (cs ++ ds) rest' s' t') (hlt : rest'.length < rest.length)

/-- Behind a star in a block comment both go on alike. -/
theorem Level.commentStep_star (h : Level front cs ('*' :: rest) s t) :
    CommentStep front cs ('*' :: rest) s t := by
  have hlevel := h.advance (by decide)
  have hs : s.char? = some '*' := h.before.char?_eq
  have ht : t.char? = some '*' := h.char?_eq_some hs (by decide)
  -- By what stands behind the star, which says whether the comment ends or goes on.
  cases rest with
  | nil =>
    have hs' : s.advance.char? = none := hlevel.before.char?_eq
    have hend : s.advance.advance.char? = none := hlevel.before.advance_nil.char?_eq
    refine .unclosed ?_
    rw [blockCommentRest_star hs (by rw [hs']; exact nofun) (by rw [hs']; exact nofun)]
    exact blockCommentRest_of_end hend
  | cons c rest =>
    have hs' : s.advance.char? = some c := hlevel.before.char?_eq
    have hlt : rest.length < ('*' :: c :: rest).length := Nat.lt_succ_of_lt (Nat.lt_succ_self _)
    by_cases hline : c = '\n'
    · -- The star takes the carriage return with it in the other stream.
      subst hline
      obtain ⟨hreturn, hnewline, hlevel'⟩ := hlevel.advance_newline
      rw [List.append_assoc] at hlevel'
      refine .more _ rest _ _ ?_ ?_ hlevel' hlt
      · exact blockCommentRest_star hs (by rw [hs']; decide) (by rw [hs']; decide)
      · rw [blockCommentRest_star ht (by rw [hreturn]; decide) (by rw [hreturn]; decide),
          blockCommentRest_of_ne hnewline (by decide)]
    · have hlevel' := hlevel.advance hline
      have ht' := hlevel.char?_eq_some hs' hline
      rw [List.append_assoc] at hlevel'
      by_cases hclose : c = '/'
      · subst hclose
        exact .closed _ rest _ _ (blockCommentRest_close hs hs') (blockCommentRest_close ht ht') hlevel'
      · by_cases hstar : c = '*'
        · subst hstar
          exact .more _ ('*' :: rest) _ _ (blockCommentRest_stars hs hs') (blockCommentRest_stars ht ht')
            hlevel (Nat.lt_succ_self _)
        · have hpass {r : CharStream Cursor} (hr : r.char? = some '*') (hr' : r.advance.char? = some c) :
              r.blockCommentRest = r.advance.advance.blockCommentRest := by
            refine blockCommentRest_star hr ?_ ?_
            · rw [hr']
              exact fun he => hclose (Option.some.inj he)
            · rw [hr']
              exact fun he => hstar (Option.some.inj he)
          exact .more _ rest _ _ (hpass hs hs') (hpass ht ht') hlevel' hlt

/-- One step in a block comment is the same in both, over a newline as well. -/
theorem Level.commentStep (h : Level front cs rest s t) : CommentStep front cs rest s t := by
  cases rest with
  | nil =>
    have hs : s.char? = none := h.before.char?_eq
    exact .unclosed (blockCommentRest_of_end hs)
  | cons c rest =>
    have hs : s.char? = some c := h.before.char?_eq
    by_cases hline : c = '\n'
    · -- The other stream takes the carriage return first.
      subst hline
      obtain ⟨hreturn, hnewline, hlevel⟩ := h.advance_newline
      refine .more _ rest _ _ (blockCommentRest_of_ne hs (by decide)) ?_ hlevel (Nat.lt_succ_self _)
      rw [blockCommentRest_of_ne hreturn (by decide), blockCommentRest_of_ne hnewline (by decide)]
    · by_cases hstar : c = '*'
      · subst hstar
        exact h.commentStep_star
      · have ht := h.char?_eq_some hs hline
        exact .more _ rest _ _ (blockCommentRest_of_ne hs hstar) (blockCommentRest_of_ne ht hstar)
          (h.advance hline) (Nat.lt_succ_self _)

/-- A comment that is closed is passed over alike, on however many lines it is. -/
theorem Level.blockCommentRest (h : Level front cs rest s t) (hclosed : s.blockCommentRest.1 = true) :
    t.blockCommentRest.1 = true ∧
      ∃ ds rest', Level front (cs ++ ds) rest' s.blockCommentRest.2 t.blockCommentRest.2 := by
  induction hlen : rest.length using Nat.strongRecOn generalizing cs rest s t with
  | ind n ih =>
    subst hlen
    cases h.commentStep with
    | unclosed hopen => exact absurd (hclosed.symm.trans hopen) nofun
    | closed ds rest' s' t' hs ht hlevel =>
      rw [hs, ht]
      exact ⟨rfl, ds, rest', hlevel⟩
    | more ds rest' s' t' hs ht hlevel hlt =>
      rw [hs] at hclosed ⊢
      rw [ht]
      obtain ⟨hdone, ds', rest'', hrest⟩ := ih _ hlt hlevel hclosed rfl
      rw [List.append_assoc] at hrest
      exact ⟨hdone, ds ++ ds', rest'', hrest⟩

/-- A block comment is passed alike, if it ends. -/
theorem Level.blockComment (h : Level front ['/', '*'] rest s t) (start : Place)
    (hn : (s.blockComment start).NoFault) :
    ∃ cs rest', Level front cs rest' (s.blockComment start) (t.blockComment start) := by
  -- Whether the comment opens with the directive's word is the same in both texts.
  obtain ⟨hsame, ds, rest', hds, hword⟩ :=
    h.accept directiveWord (by decide) (by decide)
  unfold CharStream.blockComment at hn ⊢
  dsimp only at hn ⊢
  rw [← hsame]
  cases hdirective : (s.accept directiveWord).1 with
  | false =>
    rw [hdirective] at hn
    simp only [Bool.false_eq_true, if_false] at hn ⊢
    cases hclosed : (s.accept directiveWord).2.clearMark.blockCommentRest.1 with
    | false =>
      rw [hclosed] at hn
      exact absurd hn (not_noFault_complainAt _ _ _)
    | true =>
      obtain ⟨hclosed', ds', rest'', hlevel⟩ := hword.clearMark.blockCommentRest hclosed
      rw [hclosed']
      exact ⟨_, rest'', hlevel⟩
  | true =>
    rw [hdirective] at hn
    simp only [if_true] at hn ⊢
    cases hclosed : (s.accept directiveWord).2.blockCommentRest.1 with
    | false =>
      rw [hclosed] at hn
      exact absurd hn (not_noFault_complainAt _ _ _)
    | true =>
      obtain ⟨hclosed', ds', rest'', hlevel⟩ := hword.blockCommentRest hclosed
      rw [hclosed']
      refine ⟨_, rest'', hlevel.report ?_⟩
      -- The reported candidate is read from the segment; returns in it do not change what it directs.
      rcases hlevel.marked_cases with ⟨hs, ht⟩ | ⟨hs, ht⟩
      · rw [hs, ht]
      · rw [hs, ht, decodeLossy_utf8Encode, decodeLossy_utf8Encode]
        exact (LineDirective.candidate?_withReturns (ds ++ ds') start).symm

end CharStream

end FrontEnd
