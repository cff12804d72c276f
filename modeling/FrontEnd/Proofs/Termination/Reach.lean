import FrontEnd.Proofs.Routine

/-!
# How far a parser has come

The number of lexemes that a parser still has before the end (`Parser.left`) measures how far it has
come. No move goes back: a parser stays at its token or has fewer lexemes left (`Parser.OnFrom`). Reading
on from a token before the end always leaves fewer (`Parser.Ends.left_next_lt`), and what is said can only
cut a run short.

All this rests on the input having an end, which comes once and last (`Parser.Ends`).
-/

namespace FrontEnd

/-- The lexeme and the scans after it have the end of the input last, and only last. -/
def Closed : Lexeme → List Scan → Prop
  | l, [] => l.token = .eof
  | l, scan :: rest => l.token ≠ .eof ∧ Closed scan.lexeme rest

/-- Behind a lexeme that is not the end there are others. -/
theorem Closed.ne_nil {l : Lexeme} {scans : List Scan} (h : Closed l scans) (hl : l.token ≠ .eof) :
    scans ≠ [] := by
  rintro rfl
  exact hl h

/-- Behind the end there is nothing. -/
theorem Closed.eq_nil {l : Lexeme} {scans : List Scan} (h : Closed l scans) (hl : l.token = .eof) :
    scans = [] := by
  cases scans with
  | nil => rfl
  | cons scan rest => exact absurd hl h.1

namespace Parser

/-- The end of the input comes once, and last. -/
def Ends (p : Parser) : Prop := Closed p.current p.upcoming

/-- The number of lexemes before the end, from the current one on. -/
def left (p : Parser) : Nat := if p.token = .eof then 0 else p.upcoming.length

/-- The second parser is at the same token as the first, or further on. -/
def OnFrom (p q : Parser) : Prop := q.left < p.left ∨ q.left = p.left ∧ q.token = p.token

/-- What a run of an action does to any parser: it does not go back, leaves the functions that it
enters, and does not starve. -/
structure Reaches (p q : Parser) : Prop where
  ends : q.Ends
  onFrom : p.OnFrom q
  functions : q.functions = p.functions
  starved : q.starved = p.starved

section

variable {p q r : Parser}

/-- At the end no lexemes are left. -/
theorem left_eq_zero (h : p.token = .eof) : p.left = 0 := if_pos h

/-- An operator is a token of the class of operators, or the star. -/
theorem token_of_operator? {op : Operator} (h : p.operator? = some op) :
    p.token = .op ∨ p.token = .star := by
  unfold operator? at h
  split at h
  · assumption
  · cases h

/-- Before the end a parser is at its current lexeme. -/
theorem token_eq_current (h : p.token ≠ .eof) : p.current.token = p.token := by
  have ha := aborted_of_token_ne_eof h
  unfold token
  rw [ha]
  rfl

/-- Before the end there is a lexeme left. -/
theorem Ends.left_pos (h : p.Ends) (ht : p.token ≠ .eof) : 0 < p.left := by
  have hne : p.upcoming ≠ [] := by
    apply Closed.ne_nil h
    rw [token_eq_current ht]
    exact ht
  have hlen : 0 < p.upcoming.length := List.length_pos_iff.mpr hne
  unfold left
  rw [if_neg ht]
  exact hlen

/-- No more lexemes are left than are to come. -/
theorem left_le_length (p : Parser) : p.left ≤ p.upcoming.length := by
  unfold left
  split
  · exact Nat.zero_le _
  · exact Nat.le_refl _

namespace OnFrom

/-- A parser is at its own token. -/
theorem refl (p : Parser) : p.OnFrom p := .inr ⟨rfl, rfl⟩

/-- Further on there are no more lexemes left. -/
theorem left_le (h : p.OnFrom q) : q.left ≤ p.left := by
  rcases h with hlt | ⟨heq, -⟩
  · exact Nat.le_of_lt hlt
  · exact Nat.le_of_eq heq

/-- Further on than further on is further on. -/
theorem trans (h : p.OnFrom q) (h' : q.OnFrom r) : p.OnFrom r := by
  rcases h' with hlt | ⟨heq, ht⟩
  · exact .inl (Nat.lt_of_lt_of_le hlt h.left_le)
  · rcases h with hlt | ⟨heq', ht'⟩
    · exact .inl (by omega)
    · exact .inr ⟨heq.trans heq', ht.trans ht'⟩

/-- A parser at another token is further on. -/
theorem left_lt (h : p.OnFrom q) (ht : q.token ≠ p.token) : q.left < p.left := by
  rcases h with hlt | ⟨-, heq⟩
  · exact hlt
  · exact absurd heq ht

end OnFrom

namespace Reaches

/-- An action that does nothing does not go back. -/
theorem refl (h : p.Ends) : p.Reaches p := ⟨h, .refl p, rfl, rfl⟩

/-- Actions that do not go back do not do so one after the other. -/
theorem trans (h : p.Reaches q) (h' : q.Reaches r) : p.Reaches r :=
  ⟨h'.ends, h.onFrom.trans h'.onFrom, h'.functions.trans h.functions, h'.starved.trans h.starved⟩

/-- An action leaves no more lexemes than there were. -/
theorem left_le (h : p.Reaches q) : q.left ≤ p.left := h.onFrom.left_le

end Reaches

end

/-! ## Speaking -/

/-- The second parser differs from the first only in its books, in what has been said and perhaps in
having been finished by it. -/
structure Lingers (p q : Parser) : Prop where
  current : q.current = p.current
  upcoming : q.upcoming = p.upcoming
  functions : q.functions = p.functions
  starved : q.starved = p.starved
  aborted : p.aborted = true → q.aborted = true

namespace Lingers

variable {p q r : Parser}

/-- A parser lingers where it is. -/
theorem refl (p : Parser) : p.Lingers p := ⟨rfl, rfl, rfl, rfl, id⟩

/-- Lingering twice is lingering. -/
theorem trans (h : p.Lingers q) (h' : q.Lingers r) : p.Lingers r where
  current := h'.current.trans h.current
  upcoming := h'.upcoming.trans h.upcoming
  functions := h'.functions.trans h.functions
  starved := h'.starved.trans h.starved
  aborted ha := h'.aborted (h.aborted ha)

/-- Whoever lingers is where it was, or has been finished. -/
theorem onFrom (h : p.Lingers q) (hp : p.Ends) : p.OnFrom q := by
  cases hq : q.aborted with
  | true =>
    have hqt : q.token = .eof := by simp [token, hq]
    by_cases hpt : p.token = .eof
    · exact .inr ⟨(left_eq_zero hqt).trans (left_eq_zero hpt).symm, hqt.trans hpt.symm⟩
    · refine .inl ?_
      rw [left_eq_zero hqt]
      exact hp.left_pos hpt
  | false =>
    have hpa : p.aborted = false := by
      rw [Bool.eq_false_iff]
      intro ha
      rw [h.aborted ha] at hq
      cases hq
    have ht : q.token = p.token := by simp [token, hq, hpa, h.current]
    exact .inr ⟨by simp [left, ht, h.upcoming], ht⟩

/-- A parser that lingers does not go back. -/
theorem reaches (h : p.Lingers q) (hp : p.Ends) : p.Reaches q where
  ends := by
    unfold Ends
    rw [h.current, h.upcoming]
    exact hp
  onFrom := h.onFrom hp
  functions := h.functions
  starved := h.starved

/-- A diagnostic does not go on. -/
theorem diagnose (p : Parser) (pos : Pos) (cause : Cause) : p.Lingers (p.diagnose pos cause) := by
  refine ⟨rfl, rfl, rfl, rfl, fun ha => ?_⟩
  have ha : p.tolerant = false ∧ p.first?.isSome = true := by simpa [Parser.aborted] using ha
  change (!p.tolerant && (p.first?.or (some ⟨pos, cause⟩)).isSome) = true
  simp [ha.1]

/-- A line of the trace does not go on. -/
theorem trace (p : Parser) (note : TraceNote) : p.Lingers (p.trace note) := by
  unfold Parser.trace
  split
  · exact ⟨rfl, rfl, rfl, rfl, id⟩
  · exact refl p

/-- A complaint does not go on. -/
theorem complainAt (p : Parser) (pos : Pos) (c : Complaint) : p.Lingers (p.complainAt pos c) := by
  have ht := trace p (.remark ("syntax error: " ++ c.words))
  unfold Parser.complainAt
  dsimp only
  generalize p.trace _ = p' at ht ⊢
  split
  · exact ht
  · exact ht.trans (diagnose p' pos _)

/-- Hearing of what happened under way does not go on. -/
theorem hear (p : Parser) (report : Report) : p.Lingers (p.hear report) := by
  unfold Parser.hear
  split
  · exact refl p
  · split
    · exact diagnose p _ _
    · unfold Parser.direct
      split
      · exact refl p
      · split
        · exact refl p
        · exact diagnose p _ _
        · exact ⟨rfl, rfl, rfl, rfl, id⟩

/-- Hearing of everything that happened under way does not go on. -/
theorem foldl_hear (reports : List Report) (p : Parser) : p.Lingers (reports.foldl Parser.hear p) := by
  induction reports generalizing p with
  | nil => exact refl p
  | cons r rest ih => exact (hear p r).trans (ih (p.hear r))

end Lingers

/-! ## Reading -/

section

variable {p : Parser}

/-- At the end there is nothing to read on to. -/
theorem Ends.next_of_eof (h : p.Ends) (ht : p.token = .eof) : p.next = p := by
  unfold next
  split
  · rfl
  · next ha =>
    have hc : p.current.token = .eof := by simpa [token, ha] using ht
    have hu : p.upcoming = [] := Closed.eq_nil h hc
    rw [hu]

/-- Before the end, going on leaves fewer lexemes, in the same functions and with the budget as it was. -/
theorem Ends.next_of_ne (h : p.Ends) (ht : p.token ≠ .eof) :
    p.next.Ends ∧ p.next.left < p.left ∧ p.next.functions = p.functions ∧
      p.next.starved = p.starved := by
  have ha := aborted_of_token_ne_eof ht
  have hleft : p.left = p.upcoming.length := if_neg ht
  have hpos := h.left_pos ht
  unfold next
  rw [ha, if_neg Bool.false_ne_true]
  cases hu : p.upcoming with
  | nil =>
    rw [hleft, hu] at hpos
    exact absurd hpos (Nat.lt_irrefl 0)
  | cons scan rest =>
    have hrest : Closed scan.lexeme rest := by
      unfold Ends at h
      rw [hu] at h
      exact h.2
    have hl := Lingers.foldl_hear scan.reports { p with current := scan.lexeme, upcoming := rest }
    have hr := hl.reaches hrest
    refine ⟨hr.ends, ?_, hr.functions, hr.starved⟩
    -- Hearing reports leaves the scans alone, so one scan fewer is left.
    calc (scan.reports.foldl hear { p with current := scan.lexeme, upcoming := rest }).left
        ≤ (scan.reports.foldl hear { p with current := scan.lexeme, upcoming := rest }).upcoming.length :=
          left_le_length _
      _ = rest.length := by rw [upcoming_foldl_hear]
      _ < p.upcoming.length := by
          rw [hu]
          exact Nat.lt_succ_self _
      _ = p.left := hleft.symm

/-- Before the end, going on leaves fewer lexemes. -/
theorem Ends.left_next_lt (h : p.Ends) (ht : p.token ≠ .eof) : p.next.left < p.left :=
  (h.next_of_ne ht).2.1

/-- Going on does not go back, also at the end. -/
theorem Ends.reaches_next (h : p.Ends) : p.Reaches p.next := by
  by_cases ht : p.token = .eof
  · rw [h.next_of_eof ht]
    exact .refl h
  · obtain ⟨hends, hlt, hf, hs⟩ := h.next_of_ne ht
    exact ⟨hends, .inl hlt, hf, hs⟩

/-- Whether a search stops depends on the token and on being in a function. -/
theorem isStop_congr {q : Parser} {follow : List Token} (ht : q.token = p.token)
    (hf : q.functions = p.functions) : q.isStop follow = p.isStop follow := by
  unfold isStop
  rw [ht, hf]

/-- A search stops at the end. -/
theorem token_ne_of_isStop {follow : List Token} (h : p.isStop follow = false) : p.token ≠ .eof := by
  intro ht
  simp [isStop, ht] at h

/-- A search that does not end where it starts goes on from the next token. -/
theorem Ends.skipTo_eq (h : p.Ends) {follow : List Token} (hs : p.isStop follow = false) :
    p.skipTo follow = p.next.skipTo follow := by
  have ht := token_ne_of_isStop hs
  have hne : p.upcoming.isEmpty = false := by
    rw [List.isEmpty_eq_false_iff]
    apply Closed.ne_nil h
    rw [token_eq_current ht]
    exact ht
  rw [skipTo, hs, hne]
  rfl

/-- A search that has got to where it stops stays there. -/
theorem skipTo_of_isStop {follow : List Token} (hs : p.isStop follow = true) :
    p.skipTo follow = p := by
  rw [skipTo, hs]
  rfl

/-- A search does not go back. -/
theorem Ends.reaches_skipTo (h : p.Ends) (follow : List Token) : p.Reaches (p.skipTo follow) := by
  -- Every step of the search takes a lexeme, so the induction is on the lexemes left.
  induction hn : p.left using Nat.strongRecOn generalizing p with
  | ind n ih =>
    cases hs : p.isStop follow with
    | true =>
      rw [skipTo_of_isStop hs]
      exact .refl h
    | false =>
      have hlt := h.left_next_lt (token_ne_of_isStop hs)
      have hnext := h.reaches_next
      rw [h.skipTo_eq hs]
      exact hnext.trans (ih p.next.left (hn ▸ hlt) hnext.ends rfl)

/-- A search that does not end where it starts takes a lexeme. -/
theorem Ends.left_skipTo_lt (h : p.Ends) {follow : List Token} (hs : p.isStop follow = false) :
    (p.skipTo follow).left < p.left := by
  have hnext := h.reaches_next
  calc (p.skipTo follow).left = (p.next.skipTo follow).left := by rw [h.skipTo_eq hs]
    _ ≤ p.next.left := (hnext.ends.reaches_skipTo follow).left_le
    _ < p.left := h.left_next_lt (token_ne_of_isStop hs)

/-- A recovery does not go back. -/
theorem Ends.reaches_recover (h : p.Ends) (follow : List Token) : p.Reaches (p.recover follow) := by
  have ht := (Lingers.trace p
    (.remark ("advance [" ++ ", ".intercalate (follow.map Token.className) ++ "]"))).reaches h
  unfold recover
  dsimp only
  generalize p.trace _ = q at ht ⊢
  split
  · split
    · exact ht
    · exact ht.trans ht.ends.reaches_next
  · exact ht.trans (ht.ends.reaches_skipTo follow)

/-- Recovery that does not end where it starts takes a lexeme. -/
theorem Ends.left_recover_lt (h : p.Ends) {follow : List Token} (hf : follow ≠ [])
    (hs : p.isStop follow = false) : (p.recover follow).left < p.left := by
  have hl := Lingers.trace p
    (.remark ("advance [" ++ ", ".intercalate (follow.map Token.className) ++ "]"))
  have ht := hl.reaches h
  unfold recover
  rw [if_neg (by simpa using hf)]
  generalize p.trace _ = q at hl ht ⊢
  rcases ht.onFrom with hlt | ⟨hleft, htoken⟩
  · exact Nat.lt_of_le_of_lt (ht.ends.reaches_skipTo follow).left_le hlt
  · have hqs : q.isStop follow = false := (isStop_congr htoken hl.functions).trans hs
    exact hleft ▸ ht.ends.left_skipTo_lt hqs

/-- With nothing to search for, recovery takes a lexeme. -/
theorem Ends.left_recover_nil_lt (h : p.Ends) (ht : p.token ≠ .eof) :
    (p.recover []).left < p.left := by
  have hq := (Lingers.trace p
    (.remark ("advance [" ++ ", ".intercalate (([] : List Token).map Token.className) ++ "]"))).reaches h
  unfold recover
  dsimp only
  generalize p.trace _ = q at hq ⊢
  rw [if_pos List.isEmpty_nil]
  split
  · next hqt =>
    rw [left_eq_zero hqt]
    exact h.left_pos ht
  · next hqt => exact Nat.lt_of_lt_of_le (hq.ends.left_next_lt hqt) hq.left_le

end

end Parser

end FrontEnd
