import FrontEnd.Scanner

/-!
# What stands between tokens

Whatever the characters of a source are, what stands between two tokens is made up of blanks, of
characters that no token starts with, and of comments. `passages` divides the longest such stretch at
the front of some characters. It knows nothing of scanners: a line comment takes all up to the next
newline, and a block comment takes all through the first closing marker, or everything if there is none.

`Gap` says of some passages that they fit together and with the character behind them. Then they are
what `passages` finds (`Gap.passages_append`).
-/

namespace FrontEnd

/-- Whether a token may start with the character. -/
def startsToken (c : Char) : Bool :=
  isNameStart c || c.isDigit ||
    [';', '"', '\x60', '\'', ':', '.', '+', '-', '*', '/', '%', '&', '|', '^', '<', '>', '=', '!', '(',
      '[', '\x7b', ')', ']', '\x7d', ','].contains c

/-- What may stand between tokens. -/
inductive Passage where
  | blank (c : Char)
  /-- a character that no token starts with -/
  | stray (c : Char)
  | lineComment (text : List Char)
  | blockComment (text : List Char)
  /-- a block comment without a closing marker -/
  | openComment (text : List Char)
deriving DecidableEq, Repr

/-- No token starts with a blank. -/
theorem isBlank_of_startsToken {c : Char} (h : startsToken c) : Scanner.isBlank false c = false := by
  cases hb : Scanner.isBlank false c with
  | false => rfl
  | true =>
    simp only [Scanner.isBlank, Bool.not_false, Bool.and_true, Bool.or_eq_true, decide_eq_true_eq] at hb
    rcases hb with ((rfl | rfl) | rfl) | rfl <;> cases h

namespace Passage

/-- The characters of a passage. -/
def chars : Passage → List Char
  | blank c | stray c => [c]
  | lineComment text => '/' :: '/' :: text
  | blockComment text => '/' :: '*' :: (text ++ ['*', '/'])
  | openComment text => '/' :: '*' :: text

/-- The character that is rejected, if the passage is one. -/
def stray? : Passage → Option Char
  | stray c => some c
  | _ => none

end Passage

/-- The text of a block comment whose opening marker has been passed, and what comes after the closing
one, if there is one. -/
def splitComment : List Char → Option (List Char × List Char)
  | [] => none
  | c :: cs =>
    if c = '*' ∧ cs.head? = some '/' then some ([], cs.tail)
    else (splitComment cs).map fun (text, rest) => (c :: text, rest)

/-- What is behind a comment is shorter. -/
theorem length_splitComment {cs text rest : List Char} (h : splitComment cs = some (text, rest)) :
    rest.length < cs.length := by
  induction cs generalizing text rest with
  | nil => cases h
  | cons c cs ih =>
    unfold splitComment at h
    split at h
    · cases h
      rw [List.length_tail, List.length_cons]
      omega
    · obtain ⟨⟨text', rest'⟩, hsplit, he⟩ := Option.map_eq_some_iff.mp h
      cases he
      exact Nat.lt_succ_of_lt (ih hsplit)

/-- The longest division of the first of some characters into passages, and the other characters. -/
def passages : List Char → List Passage × List Char
  | [] => ([], [])
  | c :: cs =>
    if c = '/' ∧ cs.head? = some '/' then
      let found := passages (cs.tail.dropWhile (· ≠ '\n'))
      (.lineComment (cs.tail.takeWhile (· ≠ '\n')) :: found.1, found.2)
    else if c = '/' ∧ cs.head? = some '*' then
      match _h : splitComment cs.tail with
      | some (text, rest) =>
        let found := passages rest
        (.blockComment text :: found.1, found.2)
      | none => ([.openComment cs.tail], [])
    else if Scanner.isBlank false c then
      let found := passages cs
      (.blank c :: found.1, found.2)
    else if startsToken c then ([], c :: cs)
    else
      let found := passages cs
      (.stray c :: found.1, found.2)
termination_by cs => cs.length
decreasing_by
  · have h₁ := (List.dropWhile_sublist (· ≠ '\n') (l := cs.tail)).length_le
    rw [List.length_tail] at h₁
    simp only [List.length_cons]
    omega
  · have h₁ := length_splitComment _h
    rw [List.length_tail] at h₁
    simp only [List.length_cons]
    omega
  · exact Nat.lt_succ_self _
  · exact Nat.lt_succ_self _

/-! ## Comments -/

/-- A comment ends where it does, whatever comes later. -/
theorem splitComment_append {cs text rest : List Char} (h : splitComment cs = some (text, rest))
    (more : List Char) : splitComment (cs ++ more) = some (text, rest ++ more) := by
  -- Along the text up to the first closing marker, which more text behind it does not change.
  induction cs generalizing text with
  | nil => cases h
  | cons c cs ih =>
    unfold splitComment at h
    rw [List.cons_append, splitComment]
    split at h
    · next hc =>
      cases h
      obtain ⟨rest, rfl⟩ := List.head?_eq_some_iff.mp hc.2
      exact if_pos ⟨hc.1, rfl⟩
    · next hc =>
      obtain ⟨⟨text', rest'⟩, hsplit, he⟩ := Option.map_eq_some_iff.mp h
      cases he
      rw [if_neg, ih hsplit]
      · rfl
      · rintro ⟨rfl, hhead⟩
        refine hc ⟨rfl, ?_⟩
        cases cs with
        | nil => cases hsplit
        | cons => exact hhead

/-- A star without a slash behind it is part of the text. -/
theorem splitComment_star (cs : List Char) (h : cs.head? ≠ some '/') :
    splitComment ('*' :: cs) = (splitComment cs).map fun (text, rest) => ('*' :: text, rest) := by
  rw [splitComment, if_neg fun hs => h hs.2]

/-- A word without a star is part of the text. -/
theorem splitComment_word {word : List Char} (h : '*' ∉ word) (cs : List Char) :
    splitComment (word ++ cs) = (splitComment cs).map fun (text, rest) => (word ++ text, rest) := by
  induction word with
  | nil => exact Option.map_id'.symm
  | cons c word ih =>
    have hc : '*' ≠ c := fun hc => h (hc ▸ List.mem_cons_self)
    have hword : '*' ∉ word := fun hw => h (List.mem_cons_of_mem _ hw)
    rw [List.cons_append, splitComment, if_neg fun hs => hc hs.1.symm, ih hword, Option.map_map]
    rfl

/-- A block comment at the front, or one that does not end. -/
theorem passages_comment (cs : List Char) :
    passages ('/' :: '*' :: cs) =
      match splitComment cs with
      | some (text, rest) => (.blockComment text :: (passages rest).1, (passages rest).2)
      | none => ([.openComment cs], []) := by
  rw [passages, if_neg (by simp), if_pos ⟨rfl, rfl⟩]
  split
  · next h =>
    rw [List.tail_cons] at h
    rw [h]
  · next h =>
    rw [List.tail_cons] at h
    rw [h, List.tail_cons]

/-- Before a character that starts a token, and no comment, there is no passage. -/
theorem passages_token {c : Char} {cs : List Char} (hblank : Scanner.isBlank false c = false)
    (hstarts : startsToken c) (hslash : c = '/' → cs.head? ≠ some '/' ∧ cs.head? ≠ some '*') :
    passages (c :: cs) = ([], c :: cs) := by
  rw [passages, if_neg fun hc => (hslash hc.1).1 hc.2, if_neg fun hc => (hslash hc.1).2 hc.2,
    if_neg (by simp [hblank]), if_pos hstarts]

/-! ## Passages that fit together -/

/-- The passage fits before the given character, or at the end. -/
def Passage.Fits : Passage → Option Char → Prop
  | .blank c, _ => Scanner.isBlank false c
  | .stray c, _ => startsToken c = false ∧ Scanner.isBlank false c = false
  | .lineComment text, next? => '\n' ∉ text ∧ ∀ c, next? = some c → c = '\n'
  | .blockComment text, _ => splitComment (text ++ ['*', '/']) = some (text, [])
  | .openComment text, next? => splitComment text = none ∧ next? = none

/-- The passages fit together, and before the given character or the end. -/
def Gap : List Passage → Option Char → Prop
  | [], _ => True
  | p :: ps, next? => p.Fits ((ps.flatMap Passage.chars).head?.or next?) ∧ Gap ps next?

/-- What fits before something fits at the end. -/
theorem Passage.Fits.none {p : Passage} {next? : Option Char} (h : p.Fits next?) : p.Fits none := by
  cases p with
  | lineComment => exact ⟨h.1, fun _ hc => by cases hc⟩
  | openComment => exact ⟨h.1, rfl⟩
  | _ => exact h

/-- A slash is no blank. -/
theorem not_isBlank_slash : Scanner.isBlank false '/' = false := by decide

/-- A passage that fits is found, and then those behind it. -/
theorem Passage.Fits.passages_append {p : Passage} {cs : List Char} (h : p.Fits cs.head?) :
    passages (p.chars ++ cs) = (p :: (passages cs).1, (passages cs).2) := by
  -- By the kind of passage: each is cut off by its first character, or its first two, and by what must not
  -- stand behind it.
  cases p with
  | blank c =>
    have hslash : c ≠ '/' := by
      rintro rfl
      exact Bool.noConfusion (not_isBlank_slash.symm.trans h)
    rw [chars, List.singleton_append, passages, if_neg fun hc => hslash hc.1,
      if_neg fun hc => hslash hc.1]
    exact if_pos h
  | stray c =>
    have hslash : c ≠ '/' := by
      rintro rfl
      exact absurd h.1 (by decide)
    rw [chars, List.singleton_append, passages, if_neg fun hc => hslash hc.1,
      if_neg fun hc => hslash hc.1, if_neg (by simp [h.2]), if_neg (by simp [h.1])]
  | lineComment text =>
    obtain ⟨htext, hnext⟩ := h
    have hkeep : ∀ c ∈ text, decide (c ≠ '\n') = true := fun c hc =>
      decide_eq_true fun hn => htext (hn ▸ hc)
    -- The comment ends where it does because `cs` is empty or begins with the newline.
    have hcs : cs.takeWhile (· ≠ '\n') = [] ∧ cs.dropWhile (· ≠ '\n') = cs := by
      cases cs with
      | nil => exact ⟨rfl, rfl⟩
      | cons c cs =>
        cases hnext c rfl
        exact ⟨rfl, rfl⟩
    have htake : (text ++ cs).takeWhile (· ≠ '\n') = text := by
      rw [List.takeWhile_append_of_pos hkeep, hcs.1, List.append_nil]
    have hdrop : (text ++ cs).dropWhile (· ≠ '\n') = cs := by
      rw [List.dropWhile_append_of_pos hkeep, hcs.2]
    rw [chars, List.cons_append, List.cons_append, passages, if_pos ⟨rfl, rfl⟩, List.tail_cons, htake,
      hdrop]
  | blockComment text =>
    have hsplit := splitComment_append h cs
    rw [List.nil_append] at hsplit
    rw [chars, List.cons_append, List.cons_append, passages_comment, hsplit]
  | openComment text =>
    obtain ⟨hsplit, hnext⟩ := h
    cases cs with
    | cons => cases hnext
    | nil => rw [chars, List.append_nil, passages_comment, hsplit, passages]

/-- A gap behind a gap, if what ends the first fits before the second. -/
theorem Gap.append {ps qs : List Passage} {next? : Option Char}
    (h : Gap ps ((qs.flatMap Passage.chars).head?.or next?)) (h' : Gap qs next?) :
    Gap (ps ++ qs) next? := by
  induction ps with
  | nil => exact h'
  | cons p ps ih =>
    have hfits := h.1
    rw [← Option.or_assoc, ← List.head?_append, ← List.flatMap_append] at hfits
    exact ⟨hfits, ih h.2⟩

/-- What fits is what is found. -/
theorem Gap.passages_append {ps : List Passage} {cs : List Char} (h : Gap ps cs.head?) :
    passages (ps.flatMap Passage.chars ++ cs) = (ps ++ (passages cs).1, (passages cs).2) := by
  induction ps with
  | nil => rfl
  | cons p ps ih =>
    have hfits : p.Fits (ps.flatMap Passage.chars ++ cs).head? := by
      rw [List.head?_append]
      exact h.1
    rw [List.flatMap_cons, List.append_assoc, hfits.passages_append, ih h.2]
    rfl

/-- What fits somewhere fits at the end. -/
theorem Gap.none {ps : List Passage} {next? : Option Char} (h : Gap ps next?) : Gap ps none := by
  induction ps with
  | nil => trivial
  | cons p ps ih =>
    refine ⟨?_, ih h.2⟩
    have hfits := h.1
    cases hhead : (ps.flatMap Passage.chars).head? with
    | none => exact (hhead ▸ hfits).none
    | some c =>
      rw [hhead] at hfits
      exact hfits

/-- Passages that fit are all that is found in their characters. -/
theorem Gap.passages_eq {ps : List Passage} {next? : Option Char} (h : Gap ps next?) :
    passages (ps.flatMap Passage.chars) = (ps, []) := by
  have hall : passages (ps.flatMap Passage.chars ++ []) = (ps ++ (passages []).1, (passages []).2) :=
    h.none.passages_append
  rwa [List.append_nil, passages, List.append_nil] at hall

end FrontEnd
