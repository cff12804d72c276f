import FrontEnd.Proofs.Words.Row
import FrontEnd.Tree.Layout

/-!
# What pieces are read as

Pieces print something if they are words in a row, wherever what comes behind them is allowed there, and the
lexemes that these words are spell it (`Piece.Prints`). It is put together along the pieces: one list of
pieces behind another prints the one thing and then the other, if the first allows what the second starts
with (`Prints.append`).
-/

namespace FrontEnd

/-- The lexemes of words in a row are those of the first and those of the others. -/
theorem Written.exists_append {ws vs : List Word} {ts : List Lexeme} (h : Written (ws ++ vs) ts) :
    ∃ ts₁ ts₂, ts = ts₁ ++ ts₂ ∧ Written ws ts₁ ∧ Written vs ts₂ := by
  induction ws generalizing ts with
  | nil => exact ⟨[], ts, rfl, .nil, h⟩
  | cons w ws ih =>
    cases h with
    | cons hl hrest =>
      obtain ⟨ts₁, ts₂, rfl, hws, hvs⟩ := ih hrest
      exact ⟨_ :: ts₁, ts₂, rfl, .cons hl hws, hvs⟩

/-- Clean characters behind clean characters. -/
theorem IsClean.append {cs ds : List Char} (h : IsClean cs) (h' : IsClean ds) : IsClean (cs ++ ds) :=
  fun c hc => (List.mem_append.mp hc).elim (h c) (h' c)

namespace Piece

/-- The characters of some pieces. -/
def chars (ps : List Piece) : List Char := ps.flatMap fun p => p.text.toList

/-- What is printed are the characters of the pieces. -/
theorem toList_render (ps : List Piece) : (render ps).toList = chars ps := by
  unfold render chars
  rw [String.toList_join, List.flatMap_map]

/-- The characters of pieces one behind the other. -/
theorem chars_append (ps qs : List Piece) : chars (ps ++ qs) = chars ps ++ chars qs := List.flatMap_append

/-- The characters of a piece and of those behind it. -/
theorem chars_cons (p : Piece) (ps : List Piece) : chars (p :: ps) = p.text.toList ++ chars ps := rfl

/-- The characters of one piece. -/
theorem chars_singleton (p : Piece) : chars [p] = p.text.toList := List.append_nil _

/-- The first character of pieces is that of what is printed. -/
theorem firstChar?_eq (ps : List Piece) : firstChar? ps = (chars ps).head? := by
  induction ps with
  | nil => rfl
  | cons p ps ih =>
    have hrest : firstChar? (p :: ps) = p.text.toList.head?.or (firstChar? ps) := by
      unfold firstChar?
      rw [List.findSome?_cons]
      cases p.text.toList.head? <;> rfl
    rw [hrest, ih, chars_cons, List.head?_append]

/-- Where what comes behind them is allowed, the pieces are words in a row, and whatever lexemes these are
spell something. -/
def Prints (ps : List Piece) (allows : Char → Bool) (spells : List Lexeme → List Lexeme → Prop) : Prop :=
  IsClean (chars ps) ∧ ∃ ws, (∀ next? : Option Char, next?.all allows → Row next? (chars ps) ws) ∧
    ∀ ts us, Written ws ts → spells (ts ++ us) us

namespace Prints

variable {ps qs : List Piece} {allows allows' : Char → Bool} {spells spells' both : List Lexeme → List Lexeme → Prop}

/-- What pieces print may be followed by less and spell more. -/
theorem mono (h : Prints ps allows spells) (hallows : ∀ c, allows' c → allows c)
    (hspells : ∀ {ts us}, spells ts us → spells' ts us) : Prints ps allows' spells' := by
  obtain ⟨hclean, ws, hrow, hws⟩ := h
  refine ⟨hclean, ws, fun next? hnext => hrow next? ?_, fun ts us hts => hspells (hws ts us hts)⟩
  cases next? with
  | none => rfl
  | some c => exact hallows c hnext

/-- The one and then the other, where the first allows what comes behind it. -/
theorem append (h : Prints ps allows spells) (h' : Prints qs allows' spells')
    (hallows : ∀ c, ((chars qs).head? = some c ∨ (chars qs).head? = none ∧ allows' c) → allows c)
    (hboth : ∀ {ts ms us}, spells ts ms → spells' ms us → both ts us) : Prints (ps ++ qs) allows' both := by
  obtain ⟨hclean, ws, hrow, hws⟩ := h
  obtain ⟨hclean', vs, hrow', hvs⟩ := h'
  refine ⟨chars_append ps qs ▸ hclean.append hclean', ws ++ vs, fun next? hnext => ?_, fun ts us hts => ?_⟩
  · rw [chars_append]
    refine .append (hrow _ ?_) (hrow' next? hnext)
    cases hhead : (chars qs).head? with
    | some c => exact hallows c (.inl hhead)
    | none =>
      cases next? with
      | none => rfl
      | some c => exact hallows c (.inr ⟨hhead, hnext⟩)
  · obtain ⟨ts₁, ts₂, rfl, h₁, h₂⟩ := hts.exists_append
    rw [List.append_assoc]
    exact hboth (hws ts₁ _ h₁) (hvs ts₂ us h₂)

/-- The one and then the other, which starts with a certain character. -/
theorem before (h : Prints ps allows spells) (c : Char) (hc : allows c) (h' : Prints qs allows' spells')
    (hhead : (chars qs).head? = some c) (hboth : ∀ {ts ms us}, spells ts ms → spells' ms us → both ts us) :
    Prints (ps ++ qs) allows' both := by
  refine h.append h' (fun d hd => ?_) hboth
  rcases hd with hd | ⟨hnone, -⟩
  · rw [hhead] at hd
    exact Option.some.inj hd ▸ hc
  · rw [hhead] at hnone
    cases hnone

/-- No pieces at all. -/
theorem nil : Prints [] allows (· = ·) := by
  refine ⟨List.forall_mem_nil _, [], fun _ _ => .nil, fun ts us hts => ?_⟩
  cases hts
  rfl

/-- A word. -/
theorem word (w : Word) (text : String) (hchars : w.chars = text.toList) (hclean : IsClean text.toList) :
    Prints [.word text] (fun c => !w.joins c) fun ts us => ∃ l, ts = w.complete l :: us := by
  have htext : chars [.word text] = w.chars := (chars_singleton _).trans hchars.symm
  refine ⟨htext.trans hchars ▸ hclean, [w], fun next? hnext => ?_, fun ts us hts => ?_⟩
  · rw [htext]
    refine .single w ?_
    cases next? with
    | none => rfl
    | some c => simpa using hnext
  · cases hts with
    | cons hl hrest =>
      obtain ⟨l, rfl⟩ := hl
      cases hrest
      exact ⟨l, rfl⟩

/-- A blank behind something. -/
theorem then_space (h : Prints ps allows spells) (hspace : allows ' ') :
    Prints (ps ++ [space]) allows' spells := by
  have hblank : Prints [space] allows' (· = ·) := by
    have hchars : chars [space] = [' '] := by decide
    refine ⟨fun c hc => ?_, [], fun _ _ => ?_, fun ts us hts => ?_⟩
    · rw [hchars, List.mem_singleton] at hc
      rw [hc]
      decide
    · rw [hchars]
      exact .blank (by decide) .nil
    · cases hts
      rfl
  exact h.before ' ' hspace hblank (by decide) fun hts hms => hms ▸ hts

/-- A blank before something. -/
theorem space_then (h : Prints ps allows spells) : Prints ([space] ++ ps) allows spells := by
  obtain ⟨hclean, ws, hrow, hws⟩ := h
  have hchars : chars ([space] ++ ps) = ' ' :: chars ps := by
    rw [chars_append]
    rfl
  refine ⟨?_, ws, fun next? hnext => ?_, hws⟩
  · rw [hchars]
    exact List.forall_mem_cons.mpr ⟨by decide, hclean⟩
  · rw [hchars]
    exact .blank (by decide) (hrow next? hnext)

/-- A blank before something, or none. -/
theorem spaceIf_then (needed : Bool) (h : Prints ps allows spells) :
    Prints ((if needed then [space] else []) ++ ps) allows spells := by
  cases needed with
  | false => exact h
  | true => exact h.space_then

end Prints

end Piece

end FrontEnd
