import FrontEnd.Position
import FrontEnd.Proofs.Refill
import Mathlib.Order.Defs.PartialOrder

/-!
# Places from offsets

`Place.ofOffset` counts the place of a byte off the bytes before it: the newlines among them, and the
bytes since the last of these. A step over bytes without a newline moves the column on
(`Place.ofOffset_of_sameLine`), a step over a newline goes to the first column of the next line, and
what a fetch finds tells which of the two it is. So the places are in the order of the offsets
(`Place.ofOffset_le`).
-/

namespace FrontEnd

/-- The byte that ends a line. -/
def newlineByte : UInt8 := 0x0a

/-- The place of the byte at offset `i`: its line comes after as many newlines as there are before it,
and its column after as many bytes as there are since the last of them. -/
def Place.ofOffset (bytes : ByteArray) (i : Nat) : Place :=
  let before := bytes.data.toList.take i
  ⟨1 + before.count newlineByte, 1 + (before.reverse.takeWhile (· ≠ newlineByte)).length⟩

/-- Places are in the order of their lines, and on a line in that of their columns. -/
instance : LE Place where
  le p q := p.line < q.line ∨ p.line = q.line ∧ p.column ≤ q.column

/-- A place is before another on an earlier line, or on the same line in an earlier column. -/
instance : LT Place where
  lt p q := p.line < q.line ∨ p.line = q.line ∧ p.column < q.column

/-- There is no newline among the bytes from `i` up to `j`. -/
def SameLine (bytes : ByteArray) (i j : Nat) : Prop :=
  ∀ (n : Nat) (h : n < bytes.size), i ≤ n → n < j → bytes[n] ≠ newlineByte

namespace Place

variable {bytes : ByteArray} {i j k : Nat}

/-- The first byte is at the first place. -/
@[simp] theorem ofOffset_zero : ofOffset bytes 0 = first := rfl

/-- Columns are counted from one. -/
theorem column_ofOffset_pos (bytes : ByteArray) (i : Nat) : 0 < (ofOffset bytes i).column :=
  Nat.lt_of_lt_of_le Nat.one_pos (Nat.le_add_right ..)

/-- Lines are counted from one. -/
theorem line_ofOffset_pos (bytes : ByteArray) (i : Nat) : 0 < (ofOffset bytes i).line :=
  Nat.lt_of_lt_of_le Nat.one_pos (Nat.le_add_right ..)

/-- There are no more lines before a byte than bytes, and no more columns. -/
theorem ofOffset_le_succ (bytes : ByteArray) (i : Nat) :
    (ofOffset bytes i).line ≤ i + 1 ∧ (ofOffset bytes i).column ≤ i + 1 := by
  have htake : (bytes.data.toList.take i).length ≤ i := List.length_take_le ..
  have hlines : (bytes.data.toList.take i).count newlineByte ≤ (bytes.data.toList.take i).length :=
    List.count_le_length
  have hcolumns : ((bytes.data.toList.take i).reverse.takeWhile (· ≠ newlineByte)).length ≤
      (bytes.data.toList.take i).reverse.length := (List.takeWhile_sublist _).length_le
  rw [List.length_reverse] at hcolumns
  unfold ofOffset
  dsimp only
  omega

/-- Where an offset and one more fit into 32 bits, so does the place. -/
theorem fits_ofOffset (h : i + 1 < UInt32.size) : (ofOffset bytes i).Fits :=
  ⟨Nat.lt_of_le_of_lt (ofOffset_le_succ bytes i).1 h, Nat.lt_of_le_of_lt (ofOffset_le_succ bytes i).2 h⟩

/-- The bytes up to one, and that one. -/
theorem take_succ_toList (hi : i < bytes.size) :
    bytes.data.toList.take (i + 1) = bytes.data.toList.take i ++ [bytes[i]] := by
  have hl : i < bytes.data.toList.length := by simpa using hi
  rw [List.take_add_one, List.getElem?_eq_getElem hl, Option.toList_some]
  rfl

/-- Behind a newline is the first column of the next line. -/
theorem ofOffset_newline (hi : i < bytes.size) (h : bytes[i] = newlineByte) :
    ofOffset bytes (i + 1) = ⟨(ofOffset bytes i).line + 1, 1⟩ := by
  unfold ofOffset
  rw [take_succ_toList hi, h]
  simp [Nat.add_assoc]

/-- Behind any other byte is the next column of its line. -/
theorem ofOffset_succ (hi : i < bytes.size) (h : bytes[i] ≠ newlineByte) :
    ofOffset bytes (i + 1) = ⟨(ofOffset bytes i).line, (ofOffset bytes i).column + 1⟩ := by
  unfold ofOffset
  rw [take_succ_toList hi]
  simp [h, Nat.add_assoc]

/-- On the same line the column is a difference of offsets. -/
theorem ofOffset_of_sameLine (h : SameLine bytes i (i + k)) (hk : i + k ≤ bytes.size) :
    ofOffset bytes (i + k) = ⟨(ofOffset bytes i).line, (ofOffset bytes i).column + k⟩ := by
  induction k with
  | zero => rfl
  | succ k ih =>
    have hprev := ih (fun n hn hin hnk => h n hn hin (by omega)) (by omega)
    have hne := h (i + k) (by omega) (by omega) (by omega)
    rw [← Nat.add_assoc, ofOffset_succ (by omega) hne, hprev]
    rfl

/-- The next byte is not on an earlier line. -/
theorem line_ofOffset_le (hi : i < bytes.size) :
    (ofOffset bytes i).line ≤ (ofOffset bytes (i + 1)).line := by
  by_cases h : bytes[i] = newlineByte
  · rw [ofOffset_newline hi h]
    exact Nat.le_succ _
  · exact Nat.le_of_eq (congrArg Place.line (ofOffset_succ hi h)).symm

/-- No later byte is on an earlier line. -/
theorem line_ofOffset_mono (hij : i ≤ j) (hj : j ≤ bytes.size) :
    (ofOffset bytes i).line ≤ (ofOffset bytes j).line := by
  induction hij with
  | refl => exact Nat.le_refl _
  | @step j _ ih => exact Nat.le_trans (ih (by omega)) (line_ofOffset_le (by omega))

/-- Between offsets whose places have the same line there is no newline. -/
theorem sameLine_of_line_eq (hk : i + k ≤ bytes.size)
    (h : (ofOffset bytes i).line = (ofOffset bytes (i + k)).line) : SameLine bytes i (i + k) := by
  intro n hn hin hnk hne
  have hbefore : (ofOffset bytes i).line ≤ (ofOffset bytes n).line :=
    line_ofOffset_mono hin (by omega)
  have hafter : (ofOffset bytes (n + 1)).line ≤ (ofOffset bytes (i + k)).line :=
    line_ofOffset_mono (by omega) hk
  rw [ofOffset_newline hn hne] at hafter
  dsimp only at hafter
  omega

/-- No place is before itself. -/
theorem le_refl (p : Place) : p ≤ p := .inr ⟨rfl, Nat.le_refl _⟩

/-- Places come in an order. -/
theorem le_trans {p q s : Place} (h : p ≤ q) (h' : q ≤ s) : p ≤ s := by
  rcases h with hline | ⟨hline, hcolumn⟩
  · rcases h' with hline' | ⟨hline', -⟩
    · exact .inl (Nat.lt_trans hline hline')
    · exact .inl (hline' ▸ hline)
  · rcases h' with hline' | ⟨hline', hcolumn'⟩
    · exact .inl (hline ▸ hline')
    · exact .inr ⟨hline.trans hline', Nat.le_trans hcolumn hcolumn'⟩

instance : Preorder Place where
  le_refl := le_refl
  le_trans _ _ _ := le_trans
  lt_iff_le_not_ge p q := by
    change (p.line < q.line ∨ p.line = q.line ∧ p.column < q.column) ↔
      (p.line < q.line ∨ p.line = q.line ∧ p.column ≤ q.column) ∧
        ¬(q.line < p.line ∨ q.line = p.line ∧ q.column ≤ p.column)
    omega

/-- What comes later is at a later place. -/
theorem ofOffset_le (hij : i ≤ j) (hj : j ≤ bytes.size) : ofOffset bytes i ≤ ofOffset bytes j := by
  obtain ⟨k, rfl⟩ := Nat.exists_eq_add_of_le hij
  rcases Nat.lt_or_eq_of_le (line_ofOffset_mono hij hj) with hline | hline
  · exact .inl hline
  · rw [ofOffset_of_sameLine (sameLine_of_line_eq hj hline) hj]
    exact .inr ⟨rfl, Nat.le_add_right ..⟩

/-- Only the first byte has the first place. -/
theorem eq_zero_of_ofOffset (hi : i ≤ bytes.size) (h : ofOffset bytes i = first) : i = 0 := by
  have hline : (ofOffset bytes 0).line = (ofOffset bytes (0 + i)).line := by
    rw [Nat.zero_add, h]
    rfl
  have hcolumn := ofOffset_of_sameLine (i := 0) (k := i)
    (sameLine_of_line_eq (by omega) hline) (by omega)
  rw [Nat.zero_add, h, ofOffset_zero] at hcolumn
  have := congrArg Place.column hcolumn
  dsimp only at this
  omega

end Place

namespace Fetched.Stands

variable {bytes : ByteArray} {i : Nat} {f : Fetched}

/-- What stands at an offset is within the bytes. -/
theorem width_le (h : f.Stands bytes i) : i + f.width ≤ bytes.size := by
  cases h with
  | char hd => exact ByteArray.le_size_of_utf8DecodeChar?_eq_some hd
  | nul hd => exact ByteArray.lt_size_of_isSome_utf8DecodeChar? (by rw [hd]; rfl)
  | malformed hi _ => exact hi
  | finished he => exact Nat.le_of_eq he

/-- Only a newline is found where the byte of a newline stands. -/
theorem eq_newline (h : f.Stands bytes i) (hi : i < bytes.size) (hb : bytes[i] = newlineByte) :
    f = .char '\n' := by
  have hd : bytes.utf8DecodeChar? i = some '\n' := by
    rw [Utf8.utf8DecodeChar?_of_lt hi (by rw [hb]; decide), hb]
    rfl
  cases h with
  | char hc =>
    rw [hd] at hc
    cases hc
    rfl
  | nul hc =>
    rw [hd] at hc
    cases hc
  | malformed _ hn =>
    rw [hd] at hn
    cases hn
  | finished he => omega

/-- Where a newline is found stands its byte. -/
theorem getElem_newline (h : Fetched.Stands bytes i (.char '\n')) :
    ∃ hi : i < bytes.size, bytes[i] = newlineByte := by
  cases h with
  | char hd =>
    have hi := ByteArray.lt_size_of_isSome_utf8DecodeChar? (by rw [hd]; rfl)
    exact ⟨hi, Utf8.getElem_of_utf8DecodeChar? hd rfl hi⟩

/-- What is found other than a newline holds none. -/
theorem sameLine (h : f.Stands bytes i) (hf : f ≠ .char '\n') : SameLine bytes i (i + f.width) := by
  intro n hn hin hnk hb
  rcases Nat.lt_or_eq_of_le hin with hlt | rfl
  · cases h with
    | char hd =>
      -- A newline is no byte that may stand inside a character.
      have hc := Utf8.isContinuation_getElem hd hlt hnk hn
      rw [hb] at hc
      exact absurd hc (by decide)
    | nul | malformed =>
      change n < i + 1 at hnk
      omega
    | finished =>
      change n < i + 0 at hnk
      omega
  · exact hf (h.eq_newline hn hb)

end Fetched.Stands

end FrontEnd
