import FrontEnd.Text.Utf8

/-!
# Decoding the first of some bytes

A character can be told from the bytes that settle it, and whatever follows them does not matter
(`utf8DecodeChar?_extract_of_settled`). What breaks off inside a character is never settled
(`settled_eq_false`), because its first byte announces more (`exists_lead`).
-/

namespace FrontEnd.Utf8

/-! ## Leads

The first byte of a character holds the highest bits of its number below a mark for its width. -/

/-- The first byte of a character of two bytes announces two. -/
theorem announcedWidth_two : ∀ n < 32, 2 ≤ n →
    announcedWidth (UInt8.ofNat n &&& 0x1f ||| 0xc0) = 2 := by
  decide

/-- The first byte of a character of three bytes announces three. -/
theorem announcedWidth_three : ∀ n < 16,
    announcedWidth (UInt8.ofNat n &&& 0x0f ||| 0xe0) = 3 := by
  decide

/-- The first byte of a character of four bytes announces four. -/
theorem announcedWidth_four : ∀ n < 5,
    announcedWidth (UInt8.ofNat n &&& 0x07 ||| 0xf0) = 4 := by
  decide

/-- A byte with the marker of continuations is one. -/
theorem isContinuation_or : ∀ n < 256,
    isContinuation (UInt8.ofNat n &&& 0x3f ||| 0x80) = true := by
  decide +kernel

/-- The bytes behind the first are continuations. -/
theorem isContinuation_tail (x : UInt8) : isContinuation (x &&& 0x3f ||| 0x80) = true := by
  have h := isContinuation_or x.toNat x.toNat_lt
  rwa [UInt8.ofNat_toNat] at h

/-- The last byte of a character's number without its last `k` bits. -/
theorem toUInt8_shiftRight (x k : UInt32) (hk : k.toNat < 32) :
    (x >>> k).toUInt8 = UInt8.ofNat (x.toNat >>> k.toNat) := by
  rw [show (x >>> k).toUInt8 = UInt8.ofNat (x >>> k).toNat from rfl, UInt32.toNat_shiftRight,
    Nat.mod_eq_of_lt hk]

/-- A continuation announces nothing, byte by byte. -/
theorem announcedWidth_continuation : ∀ n < 256, isContinuation (UInt8.ofNat n) →
    announcedWidth (UInt8.ofNat n) = 0 := by
  decide +kernel

/-- A continuation announces nothing. -/
theorem announcedWidth_of_isContinuation {x : UInt8} (h : isContinuation x) :
    announcedWidth x = 0 := by
  have hx := announcedWidth_continuation x.toNat x.toNat_lt
  rw [UInt8.ofNat_toNat] at hx
  exact hx h

/-- A character starts with a byte that announces its width, and goes on with bytes that may only
stand inside a character. -/
theorem exists_lead (c : Char) : ∃ lead tail, String.utf8EncodeChar c = lead :: tail ∧
    announcedWidth lead = c.utf8Size ∧ tail.all isContinuation := by
  -- By the width; the bounds on the code point that belong to it are what the lead byte is computed from.
  obtain h | h | h | h := c.utf8Size_eq
  · refine ⟨_, _, String.utf8EncodeChar_eq_singleton h, ?_, rfl⟩
    rw [h]
    rw [Char.utf8Size_eq_one_iff, UInt32.le_iff_toNat_le] at h
    have hlt : c.val.toUInt8 < 0x80 := by
      rw [UInt8.lt_iff_toNat_lt, UInt32.toNat_toUInt8]
      change _ ≤ 127 at h
      change _ < 128
      omega
    exact if_pos hlt
  · refine ⟨_, _, String.utf8EncodeChar_eq_cons_cons h, ?_, by simp [isContinuation_tail]⟩
    rw [h]
    rw [Char.utf8Size_eq_two_iff, UInt32.lt_iff_toNat_lt, UInt32.le_iff_toNat_le] at h
    change 127 < _ ∧ _ ≤ 2047 at h
    rw [toUInt8_shiftRight _ _ (by decide), Nat.shiftRight_eq_div_pow]
    change announcedWidth (UInt8.ofNat (_ / 64) &&& _ ||| _) = _
    exact announcedWidth_two _ (by omega) (by omega)
  · refine ⟨_, _, String.utf8EncodeChar_eq_cons_cons_cons h, ?_, by simp [isContinuation_tail]⟩
    rw [h]
    rw [Char.utf8Size_eq_three_iff, UInt32.lt_iff_toNat_lt, UInt32.le_iff_toNat_le] at h
    change 2047 < _ ∧ _ ≤ 65535 at h
    rw [toUInt8_shiftRight _ _ (by decide), Nat.shiftRight_eq_div_pow]
    change announcedWidth (UInt8.ofNat (_ / 4096) &&& _ ||| _) = _
    exact announcedWidth_three _ (by omega)
  · refine ⟨_, _, String.utf8EncodeChar_eq_cons_cons_cons_cons h, ?_, by
      simp [isContinuation_tail]⟩
    rw [h]
    have hc : c.val.toNat < 0x110000 := by
      rcases c.valid with hc | hc
      · exact Nat.lt_trans hc (by decide)
      · exact hc.2
    rw [toUInt8_shiftRight _ _ (by decide), Nat.shiftRight_eq_div_pow]
    change announcedWidth (UInt8.ofNat (_ / 262144) &&& _ ||| _) = _
    exact announcedWidth_four _ (by omega)

/-! ## First characters -/

/-- What begins a character and breaks off before its end is not settled. -/
theorem settled_eq_false {c : Char} {piece rest bytes : ByteArray}
    (h : (String.utf8EncodeChar c).toByteArray ++ bytes = piece ++ rest)
    (hs : piece.size < c.utf8Size) : settled piece = false := by
  obtain ⟨lead, tail, hc, hlead, htail⟩ := exists_lead c
  have hsize : c.utf8Size = (lead :: tail).length := by
    rw [← hc, String.length_utf8EncodeChar]
  have hlist : lead :: tail ++ bytes.data.toList = piece.data.toList ++ rest.data.toList := by
    have := congrArg (fun b => b.data.toList) h
    simpa [hc] using this
  -- Being shorter than the character, the piece is a proper prefix of its encoding.
  have hprefix : piece.data.toList = (lead :: tail).take piece.data.toList.length := by
    have hle : piece.data.toList.length ≤ (lead :: tail).length := by
      rw [← hsize]
      exact Nat.le_of_lt (by simpa using hs)
    rw [← List.take_append_of_le_length hle, hlist, List.take_left]
  have hlen : piece.data.toList.length < (lead :: tail).length := by
    rw [← hsize]
    simpa using hs
  unfold settled
  generalize piece.data.toList = l at hprefix hlen
  cases l with
  | nil => rfl
  | cons x l =>
    rw [List.length_cons, List.take_succ_cons, List.cons.injEq] at hprefix
    obtain ⟨rfl, htake⟩ := hprefix
    -- What it has behind the lead byte are continuation bytes, and there are fewer than the lead byte
    -- announces.
    have hany : l.any (!isContinuation ·) = false := by
      rw [htake, List.any_eq_false]
      intro y hy
      have := List.all_eq_true.mp htail y (List.mem_of_mem_take hy)
      simp [this]
    have hw : announcedWidth x = tail.length + 1 := by
      rw [hlead, hsize, List.length_cons]
    rw [List.length_cons, List.length_cons] at hlen
    simp only [hany, Bool.or_false, Bool.or_eq_false_iff, decide_eq_false_iff_not]
    omega

/-- No byte announces more than the largest width. -/
theorem announcedWidth_le (lead : UInt8) : announcedWidth lead ≤ maxWidth := by
  unfold announcedWidth maxWidth
  split
  · omega
  · split
    · omega
    · split
      · omega
      · split
        · omega
        · split <;> omega

/-- What is settled stays so, whatever follows. -/
theorem settled_append {piece rest : ByteArray} (h : settled piece) : settled (piece ++ rest) := by
  unfold settled at *
  rw [ByteArray.toList_data_append]
  generalize piece.data.toList = l at *
  cases l with
  | nil => cases h
  | cons lead tail =>
    simp only [Bool.or_eq_true, decide_eq_true_eq, List.cons_append, List.length_append,
      List.any_append] at *
    rcases h with (h | h) | h
    · exact .inl (.inl h)
    · exact .inl (.inr (by omega))
    · exact .inr (.inl h)

/-- As many bytes as the longest character has are settled. -/
theorem settled_of_le {piece : ByteArray} (h : maxWidth ≤ piece.size) : settled piece := by
  have hl : piece.data.toList.length = piece.size := by simp
  unfold settled
  generalize piece.data.toList = l at hl
  cases l with
  | nil =>
    rw [← hl] at h
    exact absurd h (by decide)
  | cons lead tail =>
    have hle := announcedWidth_le lead
    rw [List.length_cons] at hl
    simp only [Bool.or_eq_true, decide_eq_true_eq]
    exact .inl (.inr (by omega))

/-- A byte that announces nothing after it is settled. -/
theorem settled_of_announcedWidth_le {piece : ByteArray} (hs : 0 < piece.size)
    (h : announcedWidth piece[0] ≤ 1) : settled piece := by
  have hl : piece.data.toList = piece[0] :: piece.data.toList.tail := by
    have hne : piece.data.toList ≠ [] := by
      rw [← List.length_pos_iff]
      simpa using hs
    rw [← List.cons_head_tail hne, List.tail_cons, List.head_eq_getElem]
    rfl
  unfold settled
  rw [hl]
  simp only [Bool.or_eq_true, decide_eq_true_eq]
  omega

/-- The character at the start of some bytes can be told from at most four of them, if these settle it
or are all there is. -/
theorem utf8DecodeChar?_extract_of_settled {piece rest : ByteArray}
    (h : settled piece ∨ rest = .empty) :
    (piece.extract 0 (min maxWidth piece.size)).utf8DecodeChar? 0 =
      (piece ++ rest).utf8DecodeChar? 0 := by
  have hle : min maxWidth piece.size ≤ piece.size := Nat.min_le_right ..
  have hstart : piece ++ rest = piece.extract 0 (min maxWidth piece.size) ++
      (piece.extract (min maxWidth piece.size) piece.size ++ rest) := by
    rw [← ByteArray.append_assoc, ByteArray.extract_append_extract, Nat.zero_min,
      Nat.max_eq_right hle, ByteArray.extract_zero_size]
  have hsize : (piece.extract 0 (min maxWidth piece.size)).size = min maxWidth piece.size := by
    rw [ByteArray.size_extract, Nat.min_eq_left hle, Nat.sub_zero]
  generalize piece.extract 0 (min maxWidth piece.size) = start at hstart hsize
  cases hd : (piece ++ rest).utf8DecodeChar? 0 with
  | none =>
    -- A character told from the first few would also be told from all.
    cases hp : start.utf8DecodeChar? 0 with
    | none => rfl
    | some c =>
      rw [hstart, ByteArray.utf8DecodeChar?_append_eq_some hp] at hd
      cases hd
  | some c =>
    obtain ⟨l, hl⟩ := ByteArray.exists_of_utf8DecodeChar?_eq_some hd
    have hlen : (String.utf8EncodeChar c).toByteArray.size = c.utf8Size := by simp
    have hc : c.utf8Size ≤ start.size := by
      apply Nat.le_of_not_lt
      intro hlt
      have h4 : c.utf8Size ≤ maxWidth := c.utf8Size_le_four
      have hshort : piece.size < c.utf8Size := by omega
      rcases h with hs | rfl
      · rw [settled_eq_false hl.symm hshort] at hs
        cases hs
      · have := congrArg ByteArray.size hl
        rw [ByteArray.append_empty, ByteArray.size_append, hlen] at this
        omega
    -- What is told from all starts with the character, and so do the first few.
    have hsplit : start = start.extract 0 c.utf8Size ++ start.extract c.utf8Size start.size := by
      rw [ByteArray.extract_append_extract, Nat.zero_min, Nat.max_eq_right hc,
        ByteArray.extract_zero_size]
    have hfront : start.extract 0 c.utf8Size = (String.utf8EncodeChar c).toByteArray := by
      rw [hstart, hsplit, ByteArray.append_assoc] at hl
      refine ByteArray.append_inj_left hl ?_
      rw [hlen, ByteArray.size_extract, Nat.min_eq_left hc, Nat.sub_zero]
    rw [hsplit, hfront, ByteArray.utf8DecodeChar?_utf8EncodeChar_append]

/-- A byte below 128 is a character of one byte. -/
theorem utf8Size_ofUInt8 {x : UInt8} (h : x < 0x80) : (Char.ofUInt8 x).utf8Size = 1 := by
  have hlt : x.toNat < 128 := UInt8.lt_iff_toNat_lt.mp h
  rw [Char.utf8Size_eq_one_iff, UInt32.le_iff_toNat_le]
  change x.toNat ≤ 127
  omega

/-- A byte below all leads is a character by itself. -/
theorem utf8DecodeChar?_of_lt {bytes : ByteArray} {i : Nat} (hi : i < bytes.size)
    (h : bytes[i] < 0x80) : bytes.utf8DecodeChar? i = some (Char.ofUInt8 bytes[i]) := by
  have hlt : bytes[i].toNat < 128 := UInt8.lt_iff_toNat_lt.mp h
  have hbyte : (Char.ofUInt8 bytes[i]).val.toUInt8 = bytes[i] := by
    rw [← UInt8.toNat_inj, UInt32.toNat_toUInt8]
    change bytes[i].toNat % 256 = _
    omega
  have hsplit : bytes.extract i bytes.size =
      (String.utf8EncodeChar (Char.ofUInt8 bytes[i])).toByteArray ++
        bytes.extract (i + 1) bytes.size := by
    rw [String.utf8EncodeChar_eq_singleton (utf8Size_ofUInt8 h), hbyte,
      ← ByteArray.extract_add_one hi, ByteArray.extract_append_extract,
      Nat.min_eq_left (Nat.le_succ i), Nat.max_eq_right hi]
  rw [ByteArray.utf8DecodeChar?_eq_utf8DecodeChar?_extract, hsplit,
    ByteArray.utf8DecodeChar?_utf8EncodeChar_append]

/-- After its first byte a character only has bytes that may stand inside one. -/
theorem isContinuation_getElem {bytes : ByteArray} {i j : Nat} {c : Char}
    (hc : bytes.utf8DecodeChar? i = some c) (hij : i < j) (hj : j < i + c.utf8Size)
    (h : j < bytes.size) : isContinuation bytes[j] := by
  obtain ⟨lead, tail, henc, -, htail⟩ := exists_lead c
  have hlen : c.utf8Size = tail.length + 1 := by
    rw [← String.length_utf8EncodeChar, henc, List.length_cons]
  rw [ByteArray.utf8DecodeChar?_eq_utf8DecodeChar?_extract] at hc
  have hsplit := ByteArray.eq_of_utf8DecodeChar?_eq_some hc
  rw [henc] at hsplit
  -- Byte `k + 1` of what starts with the encoding is entry `k` of its tail.
  have hat {whole rest : ByteArray} (hw : whole = (lead :: tail).toByteArray ++ rest) {k : Nat}
      (hk : k < tail.length) (hl : k + 1 < whole.size) : whole[k + 1] = tail[k] := by
    subst hw
    rw [ByteArray.getElem_append_left (by rw [List.size_toByteArray, List.length_cons]; omega),
      List.getElem_toByteArray]
    rfl
  have hk : j - i - 1 < tail.length := by omega
  have hl : j - i - 1 + 1 < (bytes.extract i bytes.size).size := by
    rw [ByteArray.size_extract]
    omega
  have hget := hat hsplit hk hl
  rw [ByteArray.getElem_extract] at hget
  have hidx : i + (j - i - 1 + 1) = j := by omega
  simp only [hidx] at hget
  rw [hget]
  exact List.all_eq_true.mp htail _ (List.getElem_mem hk)

/-- The bytes of a character that is decoded. -/
theorem extract_of_utf8DecodeChar? {bytes : ByteArray} {i : Nat} {c : Char}
    (hc : bytes.utf8DecodeChar? i = some c) :
    bytes.extract i (i + c.utf8Size) = (String.utf8EncodeChar c).toByteArray := by
  have hle := ByteArray.le_size_of_utf8DecodeChar?_eq_some hc
  have hfront {whole rest : ByteArray} (h : whole = (String.utf8EncodeChar c).toByteArray ++ rest) :
      whole.extract 0 c.utf8Size = (String.utf8EncodeChar c).toByteArray := by
    rw [h]
    exact ByteArray.extract_append_eq_left (by simp)
  rw [ByteArray.utf8DecodeChar?_eq_utf8DecodeChar?_extract] at hc
  have hextract := hfront (ByteArray.eq_of_utf8DecodeChar?_eq_some hc)
  rwa [ByteArray.extract_extract, Nat.add_zero, Nat.min_eq_left hle] at hextract

/-- A character of one byte is that byte. -/
theorem getElem_of_utf8DecodeChar? {bytes : ByteArray} {i : Nat} {c : Char}
    (hc : bytes.utf8DecodeChar? i = some c) (h1 : c.utf8Size = 1) (hi : i < bytes.size) :
    bytes[i] = c.val.toUInt8 := by
  have hextract := extract_of_utf8DecodeChar? hc
  rw [h1, String.utf8EncodeChar_eq_singleton h1, ByteArray.extract_add_one hi] at hextract
  have hlist := congrArg (·.data.toList) hextract
  simpa using hlist

/-- A character is decoded where it is encoded, whatever stands around it. -/
theorem utf8DecodeChar?_append (before rest : ByteArray) (c : Char) (cs : List Char) :
    (before ++ (c :: cs).utf8Encode ++ rest).utf8DecodeChar? before.size = some c := by
  have hsplit : before ++ (c :: cs).utf8Encode ++ rest =
      before ++ ((String.utf8EncodeChar c).toByteArray ++ (cs.utf8Encode ++ rest)) := by
    rw [List.utf8Encode_cons, List.utf8Encode_singleton, ByteArray.append_assoc, ByteArray.append_assoc]
  rw [hsplit, ByteArray.utf8DecodeChar?_eq_utf8DecodeChar?_extract,
    ByteArray.extract_append_eq_right rfl (by rw [ByteArray.size_append]),
    ByteArray.utf8DecodeChar?_utf8EncodeChar_append]

/-- From the end of what comes before, the characters of a text are decoded one by one. -/
theorem lossyChars_append (before : ByteArray) (cs : List Char) :
    lossyChars (before ++ cs.utf8Encode) before.size = cs := by
  induction cs generalizing before with
  | nil =>
    rw [lossyChars, if_neg (by simp)]
  | cons c cs ih =>
    have hdecode : (before ++ (c :: cs).utf8Encode).utf8DecodeChar? before.size = some c := by
      have h := utf8DecodeChar?_append before .empty c cs
      rwa [ByteArray.append_empty] at h
    have hlt := ByteArray.lt_size_of_isSome_utf8DecodeChar? (by rw [hdecode]; rfl)
    have hsize : (before ++ [c].utf8Encode).size = before.size + c.utf8Size := by
      rw [ByteArray.size_append, List.utf8Encode_singleton]
      simp
    rw [lossyChars, if_pos hlt, hdecode]
    dsimp only
    rw [List.utf8Encode_cons, ← ByteArray.append_assoc, ← hsize, ih]

/-- Text is decoded without loss. -/
theorem lossyChars_utf8Encode (cs : List Char) : lossyChars cs.utf8Encode 0 = cs := by
  have h := lossyChars_append .empty cs
  rwa [ByteArray.empty_append] at h

end FrontEnd.Utf8
