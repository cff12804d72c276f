import FrontEnd.Proofs.Bases.Spanning

/-!
# Items that are read once more

The text of a token is cut out of the bytes and read with replacements for broken runs. What that makes of the
items in the bytes is told by `ReadAs` (`Decodes.readAs`): a character stays what it is, a NUL byte becomes a
character, and one or more bytes that are not text become one replacement.

Without the replacements and the byte order marks, that is what is heard (`ReadAs.filter_eq`). Without NUL
characters only, it is what is heard exactly if there is nothing among the items but characters that are heard
and NUL bytes that have been noticed (`ReadAs.filter_eq_heard_iff`).
-/

namespace FrontEnd

namespace Utf8

variable {bytes : ByteArray} {i n : Nat}

/-- The bytes from 128 to 191 are continuations. -/
theorem isContinuation_of_bounds : ∀ n < 256, 128 ≤ n → n ≤ 191 → isContinuation (UInt8.ofNat n) = true := by
  decide +kernel

/-- A byte that may come second is a continuation. -/
theorem isContinuation_of_admitsSecond {lead second : UInt8} (h : admitsSecond lead second) :
    isContinuation second := by
  have hbounds : 128 ≤ second.toNat ∧ second.toNat ≤ 191 := by
    unfold admitsSecond at h
    simp only [Bool.and_eq_true, decide_eq_true_eq, UInt8.le_iff_toNat_le] at h
    obtain ⟨hlow, hhigh⟩ := h
    constructor
    · refine Nat.le_trans ?_ hlow
      split
      · decide
      · split <;> decide
    · refine Nat.le_trans hhigh ?_
      split
      · decide
      · split <;> decide
  have hx := isContinuation_of_bounds second.toNat second.toNat_lt hbounds.1 hbounds.2
  rwa [UInt8.ofNat_toNat] at hx

/-- A byte that may stand inside a character starts none. -/
theorem utf8DecodeChar?_of_isContinuation {hi : i < bytes.size} (h : isContinuation bytes[i]) :
    bytes.utf8DecodeChar? i = none := by
  cases hd : bytes.utf8DecodeChar? i with
  | none => rfl
  | some c =>
    obtain ⟨lead, tail, henc, hlead, -⟩ := exists_lead c
    have hextract := congrArg (fun b => b.data.toList.head?) (extract_of_utf8DecodeChar? hd)
    have hpos := c.utf8Size_pos
    have hhead : (bytes.extract i (i + c.utf8Size)).data.toList.head? = some bytes[i] := by
      rw [ByteArray.data_extract, Array.toList_extract, List.head?_take, if_neg (by omega), List.head?_drop,
        List.getElem?_eq_getElem (by simpa using hi)]
      rfl
    rw [hhead, henc, List.data_toByteArray, List.head?_cons] at hextract
    rw [← Option.some.inj hextract, announcedWidth_of_isContinuation h] at hlead
    omega

/-- Behind its first byte a broken run has bytes that may stand inside a character. -/
theorem isContinuation_of_lt_brokenWidth (hi : i < n) (hn : n < i + brokenWidth bytes i) :
    ∃ hlt : n < bytes.size, isContinuation bytes[n] := by
  -- A byte read beyond the end counts as zero, which is no continuation.
  have hget (k : Nat) (h : isContinuation (bytes[k]?.getD 0)) :
      ∃ hlt : k < bytes.size, isContinuation bytes[k] := by
    by_cases hlt : k < bytes.size
    · rw [getElem?_pos bytes k hlt, Option.getD_some] at h
      exact ⟨hlt, h⟩
    · rw [getElem?_neg bytes k hlt, Option.getD_none] at h
      exact absurd h (by decide)
  unfold brokenWidth at hn
  dsimp only at hn
  split at hn
  · omega
  · next hsecond =>
    simp only [Bool.or_eq_true, not_or, Bool.not_eq_true', Bool.not_eq_false] at hsecond
    split at hn
    · next hthird =>
      rw [Bool.and_eq_true] at hthird
      obtain rfl | rfl : n = i + 1 ∨ n = i + 2 := by omega
      · exact hget _ (isContinuation_of_admitsSecond hsecond.2)
      · exact hget _ hthird.2
    · obtain rfl : n = i + 1 := by omega
      exact hget _ (isContinuation_of_admitsSecond hsecond.2)

end Utf8

/-! ## What items are read as -/

/-- The characters are what the items are read as. -/
inductive ReadAs : List Fetched → List Char → Prop
  | nil : ReadAs [] []
  | char {c : Char} {fs : List Fetched} {cs : List Char} : ReadAs fs cs → ReadAs (.char c :: fs) (c :: cs)
  | nul {fs : List Fetched} {cs : List Char} : ReadAs fs cs → ReadAs (.nul :: fs) ('\x00' :: cs)
  | broken {n : Nat} {fs : List Fetched} {cs : List Char} : ReadAs fs cs →
      ReadAs (.malformed :: (List.replicate n .malformed ++ fs)) (Utf8.replacement :: cs)

namespace Decodes

variable {r : Reader} {bytes : ByteArray} {i j k n : Nat} {fs : List Fetched}

/-- Bytes that may only stand inside a character are items by themselves. -/
theorem exists_replicate (h : Decodes r bytes i fs j) (hn : i + n ≤ j)
    (hcont : ∀ m, i ≤ m → m < i + n → ∃ hlt : m < bytes.size, Utf8.isContinuation bytes[m]) :
    ∃ gs, fs = List.replicate n .malformed ++ gs ∧ Decodes r bytes (i + n) gs j := by
  -- A continuation byte decodes to nothing by itself, so each is fetched alone.
  induction n generalizing i fs with
  | zero => exact ⟨fs, rfl, h⟩
  | succ n ih =>
    obtain ⟨hlt, hbyte⟩ := hcont i (Nat.le_refl _) (by omega)
    have hnone : bytes.utf8DecodeChar? i = none := Utf8.utf8DecodeChar?_of_isContinuation hbyte
    cases h with
    | nil => omega
    | @cons _ f gs _ hseen hfound hrest =>
      obtain rfl : f = .malformed := by
        have hstands := hseen.stands
        cases hstands with
        | malformed => rfl
        | char hd | nul hd => rw [hnone] at hd; cases hd
        | finished => cases hfound
      obtain ⟨hs, rfl, hrest⟩ := ih hrest (by change i + 1 + n ≤ j; omega) fun m hm hlt =>
        hcont m (Nat.le_of_lt hm) (by change m < i + 1 + n at hlt; omega)
      refine ⟨hs, rfl, ?_⟩
      rwa [← Nat.add_assoc, Nat.add_right_comm]

/-- Items are read one after the other. -/
theorem readAs (h : Decodes r bytes (i + k) fs j) : ReadAs fs (Utf8.lossyChars (bytes.extract i j) k) := by
  -- By the bytes that are left; a broken sequence is one replacement character and several fetches.
  induction hm : j - (i + k) using Nat.strongRecOn generalizing k fs with
  | ind m ih =>
    subst hm
    cases h with
    | nil hi =>
      rw [Utf8.lossyChars, if_neg]
      · exact .nil
      · rw [ByteArray.size_extract]
        omega
    | @cons _ f fs _ hseen hfound hrest =>
      have hle := hrest.le
      have hpos := Fetched.width_pos hfound
      have hlater : Decodes r bytes (i + (k + f.width)) fs j := Nat.add_assoc i k _ ▸ hrest
      have hless : j - (i + (k + f.width)) < j - (i + k) := by omega
      cases stands_extract hseen.stands hfound hle with
      | char hd =>
        rw [Utf8.lossyChars_of_decode hd]
        exact .char (ih _ hless hlater rfl)
      | nul hd =>
        rw [Utf8.lossyChars_of_decode hd]
        exact .nul (ih _ hless hlater rfl)
      | malformed hk hd =>
        have hbroken := Utf8.brokenWidth_pos (bytes.extract i j) k
        obtain ⟨n, hn⟩ : ∃ n, Utf8.brokenWidth (bytes.extract i j) k = n + 1 :=
          Nat.exists_eq_add_one.mpr hbroken
        -- Behind its first byte a broken sequence has continuation bytes, each malformed by itself.
        have hcont (m : Nat) (hlo : i + k + 1 ≤ m) (hhi : m < i + k + 1 + n) :
            m < j ∧ ∃ hlt : m < bytes.size, Utf8.isContinuation bytes[m] := by
          have hbehind : k < m - i := by omega
          have hinside : m - i < k + Utf8.brokenWidth (bytes.extract i j) k := by omega
          obtain ⟨hlt, hbyte⟩ := Utf8.isContinuation_of_lt_brokenWidth hbehind hinside
          rw [ByteArray.getElem_extract] at hbyte
          rw [ByteArray.size_extract] at hlt
          have him : i + (m - i) = m := by omega
          simp only [him] at hbyte
          exact ⟨by omega, by omega, hbyte⟩
        have hend : i + k + 1 + n ≤ j := by
          cases n with
          | zero => exact hle
          | succ n => exact Nat.succ_le_of_lt (hcont (i + k + 1 + n) (by omega) (by omega)).1
        obtain ⟨gs, rfl, hgs⟩ := hrest.exists_replicate hend fun m hlo hhi => (hcont m hlo hhi).2
        rw [Utf8.lossyChars, if_pos hk, hd]
        dsimp only
        rw [hn]
        refine .broken (ih _ ?_ ?_ rfl)
        · omega
        · rwa [show i + (k + (n + 1)) = i + k + 1 + n by omega]
      | finished => cases hfound

end Decodes

/-- The item is a character that is heard, or a NUL byte that has been noticed. -/
def Fetched.isPlain : Fetched → Bool
  | .char c => c ≠ CharStream.byteOrderMark && c ≠ '\x00'
  | .nul => true
  | .malformed | .finished _ => false

namespace ReadAs

variable {fs : List Fetched} {cs : List Char}

/-- Of a character and others all are heard but byte order marks. -/
theorem heard_cons_char {c : Char} (fs : List Fetched) :
    heard (.char c :: fs) = if c = CharStream.byteOrderMark then heard fs else c :: heard fs := by
  split
  · next hc => exact List.filterMap_cons_none (if_pos hc)
  · next hc => exact List.filterMap_cons_some (if_neg hc)

/-- Nothing is heard of bytes that are no characters. -/
theorem heard_replicate (n : Nat) : heard (List.replicate n .malformed) = [] :=
  List.filterMap_eq_nil_iff.mpr fun f hf => by rw [List.eq_of_mem_replicate hf]; rfl

/-- Without what cannot be decoded, what is read is what is heard. -/
theorem filter_eq (h : ReadAs fs cs) {p : Char → Bool} (hnul : p '\x00' = false)
    (hmark : p CharStream.byteOrderMark = false) (hreplacement : p Utf8.replacement = false) :
    cs.filter p = (heard fs).filter p := by
  induction h with
  | nil => rfl
  | @char c fs cs _ ih =>
    rw [heard_cons_char]
    split
    · next hc => rw [hc, List.filter_cons_of_neg (by simp [hmark]), ih]
    · rw [List.filter_cons, List.filter_cons, ih]
  | nul _ ih => rw [List.filter_cons_of_neg (by simp [hnul]), ih]; rfl
  | @broken n fs cs _ ih =>
    rw [List.filter_cons_of_neg (by simp [hreplacement]), ih, ← List.cons_append, ← List.replicate_succ,
      heard_append, heard_replicate, List.nil_append]

/-- All that is heard is read, but for NUL characters. -/
theorem sublist (h : ReadAs fs cs) {p : Char → Bool} (hnul : p '\x00' = false) :
    ((heard fs).filter p).Sublist (cs.filter p) := by
  -- The text only adds marks and replacement characters to what is heard.
  induction h with
  | nil => exact .slnil
  | @char c fs cs _ ih =>
    rw [heard_cons_char]
    split
    · rw [List.filter_cons]
      split
      · exact ih.cons _
      · exact ih
    · rw [List.filter_cons, List.filter_cons]
      split
      · exact ih.cons_cons _
      · exact ih
  | nul _ ih =>
    rw [List.filter_cons_of_neg (by simp [hnul])]
    exact ih
  | @broken n fs cs _ ih =>
    rw [← List.cons_append, ← List.replicate_succ, heard_append, heard_replicate, List.nil_append,
      List.filter_cons]
    split
    · exact ih.cons _
    · exact ih

/-- What is read is no more than what is heard. -/
theorem cons_ne_heard (h : ReadAs fs cs) {c : Char} (hc : c ≠ '\x00') :
    c :: cs.filter (· ≠ '\x00') ≠ heard fs := by
  intro he
  have hall : (heard fs).filter (· ≠ '\x00') = heard fs := by
    rw [← he, List.filter_cons_of_pos (by simpa using hc), List.filter_filter]
    simp
  have hle := (h.sublist (p := (· ≠ '\x00')) (by decide)).length_le
  rw [hall, ← he, List.length_cons] at hle
  exact Nat.not_succ_le_self _ hle

/-- Without NUL characters, what is read is what is heard exactly if the items are plain. -/
theorem filter_eq_heard_iff (h : ReadAs fs cs) :
    cs.filter (· ≠ '\x00') = heard fs ↔ ∀ f ∈ fs, f.isPlain := by
  induction h with
  | nil => exact iff_of_true rfl nofun
  | @char c fs cs h ih =>
    rw [List.forall_mem_cons, heard_cons_char]
    by_cases hnul : c = '\x00'
    · refine iff_of_false (fun he => ?_) fun hall => ?_
      · rw [if_neg (by rw [hnul]; decide)] at he
        have hmem : c ∈ (c :: cs).filter (· ≠ '\x00') := he ▸ List.mem_cons_self
        exact of_decide_eq_true (List.mem_filter.mp hmem).2 hnul
      · rw [hnul] at hall
        exact absurd hall.1 (by decide)
    · rw [List.filter_cons_of_pos (by simpa using hnul)]
      -- A mark is not heard although the text has it, a NUL is heard nowhere, and a replacement character
      -- stands for nothing heard.
      by_cases hmark : c = CharStream.byteOrderMark
      · rw [if_pos hmark]
        refine iff_of_false (h.cons_ne_heard hnul) fun hall => ?_
        rw [hmark] at hall
        exact absurd hall.1 (by decide)
      · rw [if_neg hmark, List.cons.injEq, and_iff_right rfl, ih, and_iff_right]
        exact (Bool.and_eq_true ..).mpr ⟨decide_eq_true hmark, decide_eq_true hnul⟩
  | nul _ ih =>
    rw [List.forall_mem_cons, List.filter_cons_of_neg (by decide)]
    exact ih.trans (and_iff_right rfl).symm
  | @broken n fs cs h ih =>
    rw [List.filter_cons_of_pos (by decide), ← List.cons_append, ← List.replicate_succ, heard_append,
      heard_replicate, List.nil_append]
    refine iff_of_false (h.cons_ne_heard (by decide)) fun hall => ?_
    cases hall .malformed (List.mem_append_left _ List.mem_cons_self)

end ReadAs

end FrontEnd
