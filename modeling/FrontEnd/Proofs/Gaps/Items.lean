import Mathlib.Algebra.GroupWithZero.Nat
import FrontEnd.Proofs.Gaps.Breaks

/-!
# What the bytes hold

Decoding from left to right divides any bytes into items (`itemsFrom`): characters, NUL bytes, and bytes
that are no part of a character. Of these a scanner gets to see the characters other than byte order
marks (`heard`), and each of the others is something to tell (`faultsFrom`), unless it is a byte order
mark at the very start.

`Decodes` says that some items stand one behind the other in the bytes. For a reader that notices all
NUL bytes they are those of `itemsFrom` (`Decodes.eq_itemsFrom`), and so they are if the bytes are cut
out (`Decodes.itemsFrom_extract`).
-/

namespace FrontEnd

namespace Fetched

/-- The character that becomes the current one of a stream, if one does. -/
def heard? : Fetched → Option Char
  | .char c => if c = CharStream.byteOrderMark then none else some c
  | .nul | .malformed | .finished _ => none

/-- What is wrong with what stands at offset `i`. -/
def faultAt? (i : Nat) : Fetched → Option LexFault
  | .char c => if c = CharStream.byteOrderMark ∧ i ≠ 0 then some .strayByteOrderMark else none
  | .nul => some .nulCharacter
  | .malformed => some .malformedText
  | .finished _ => none

end Fetched

/-- The items that decoding from left to right finds from offset `i` on. -/
def itemsFrom (bytes : ByteArray) (i : Nat) : List Fetched :=
  if i < bytes.size then
    match bytes.utf8DecodeChar? i with
    | some c => Cursor.ofChar c :: itemsFrom bytes (i + c.utf8Size)
    | none => .malformed :: itemsFrom bytes (i + 1)
  else []
termination_by bytes.size - i
decreasing_by
  · have := c.utf8Size_pos
    omega
  · omega

/-- The characters among some items, without byte order marks. -/
def heard (fs : List Fetched) : List Char := fs.filterMap Fetched.heard?

/-- What is wrong with items that start at offset `i`, each with its offset. -/
def faultsFrom : Nat → List Fetched → List (Nat × LexFault)
  | _, [] => []
  | i, f :: fs => ((f.faultAt? i).map fun fault => (i, fault)).toList ++ faultsFrom (i + f.width) fs

/-- The characters of some bytes, without NUL bytes, byte order marks and bytes that are not text. -/
def readable (bytes : ByteArray) : List Char := heard (itemsFrom bytes 0)

/-- The NUL bytes, the bytes that are not text, and the byte order marks other than at the start, each
with its offset. -/
def undecodable (bytes : ByteArray) : List (Nat × LexFault) := faultsFrom 0 (itemsFrom bytes 0)

/-- The fault is that of a byte, whatever the bytes are meant to be. -/
def LexFault.isDecoding : LexFault → Bool
  | .nulCharacter | .malformedText | .strayByteOrderMark => true
  | _ => false

/-- What is wrong with an item is the fault of a byte. -/
theorem isDecoding_of_faultAt? {f : Fetched} {i : Nat} {fault : LexFault}
    (h : f.faultAt? i = some fault) : fault.isDecoding := by
  unfold Fetched.faultAt? at h
  split at h
  · split at h <;> cases h
    rfl
  · cases h
    rfl
  · cases h
    rfl
  · cases h

/-- What a fetch passes over is not heard. -/
theorem Fetched.heard?_eq_none {f : Fetched} (h : CharStream.passedOver f) : f.heard? = none := by
  cases f with
  | char c => exact if_pos (of_decide_eq_true h)
  | _ => rfl

/-- A character that is not passed over is heard. -/
theorem Fetched.heard?_char {c : Char} (h : ¬CharStream.passedOver (.char c)) :
    (Fetched.char c).heard? = some c :=
  if_neg fun hc => h (decide_eq_true hc)

/-- Nothing is wrong with a character that is not passed over. -/
theorem Fetched.faultAt?_char {c : Char} (h : ¬CharStream.passedOver (.char c)) (i : Nat) :
    (Fetched.char c).faultAt? i = none :=
  if_neg fun hc => h (decide_eq_true hc.1)

/-- What is not heard is passed over. -/
theorem Fetched.passedOver_of_heard? {f : Fetched} (hf : f.found) (h : f.heard? = none) :
    CharStream.passedOver f := by
  cases f with
  | char c =>
    change (if c = CharStream.byteOrderMark then none else some c) = none at h
    split at h
    · next hc => exact decide_eq_true hc
    · cases h
  | finished => cases hf
  | _ => rfl

/-- What is heard is a character. -/
theorem Fetched.eq_char_of_heard? {f : Fetched} {c : Char} (h : f.heard? = some c) : f = .char c := by
  unfold Fetched.heard? at h
  split at h
  · split at h <;> cases h
    rfl
  all_goals cases h

/-- A character is at least one byte wide, and so is what is found instead. -/
theorem Fetched.width_pos {f : Fetched} (h : f.found) : 0 < f.width := by
  cases f with
  | char c => exact c.utf8Size_pos
  | nul => exact Nat.one_pos
  | malformed => exact Nat.one_pos
  | finished => cases h

/-- Where a character stands, nothing else does, but that a NUL may be recognised as one. -/
theorem Fetched.Stands.eq_char {bytes : ByteArray} {i : Nat} {f : Fetched} {c : Char}
    (h : f.Stands bytes i) (hd : bytes.utf8DecodeChar? i = some c) (hnul : c ≠ '\x00') : f = .char c := by
  cases h with
  | char hd' =>
    rw [hd] at hd'
    rw [Option.some.inj hd']
  | nul hd' =>
    rw [hd] at hd'
    exact absurd (Option.some.inj hd') hnul
  | malformed _ hd' =>
    rw [hd] at hd'
    cases hd'
  | finished he =>
    have hlt := ByteArray.lt_size_of_isSome_utf8DecodeChar? (by rw [hd]; rfl : (bytes.utf8DecodeChar? i).isSome)
    exact absurd he (Nat.ne_of_lt hlt)

/-- What is heard of items one behind the other. -/
@[simp] theorem heard_append (fs gs : List Fetched) : heard (fs ++ gs) = heard fs ++ heard gs :=
  List.filterMap_append

/-! ## Items one behind the other -/

/-- What the reader's buffer may find at offset `i`. -/
structure Fetched.Seen (r : Reader) (bytes : ByteArray) (i : Nat) (f : Fetched) : Prop where
  stands : f.Stands bytes i
  misses : f = .char '\x00' → r.Misses bytes i

/-- From offset `i` to offset `j` stand the items one behind the other. -/
inductive Decodes (r : Reader) (bytes : ByteArray) : Nat → List Fetched → Nat → Prop
  | nil {i} : i ≤ bytes.size → Decodes r bytes i [] i
  | cons {i f fs j} : f.Seen r bytes i → f.found → Decodes r bytes (i + f.width) fs j →
      Decodes r bytes i (f :: fs) j

namespace Decodes

variable {r : Reader} {bytes : ByteArray} {i j k : Nat} {fs gs : List Fetched}

/-- Items go forward. -/
theorem le (h : Decodes r bytes i fs j) : i ≤ j := by
  induction h with
  | nil => exact Nat.le_refl _
  | cons _ _ _ ih => exact Nat.le_trans (Nat.le_add_right ..) ih

/-- Items are within the bytes. -/
theorem le_size (h : Decodes r bytes i fs j) : j ≤ bytes.size := by
  induction h with
  | nil hi => exact hi
  | cons _ _ _ ih => exact ih

/-- Items behind items. -/
theorem append (h : Decodes r bytes i fs j) (h' : Decodes r bytes j gs k) :
    Decodes r bytes i (fs ++ gs) k := by
  induction h with
  | nil => exact h'
  | cons hseen hfound _ ih => exact .cons hseen hfound (ih h')

/-- A single item. -/
theorem single {f : Fetched} (hseen : f.Seen r bytes i) (hfound : f.found) :
    Decodes r bytes i [f] (i + f.width) :=
  .cons hseen hfound (.nil hseen.stands.width_le)

/-- What is wrong with items is wrong with those before some offset, and with those behind it. -/
theorem faultsFrom_append (h : Decodes r bytes i fs j) (gs : List Fetched) :
    faultsFrom i (fs ++ gs) = faultsFrom i fs ++ faultsFrom j gs := by
  induction h with
  | nil => rfl
  | cons _ _ _ ih => rw [List.cons_append, faultsFrom, faultsFrom, ih, List.append_assoc]

/-- What is wrong is found between the offsets. -/
theorem bounds_of_mem_faultsFrom (h : Decodes r bytes i fs j) {x : Nat × LexFault}
    (hx : x ∈ faultsFrom i fs) : i ≤ x.1 ∧ x.1 < j := by
  induction h with
  | nil => cases hx
  | @cons i f fs j hseen hfound hrest ih =>
    have hle := hrest.le
    have hpos := Fetched.width_pos hfound
    rw [faultsFrom, List.mem_append] at hx
    rcases hx with hx | hx
    · rw [Option.mem_toList, Option.map_eq_some_iff] at hx
      obtain ⟨fault, -, rfl⟩ := hx
      exact ⟨Nat.le_refl _, by omega⟩
    · obtain ⟨h₁, h₂⟩ := ih hx
      exact ⟨by omega, h₂⟩

/-! ## The items of the bytes -/

/-- An item that is not a missed NUL byte is the one that decoding finds. -/
theorem itemsFrom_eq_cons {f : Fetched} (hs : f.Stands bytes i) (hf : f.found)
    (hnul : f ≠ .char '\x00') : itemsFrom bytes i = f :: itemsFrom bytes (i + f.width) := by
  have hlt {c : Char} (hd : bytes.utf8DecodeChar? i = some c) : i < bytes.size :=
    ByteArray.lt_size_of_isSome_utf8DecodeChar? (by rw [hd]; rfl)
  rw [itemsFrom]
  cases hs with
  | @char c hd =>
    have hc : Cursor.ofChar c = .char c := if_neg fun hz => hnul (by rw [hz])
    rw [if_pos (hlt hd), hd]
    dsimp only
    rw [hc]
    rfl
  | nul hd =>
    rw [if_pos (hlt hd), hd]
    rfl
  | malformed hi hd =>
    rw [if_pos hi, hd]
    rfl
  | finished => cases hf

/-- At the end there are no more items. -/
theorem itemsFrom_size : itemsFrom bytes bytes.size = [] := by
  rw [itemsFrom, if_neg (Nat.lt_irrefl _)]

/-- Where a NUL is decoded, there is the byte. -/
theorem ne_nul_of_noticesNuls (hn : r.NoticesNuls bytes) {f : Fetched} (h : f.Seen r bytes i) :
    f ≠ .char '\x00' := by
  intro hf
  have hs := h.stands
  rw [hf] at hs
  cases hs with
  | char hd =>
    have hi : i < bytes.size := ByteArray.lt_size_of_isSome_utf8DecodeChar? (by rw [hd]; rfl)
    exact hn i hi (Utf8.getElem_of_utf8DecodeChar? hd rfl hi) (h.misses hf)

/-- If no NUL byte is missed, items up to the end are those of the bytes. -/
theorem eq_itemsFrom (hn : r.NoticesNuls bytes) (h : Decodes r bytes i fs bytes.size) :
    fs = itemsFrom bytes i := by
  generalize hj : bytes.size = j at h
  induction h with
  | nil => rw [← hj, itemsFrom_size]
  | cons hseen hfound _ ih =>
    rw [itemsFrom_eq_cons hseen.stands hfound (ne_nul_of_noticesNuls hn hseen), ← ih hj]

/-- From every offset on, the bytes are some items. -/
theorem exists_to_end (r : Reader) (hi : i ≤ bytes.size) :
    ∃ fs, Decodes r bytes i fs bytes.size := by
  induction hn : bytes.size - i using Nat.strongRecOn generalizing i with
  | ind n ih =>
    subst hn
    rcases Nat.lt_or_eq_of_le hi with hlt | rfl
    · obtain ⟨f, hs, hf, hnul⟩ : ∃ f : Fetched, f.Stands bytes i ∧ f.found ∧ f ≠ .char '\x00' := by
        cases hd : bytes.utf8DecodeChar? i with
        | none => exact ⟨.malformed, .malformed hlt hd, rfl, nofun⟩
        | some c =>
          by_cases hc : c = '\x00'
          · exact ⟨.nul, .nul (hc ▸ hd), rfl, nofun⟩
          · exact ⟨.char c, .char hd, rfl, fun hz => hc (Fetched.char.inj hz)⟩
      have hpos := Fetched.width_pos hf
      have hle := hs.width_le
      obtain ⟨fs, hfs⟩ := ih (bytes.size - (i + f.width)) (by omega) hle rfl
      exact ⟨f :: fs, .cons ⟨hs, fun hz => absurd hz hnul⟩ hf hfs⟩
    · exact ⟨[], .nil (Nat.le_refl _)⟩

/-- Items among which no NUL byte has been missed are the first that decoding finds. -/
theorem itemsFrom_eq_append (h : Decodes r bytes i fs j) (hnul : ∀ f ∈ fs, f ≠ .char '\x00') :
    itemsFrom bytes i = fs ++ itemsFrom bytes j := by
  induction h with
  | nil => rfl
  | cons hseen hfound _ ih =>
    rw [itemsFrom_eq_cons hseen.stands hfound (hnul _ List.mem_cons_self),
      ih fun g hg => hnul g (List.mem_cons_of_mem _ hg), List.cons_append]

/-- Items of which nothing is heard are passed over. -/
theorem passedOver_of_mem (h : Decodes r bytes i fs j) (hheard : heard fs = []) {f : Fetched}
    (hf : f ∈ fs) : CharStream.passedOver f := by
  induction h with
  | nil => cases hf
  | cons _ hfound _ ih =>
    have hnone := List.filterMap_eq_nil_iff.mp hheard
    rcases List.mem_cons.mp hf with rfl | hf
    · exact Fetched.passedOver_of_heard? hfound (hnone _ List.mem_cons_self)
    · exact ih (List.filterMap_eq_nil_iff.mpr fun g hg => hnone g (List.mem_cons_of_mem _ hg)) hf

/-- The items that are not heard are among the next ones that are passed over. -/
theorem takeWhile_eq_append (h : Decodes r bytes i fs j) (hheard : heard fs = []) :
    (itemsFrom bytes i).takeWhile CharStream.passedOver =
      fs ++ (itemsFrom bytes j).takeWhile CharStream.passedOver := by
  have hover (f) (hf : f ∈ fs) := h.passedOver_of_mem hheard hf
  have hnul (f) (hf : f ∈ fs) : f ≠ .char '\x00' := by
    rintro rfl
    exact absurd (hover _ hf) (by decide)
  rw [h.itemsFrom_eq_append hnul, List.takeWhile_append_of_pos hover]

/-- Before something that is heard, or at the end, nothing is passed over. -/
theorem takeWhile_eq_nil {f : Fetched} (hs : f.Stands bytes i) (hp : ¬CharStream.passedOver f)
    (hnul : f ≠ .char '\x00') : (itemsFrom bytes i).takeWhile CharStream.passedOver = [] := by
  cases hf : f.found with
  | true => rw [itemsFrom_eq_cons hs hf hnul, List.takeWhile_cons_of_neg hp]
  | false =>
    cases hs with
    | finished he => rw [he, itemsFrom_size, List.takeWhile_nil]
    | _ => cases hf

/-- Between items is an offset. -/
theorem exists_mid (h : Decodes r bytes i (fs ++ gs) k) :
    ∃ j, Decodes r bytes i fs j ∧ Decodes r bytes j gs k := by
  induction fs generalizing i with
  | nil => exact ⟨i, .nil (Nat.le_trans h.le h.le_size), h⟩
  | cons f fs ih =>
    cases h with
    | cons hseen hfound hrest =>
      obtain ⟨j, h₁, h₂⟩ := ih hrest
      exact ⟨j, .cons hseen hfound h₁, h₂⟩

/-- Where a character stands that is heard, it is the first of the items. -/
theorem exists_cons_of_decode {ch : Char} (h : Decodes r bytes i fs j) (hne : heard fs ≠ [])
    (hd : bytes.utf8DecodeChar? i = some ch) (hnul : ch ≠ '\x00') :
    ∃ gs, fs = .char ch :: gs ∧ Decodes r bytes (i + ch.utf8Size) gs j := by
  cases h with
  | nil => exact absurd rfl hne
  | cons hseen _ hrest =>
    obtain rfl := hseen.stands.eq_char hd hnul
    exact ⟨_, rfl, hrest⟩

/-- Where a character stands, it is the first of the items among which it is the only one heard. -/
theorem exists_cons_of_stands {ch : Char} (h : Decodes r bytes i fs j) (hheard : heard fs = [ch])
    (hs : Fetched.Stands bytes i (.char ch)) (hp : ¬CharStream.passedOver (.char ch))
    (hnul : ch ≠ '\x00') :
    ∃ gs, fs = .char ch :: gs ∧ Decodes r bytes (i + ch.utf8Size) gs j ∧ heard gs = [] := by
  cases hs with
  | char hd =>
    obtain ⟨gs, rfl, hrest⟩ := h.exists_cons_of_decode (by rw [hheard]; exact nofun) hd hnul
    rw [show heard (.char ch :: gs) = ch :: heard gs from
      List.filterMap_cons_some (Fetched.heard?_char hp)] at hheard
    exact ⟨gs, rfl, hrest, (List.cons.inj hheard).2⟩

/-- Items end where they end. -/
theorem end_eq (h : Decodes r bytes i fs j) (h' : Decodes r bytes i fs k) : j = k := by
  induction h with
  | nil =>
    cases h' with
    | nil => rfl
  | cons _ _ _ ih =>
    cases h' with
    | cons _ _ hrest => exact ih hrest

/-- Items take up the bytes of what is heard. If these are all, nothing is wrong. -/
theorem add_sum_le (h : Decodes r bytes i fs j) :
    i + ((heard fs).map Char.utf8Size).sum ≤ j ∧
      (j = i + ((heard fs).map Char.utf8Size).sum → faultsFrom i fs = []) := by
  -- Each fetch takes at least the bytes of the character it gives; the sum is reached only where every byte
  -- belongs to a character.
  induction h with
  | nil => exact ⟨Nat.le_refl _, fun _ => rfl⟩
  | @cons i f fs j hseen hfound hrest ih =>
    obtain ⟨hle, hnil⟩ := ih
    have hpos := Fetched.width_pos hfound
    cases hh : f.heard? with
    | none =>
      have hheard : heard (f :: fs) = heard fs := List.filterMap_cons_none hh
      rw [hheard]
      exact ⟨by omega, fun he => by omega⟩
    | some c =>
      have hf : f = .char c := Fetched.eq_char_of_heard? hh
      have hheard : heard (f :: fs) = c :: heard fs := List.filterMap_cons_some hh
      -- What is passed over is not heard.
      have hover : ¬CharStream.passedOver (.char c) := fun hover => by
        rw [hf, Fetched.heard?_eq_none hover] at hh
        cases hh
      rw [hheard, List.map_cons, List.sum_cons]
      rw [hf] at hle hnil ⊢
      change i + c.utf8Size + _ ≤ j at hle
      refine ⟨by omega, fun he => ?_⟩
      rw [faultsFrom, Fetched.faultAt?_char hover]
      exact hnil (by change j = i + c.utf8Size + _; omega)

/-- Where a slash stands behind the start of items that hold none, the items have come to their end. -/
theorem le_of_slash (h : Decodes r bytes i fs j) (hk : i ≤ k) (hd : bytes.utf8DecodeChar? k = some '/')
    (hslash : '/' ∉ heard fs) : j ≤ k := by
  have hlt : k < bytes.size := ByteArray.lt_size_of_isSome_utf8DecodeChar? (by rw [hd]; rfl)
  induction h with
  | nil => exact hk
  | @cons i f fs j hseen hfound hrest ih =>
    have hcons : heard [f] ++ heard fs = heard (f :: fs) := (heard_append [f] fs).symm
    rw [← hcons, List.mem_append, not_or] at hslash
    refine ih ?_ hslash.2
    apply Decidable.byContradiction
    intro hinside
    have hstands := hseen.stands
    rcases Nat.lt_or_eq_of_le hk with hik | rfl
    · cases hstands with
      | char hc =>
        -- A slash is no byte that may stand inside a character.
        have hcont := Utf8.isContinuation_getElem hc hik (Nat.lt_of_not_le hinside) hlt
        rw [Utf8.getElem_of_utf8DecodeChar? hd rfl hlt] at hcont
        exact absurd hcont (by decide)
      | finished => cases hfound
      | nul => exact hinside hik
      | malformed => exact hinside hik
    · rw [hstands.eq_char hd (by decide)] at hslash
      exact hslash.1 List.mem_cons_self

/-! ## Cutting out -/

/-- A character stands in the bytes that are cut out if it does in all of them and is not cut. -/
theorem utf8DecodeChar?_extract {c : Char} (hd : bytes.utf8DecodeChar? (i + k) = some c)
    (hj : i + k + c.utf8Size ≤ j) : (bytes.extract i j).utf8DecodeChar? k = some c := by
  have hsize := ByteArray.le_size_of_utf8DecodeChar?_eq_some hd
  have hcut : (bytes.extract i j).extract k (bytes.extract i j).size =
      (String.utf8EncodeChar c).toByteArray ++ bytes.extract (i + k + c.utf8Size) (min j bytes.size) := by
    rw [← Utf8.extract_of_utf8DecodeChar? hd, ByteArray.extract_append_extract,
      ByteArray.extract_extract, ByteArray.size_extract]
    congr 1 <;> omega
  rw [ByteArray.utf8DecodeChar?_eq_utf8DecodeChar?_extract, hcut,
    ByteArray.utf8DecodeChar?_utf8EncodeChar_append]

/-- What is no character in all bytes is none in those that are cut out. -/
theorem utf8DecodeChar?_extract_eq_none (hd : bytes.utf8DecodeChar? (i + k) = none) :
    (bytes.extract i j).utf8DecodeChar? k = none := by
  cases hc : (bytes.extract i j).utf8DecodeChar? k with
  | none => rfl
  | some c =>
    have hle := ByteArray.le_size_of_utf8DecodeChar?_eq_some hc
    rw [ByteArray.size_extract] at hle
    have hpos := c.utf8Size_pos
    have henc := Utf8.extract_of_utf8DecodeChar? hc
    have hend : min (i + (k + c.utf8Size)) j = i + k + c.utf8Size := by omega
    rw [ByteArray.extract_extract, hend] at henc
    have hwhole : bytes.extract (i + k) bytes.size =
        (String.utf8EncodeChar c).toByteArray ++ bytes.extract (i + k + c.utf8Size) bytes.size := by
      rw [← henc, ByteArray.extract_append_extract]
      congr 1 <;> omega
    rw [ByteArray.utf8DecodeChar?_eq_utf8DecodeChar?_extract, hwhole,
      ByteArray.utf8DecodeChar?_utf8EncodeChar_append] at hd
    cases hd

/-- What stands in bytes stands in a part of them that takes it in. -/
theorem stands_extract {f : Fetched} (hs : f.Stands bytes (i + k)) (hf : f.found)
    (hj : i + k + f.width ≤ j) : f.Stands (bytes.extract i j) k := by
  cases hs with
  | char hd => exact .char (utf8DecodeChar?_extract hd hj)
  | nul hd => exact .nul (utf8DecodeChar?_extract hd hj)
  | malformed hi hd =>
    refine .malformed ?_ (utf8DecodeChar?_extract_eq_none hd)
    change i + k + 1 ≤ j at hj
    rw [ByteArray.size_extract]
    omega
  | finished => cases hf

/-- If no NUL byte is missed, items are those of the bytes where they stand. -/
theorem itemsFrom_extract (hn : r.NoticesNuls bytes) (h : Decodes r bytes (i + k) fs j) :
    itemsFrom (bytes.extract i j) k = fs := by
  generalize hl : i + k = l at h
  induction h generalizing k with
  | nil hi =>
    rw [itemsFrom, if_neg]
    rw [ByteArray.size_extract]
    omega
  | cons hseen hfound hrest ih =>
    subst hl
    have hnul := ne_nul_of_noticesNuls hn hseen
    rw [itemsFrom_eq_cons (stands_extract hseen.stands hfound hrest.le) hfound hnul,
      ih (Nat.add_assoc ..).symm]

/-- If no NUL byte is missed, the characters heard are those that can be read. -/
theorem readable_extract (hn : r.NoticesNuls bytes) (h : Decodes r bytes i fs j) :
    readable (bytes.extract i j) = heard fs := by
  unfold readable
  rw [itemsFrom_extract (k := 0) hn h]

end Decodes

end FrontEnd
