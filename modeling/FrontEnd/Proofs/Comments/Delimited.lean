import FrontEnd.Proofs.Bases.Governed
import FrontEnd.Proofs.Texts.Judged

/-!
# Where comments end

Where everything can be decoded, a comment in a gap is delimited by bytes (`Crossing.Delimited`): a line
comment ends before the next newline, and a block comment behind the first closing marker that starts behind
the opening one, or at the end if there is none. All that stands between is the text of the comment, byte by
byte.
-/

namespace FrontEnd

/-- The byte that starts a comment, and ends one in a block. -/
def slashByte : UInt8 := 0x2f

/-- The byte between the slashes of a block comment and its text. -/
def starByte : UInt8 := 0x2a

/-- At offset `k` stand two bytes one behind the other. -/
def PairAt (bytes : ByteArray) (x y : UInt8) (k : Nat) : Prop := bytes[k]? = some x ∧ bytes[k + 1]? = some y

/-- If the crossing is a comment, it starts with its marker and extends as far as it should. -/
def Crossing.Delimited (bytes : ByteArray) (p : Crossing) : Prop :=
  match p.passage with
  | .blank _ | .stray _ => True
  | .lineComment _ => PairAt bytes slashByte slashByte p.start ∧ p.start + 2 ≤ p.stop ∧
      SameLine bytes (p.start + 2) p.stop ∧ (p.stop = bytes.size ∨ bytes[p.stop]? = some newlineByte)
  | .blockComment _ => PairAt bytes slashByte starByte p.start ∧
      ∃ k, p.stop = k + 2 ∧ p.start + 2 ≤ k ∧ PairAt bytes starByte slashByte k ∧
        ∀ l, p.start + 2 ≤ l → l < k → ¬PairAt bytes starByte slashByte l
  | .openComment _ => PairAt bytes slashByte starByte p.start ∧ p.stop = bytes.size ∧
      ∀ l, p.start + 2 ≤ l → ¬PairAt bytes starByte slashByte l

/-- A closing marker among some characters is found, or one before it. -/
theorem exists_splitComment (front behind : List Char) : ∃ text rest,
    splitComment (front ++ '*' :: '/' :: behind) = some (text, rest) ∧ behind.length ≤ rest.length := by
  induction front with
  | nil => exact ⟨[], behind, if_pos ⟨rfl, rfl⟩, Nat.le_refl _⟩
  | cons c front ih =>
    obtain ⟨text, rest, hsplit, hle⟩ := ih
    rw [List.cons_append, splitComment]
    split
    · refine ⟨[], _, rfl, ?_⟩
      rw [List.length_tail, List.length_append, List.length_cons, List.length_cons]
      omega
    · exact ⟨c :: text, rest, by rw [hsplit]; rfl, hle⟩

/-! ## Characters and their bytes -/

namespace Decodes

variable {r : Reader} {bytes : ByteArray} {i j k : Nat} {cs : List Char} {c d : Char}

/-- The first of some characters stands at the offset, and the others behind it. -/
theorem cons_char (h : Decodes r bytes i ((c :: cs).map .char) j) :
    bytes.utf8DecodeChar? i = some c ∧ Decodes r bytes (i + c.utf8Size) (cs.map .char) j := by
  cases h with
  | cons hseen _ hrest =>
    cases hseen.stands with
    | char hd => exact ⟨hd, hrest⟩

/-- Characters are the bytes that encode them. -/
theorem extract_eq (h : Decodes r bytes i (cs.map .char) j) : bytes.extract i j = cs.utf8Encode := by
  induction cs generalizing i with
  | nil =>
    cases h
    exact ByteArray.extract_same
  | cons c cs ih =>
    obtain ⟨hd, hrest⟩ := h.cons_char
    have hle := hrest.le
    have hsplit : bytes.extract i j =
        bytes.extract i (i + c.utf8Size) ++ bytes.extract (i + c.utf8Size) j := by
      rw [ByteArray.extract_append_extract, Nat.min_eq_left (Nat.le_add_right ..), Nat.max_eq_right hle]
    rw [hsplit, Utf8.extract_of_utf8DecodeChar? hd, ih hrest, List.utf8Encode_cons (l := cs),
      List.utf8Encode_singleton]

/-- A character of one byte stands where its byte does. -/
theorem getElem?_of_decode (hd : bytes.utf8DecodeChar? i = some c) (hc : c.utf8Size = 1) :
    bytes[i]? = some c.val.toUInt8 := by
  have hi : i < bytes.size := ByteArray.lt_size_of_isSome_utf8DecodeChar? (by rw [hd]; rfl)
  rw [getElem?_pos bytes i hi, Utf8.getElem_of_utf8DecodeChar? hd hc hi]

/-- Two characters of one byte each stand where their bytes do. -/
theorem pairAt (h : Decodes r bytes i ((c :: d :: cs).map .char) j) (hc : c.utf8Size = 1)
    (hd : d.utf8Size = 1) :
    PairAt bytes c.val.toUInt8 d.val.toUInt8 i ∧ Decodes r bytes (i + 2) (cs.map .char) j := by
  obtain ⟨hfirst, hrest⟩ := h.cons_char
  rw [hc] at hrest
  obtain ⟨hsecond, hrest⟩ := hrest.cons_char
  rw [hd] at hrest
  exact ⟨⟨getElem?_of_decode hfirst hc, getElem?_of_decode hsecond hd⟩, hrest⟩

/-- Where a byte stands that is a character on its own, there is the character. -/
theorem exists_append_of_byte (h : Decodes r bytes i (cs.map .char) j) (hik : i ≤ k) (hkj : k < j)
    {x : UInt8} (hx : bytes[k]? = some x) (hascii : x < 0x80) : ∃ front behind,
    cs = front ++ Char.ofUInt8 x :: behind ∧ Decodes r bytes (k + 1) (behind.map .char) j := by
  obtain ⟨hk, hx⟩ := getElem?_eq_some_iff.mp hx
  induction cs generalizing i with
  | nil =>
    cases h
    omega
  | cons c cs ih =>
    obtain ⟨hd, hrest⟩ := h.cons_char
    rcases Nat.lt_or_eq_of_le hik with hlt | rfl
    · -- The byte stands inside no character.
      have hle : i + c.utf8Size ≤ k := by
        refine Nat.le_of_not_lt fun hinside => ?_
        have hnone := Utf8.utf8DecodeChar?_of_isContinuation (Utf8.isContinuation_getElem hd hlt hinside hk)
        rw [Utf8.utf8DecodeChar?_of_lt hk (hx ▸ hascii)] at hnone
        cases hnone
      obtain ⟨front, behind, rfl, hbehind⟩ := ih hrest hle
      exact ⟨c :: front, behind, rfl, hbehind⟩
    · rw [Utf8.utf8DecodeChar?_of_lt hk (hx ▸ hascii), hx] at hd
      cases hd
      rw [Utf8.utf8Size_ofUInt8 hascii] at hrest
      exact ⟨[], cs, rfl, hrest⟩

/-- Where two bytes stand that are characters on their own, there are the characters. -/
theorem exists_append_of_pairAt (h : Decodes r bytes i (cs.map .char) j) (hik : i ≤ k) (hkj : k + 1 < j)
    {x y : UInt8} (hpair : PairAt bytes x y k) (hx : x < 0x80) (hy : y < 0x80) : ∃ front behind,
    cs = front ++ Char.ofUInt8 x :: Char.ofUInt8 y :: behind ∧
      Decodes r bytes (k + 2) (behind.map .char) j := by
  obtain ⟨front, rest, rfl, hrest⟩ := h.exists_append_of_byte hik (Nat.lt_of_succ_lt hkj) hpair.1 hx
  cases rest with
  | nil =>
    cases hrest
    exact absurd hkj (Nat.lt_irrefl _)
  | cons c behind =>
    obtain ⟨hc, hbehind⟩ := hrest.cons_char
    obtain ⟨hk, hbyte⟩ := getElem?_eq_some_iff.mp hpair.2
    rw [Utf8.utf8DecodeChar?_of_lt hk (hbyte ▸ hy), hbyte] at hc
    cases hc
    rw [Utf8.utf8Size_ofUInt8 hy] at hbehind
    exact ⟨front, behind, rfl, hbehind⟩

/-- If nothing is wrong from some offset on, something that is no character is the end. -/
theorem eq_size_of_decode (hi : i ≤ bytes.size) (hnone : faultsFrom i (itemsFrom bytes i) = [])
    (hd : bytes.utf8DecodeChar? i = none) : i = bytes.size := by
  refine Nat.le_antisymm hi (Nat.le_of_not_lt fun hlt => ?_)
  rw [itemsFrom, if_pos hlt, hd] at hnone
  cases (List.append_eq_nil_iff.mp hnone).1

end Decodes

/-! ## Crossings -/

section

variable {r : Reader} {bytes : ByteArray} {i k : Nat} {ps : List Crossing} {p : Crossing}

/-- What is passed has a character. -/
theorem Passage.exists_chars_eq_cons (p : Passage) : ∃ c cs, p.chars = c :: cs := by
  cases p <;> exact ⟨_, _, rfl⟩

/-- Where everything can be decoded, a crossing is its characters, and only the end of the input is no character
behind it. -/
theorem Crossings.decodes_chars (hclean : undecodable bytes = []) (h : Crossings r bytes i ps k)
    (hp : p ∈ ps) : Decodes r bytes p.start (p.passage.chars.map .char) p.stop ∧
      (bytes.utf8DecodeChar? p.stop = none → p.stop = bytes.size) := by
  obtain ⟨fs, hdecodes, hheard⟩ := h.decodes_of_mem hp
  have hhead := h.decode_of_mem hp
  obtain ⟨c, cs, hchars⟩ := p.passage.exists_chars_eq_cons
  rw [hchars] at hheard hhead ⊢
  obtain ⟨hnul, hnone⟩ := Decodes.faultsFrom_of_decode hclean (Nat.zero_le _) hhead
  rw [hdecodes.faults_eq (Decodes.noticesNuls_of_undecodable r hclean)] at hnone
  -- A text without undecodable bytes has none inside the passage and none behind it.
  obtain ⟨hnone, hrest⟩ := List.append_eq_nil_iff.mp hnone
  refine ⟨?_, Decodes.eq_size_of_decode hdecodes.le_size hrest⟩
  obtain ⟨gs, rfl, hgs⟩ := hdecodes.exists_cons_of_decode (by rw [hheard]; exact nofun) hhead hnul
  have hgs' := hgs.eq_map_char (Nat.add_pos_right _ c.utf8Size_pos) (List.append_eq_nil_iff.mp hnone).2
  -- The passage begins with a character that is heard, and a mark is not.
  have hmark : c ≠ CharStream.byteOrderMark := by
    rintro rfl
    obtain ⟨f, -, hf⟩ := List.mem_filterMap.mp (hheard ▸ List.mem_cons_self)
    rw [Fetched.eq_char_of_heard? hf] at hf
    cases hf
  rw [ReadAs.heard_cons_char, if_neg hmark] at hheard
  rw [hgs', List.tail_eq_of_cons_eq hheard] at hdecodes
  exact hdecodes

/-- A crossing fits before what stands where it stops. -/
theorem Crossings.fits_of_mem (h : Crossings r bytes i ps k)
    (hgap : Gap (ps.map Crossing.passage) (bytes.utf8DecodeChar? k)) (hp : p ∈ ps) :
    p.passage.Fits (bytes.utf8DecodeChar? p.stop) := by
  induction h with
  | nil => cases hp
  | @cons i passage fs j ps k _ _ _ hrest ih =>
    rcases List.mem_cons.mp hp with rfl | hp
    · suffices hnext : bytes.utf8DecodeChar? j =
          ((ps.map Crossing.passage).flatMap Passage.chars).head?.or (bytes.utf8DecodeChar? k) by
        rw [hnext]
        exact hgap.1
      cases hrest with
      | nil => rfl
      | @cons _ passage _ _ _ _ hhead =>
        obtain ⟨c, cs, hchars⟩ := passage.exists_chars_eq_cons
        rw [hhead, hchars]
        simp [hchars]
    · exact ih hgap.2 hp

end

namespace Crossing

variable {r : Reader} {bytes : ByteArray} {p : Crossing} {text : List Char}

/-- Of the characters that make up a stretch of bytes, some are heard. -/
theorem mem_of_mem_heard {c : Char} {cs : List Char} (h : c ∈ heard (cs.map .char)) : c ∈ cs := by
  obtain ⟨f, hf, hc⟩ := List.mem_filterMap.mp h
  obtain ⟨d, hd, rfl⟩ := List.mem_map.mp hf
  rwa [← Fetched.char.inj (Fetched.eq_char_of_heard? hc)]

/-- A line comment ends before a newline, or at the end. -/
theorem delimited_lineComment (hp : p.passage = .lineComment text)
    (h : Decodes r bytes p.start (p.passage.chars.map .char) p.stop)
    (hfits : p.passage.Fits (bytes.utf8DecodeChar? p.stop))
    (hend : bytes.utf8DecodeChar? p.stop = none → p.stop = bytes.size) : p.Delimited bytes := by
  unfold Delimited
  rw [hp] at h hfits ⊢
  obtain ⟨hmarker, hrest⟩ := h.pairAt rfl rfl
  refine ⟨hmarker, hrest.le, hrest.sameLine fun hmem => hfits.1 (mem_of_mem_heard hmem), ?_⟩
  cases hnext : bytes.utf8DecodeChar? p.stop with
  | none => exact .inl (hend hnext)
  | some c =>
    rw [hnext] at hfits
    obtain rfl := hfits.2 c rfl
    exact .inr (Decodes.getElem?_of_decode hnext rfl)

/-- A closed block comment ends with the first marker that closes it. -/
theorem delimited_blockComment (hp : p.passage = .blockComment text)
    (h : Decodes r bytes p.start (p.passage.chars.map .char) p.stop)
    (hfits : p.passage.Fits (bytes.utf8DecodeChar? p.stop)) : p.Delimited bytes := by
  have hsplit : splitComment (text ++ ['*', '/']) = some (text, []) := by rwa [hp] at hfits
  unfold Delimited
  rw [hp] at h ⊢
  obtain ⟨hmarker, hrest⟩ := h.pairAt rfl rfl
  have hparts := hrest
  rw [List.map_append] at hparts
  obtain ⟨k, htext, hclosing⟩ := hparts.exists_mid
  have hmarks : Decodes r bytes k (('*' :: '/' :: []).map .char) p.stop := hclosing
  obtain ⟨hclosed, hnone⟩ := hmarks.pairAt rfl rfl
  have hstop : p.stop = k + 2 := hnone.end_of_map_char
  refine ⟨hmarker, k, hstop, htext.le, hclosed, fun l hl hlk hpair => ?_⟩
  obtain ⟨front, behind, happend, hbehind⟩ :=
    hrest.exists_append_of_pairAt hl (by omega) hpair (by decide) (by decide)
  obtain ⟨text', rest, hfound, hle⟩ := exists_splitComment front behind
  -- The first closing marker is the last that there is.
  have hsame : some (text', rest) = some (text, []) := hfound.symm.trans (happend ▸ hsplit)
  cases hsame
  obtain rfl := List.eq_nil_of_length_eq_zero (Nat.le_zero.mp hle)
  have hlast : p.stop = l + 2 := hbehind.end_of_map_char
  omega

/-- A comment without a closing marker goes on to the end. -/
theorem delimited_openComment (hp : p.passage = .openComment text)
    (h : Decodes r bytes p.start (p.passage.chars.map .char) p.stop)
    (hfits : p.passage.Fits (bytes.utf8DecodeChar? p.stop))
    (hend : bytes.utf8DecodeChar? p.stop = none → p.stop = bytes.size) : p.Delimited bytes := by
  have hopen : splitComment text = none ∧ bytes.utf8DecodeChar? p.stop = none := by rwa [hp] at hfits
  have hstop := hend hopen.2
  unfold Delimited
  rw [hp] at h ⊢
  obtain ⟨hmarker, hrest⟩ := h.pairAt rfl rfl
  refine ⟨hmarker, hstop, fun l hl hpair => ?_⟩
  obtain ⟨hlt, -⟩ := getElem?_eq_some_iff.mp hpair.2
  obtain ⟨front, behind, rfl, -⟩ :=
    hrest.exists_append_of_pairAt hl (hstop ▸ hlt) hpair (by decide) (by decide)
  obtain ⟨text', rest, hfound, -⟩ := exists_splitComment front behind
  cases hfound.symm.trans hopen.1

/-- A crossing that is its characters, and fits before what stands behind it, extends as far as it should. -/
theorem delimited (h : Decodes r bytes p.start (p.passage.chars.map .char) p.stop)
    (hfits : p.passage.Fits (bytes.utf8DecodeChar? p.stop))
    (hend : bytes.utf8DecodeChar? p.stop = none → p.stop = bytes.size) : p.Delimited bytes := by
  cases hp : p.passage with
  | blank | stray =>
    unfold Delimited
    rw [hp]
    trivial
  | lineComment => exact delimited_lineComment hp h hfits hend
  | blockComment => exact delimited_blockComment hp h hfits
  | openComment => exact delimited_openComment hp h hfits hend

end Crossing

end FrontEnd
