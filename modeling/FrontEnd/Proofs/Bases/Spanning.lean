import FrontEnd.Proofs.Gaps.Undecodable

/-!
# What is reported of comments

What is reported of a comment is its bytes up to the next character, read as text with replacements for
broken runs. If all of these can be decoded, they are just the comment (`Crossings.exact`).

A block comment that takes in a newline is no directive, whatever else is in it
(`Crossing.candidate?_eq_none`): no newline is lost that way, and a slash does not come to stand behind the
first one.
-/

namespace FrontEnd

namespace Utf8

variable {bytes : ByteArray} {i n : Nat}

/-- A newline does not go on with a character. -/
theorem admitsSecond_newline (lead : UInt8) : admitsSecond lead newlineByte = false := by
  unfold admitsSecond
  dsimp only
  split
  · rfl
  · split <;> rfl

/-- A broken run holds no newline behind its first byte. -/
theorem ne_newline_of_lt_brokenWidth (hi : i < n) (hn : n < i + brokenWidth bytes i) (hlt : n < bytes.size) :
    bytes[n] ≠ newlineByte := by
  intro hb
  have hget : bytes[n]?.getD 0 = newlineByte := by rw [getElem?_pos bytes n hlt, Option.getD_some, hb]
  unfold brokenWidth at hn
  dsimp only at hn
  split at hn
  · omega
  · next hsecond =>
    rcases Nat.lt_or_eq_of_le hi with hi | rfl
    · split at hn
      · next hthird =>
        obtain rfl : n = i + 2 := by omega
        rw [hget] at hthird
        exact absurd hthird (by simp [show isContinuation newlineByte = false by decide])
      · omega
    · rw [hget, admitsSecond_newline] at hsecond
      exact hsecond (by simp)

/-- A character that stands there is read first, and then those behind it. -/
theorem lossyChars_of_decode {c : Char} (hd : bytes.utf8DecodeChar? i = some c) :
    lossyChars bytes i = c :: lossyChars bytes (i + c.utf8Size) := by
  have hlt := ByteArray.lt_size_of_isSome_utf8DecodeChar? (by rw [hd]; rfl : (bytes.utf8DecodeChar? i).isSome)
  rw [lossyChars, if_pos hlt, hd]

/-- What is read and no replacement stands there. -/
theorem decode_of_lossyChars {c : Char} {rest : List Char} (h : lossyChars bytes i = c :: rest)
    (hc : c ≠ replacement) : bytes.utf8DecodeChar? i = some c := by
  rw [lossyChars] at h
  split at h
  · split at h
    · next hd => rw [hd, (List.cons.inj h).1]
    · exact absurd (List.cons.inj h).1.symm hc
  · cases h

/-- Every newline is read as one. -/
theorem newline_mem_lossyChars (hi : i ≤ n) (hn : n < bytes.size) (hb : bytes[n] = newlineByte) :
    '\n' ∈ lossyChars bytes i := by
  -- Character by character from `i`; none of them, decoded or broken, reaches over the newline at `n`.
  induction hk : bytes.size - i using Nat.strongRecOn generalizing i with
  | ind k ih =>
    subst hk
    rw [lossyChars, if_pos (Nat.lt_of_le_of_lt hi hn)]
    cases hd : bytes.utf8DecodeChar? i with
    | some c =>
      have hpos := c.utf8Size_pos
      by_cases hc : c = '\n'
      · exact hc ▸ List.mem_cons_self
      · have hline := Fetched.Stands.sameLine (.char hd) (fun he => hc (Fetched.char.inj he))
        have hafter : i + c.utf8Size ≤ n := Nat.le_of_not_lt fun hlt => hline n hn hi hlt hb
        exact List.mem_cons_of_mem _ (ih _ (by omega) hafter rfl)
    | none =>
      have hpos := brokenWidth_pos bytes i
      have hlt : i < n := by
        refine Nat.lt_of_le_of_ne hi ?_
        rintro rfl
        cases (Fetched.Stands.malformed hn hd).eq_newline hn hb
      have hafter : i + brokenWidth bytes i ≤ n :=
        Nat.le_of_not_lt fun hinside => ne_newline_of_lt_brokenWidth hlt hinside hn hb
      exact List.mem_cons_of_mem _ (ih _ (by omega) hafter rfl)

end Utf8

namespace Decodes

variable {r : Reader} {bytes : ByteArray} {i j : Nat} {fs : List Fetched}

/-- Where a newline is heard, its byte stands. -/
theorem exists_newline (h : Decodes r bytes i fs j) (hmem : '\n' ∈ heard fs) :
    ∃ n, i ≤ n ∧ n < j ∧ ∃ hn : n < bytes.size, bytes[n] = newlineByte := by
  induction h with
  | nil => cases hmem
  | @cons i f fs j hseen hfound hrest ih =>
    have hpos := Fetched.width_pos hfound
    have hle := hrest.le
    obtain ⟨g, hg, hc⟩ := List.mem_filterMap.mp hmem
    rcases List.mem_cons.mp hg with rfl | hg
    · have hstands := hseen.stands
      rw [Fetched.eq_char_of_heard? hc] at hstands
      obtain ⟨hn, hb⟩ := hstands.getElem_newline
      exact ⟨i, Nat.le_refl _, by omega, hn, hb⟩
    · obtain ⟨n, hin, hnj, hn⟩ := ih (List.mem_filterMap.mpr ⟨g, hg, hc⟩)
      exact ⟨n, by omega, hnj, hn⟩

/-- Where no newline is heard, there is none. -/
theorem sameLine (h : Decodes r bytes i fs j) (hmem : '\n' ∉ heard fs) : SameLine bytes i j := by
  induction h with
  | nil => exact fun n _ hin hnj => absurd hnj (Nat.not_lt_of_le hin)
  | @cons i f fs j hseen _ _ ih =>
    have hf : f ≠ .char '\n' := by
      rintro rfl
      exact hmem (List.mem_filterMap.mpr ⟨_, List.mem_cons_self, rfl⟩)
    have hrest : '\n' ∉ heard fs := by
      intro hrest
      obtain ⟨g, hg, hc⟩ := List.mem_filterMap.mp hrest
      exact hmem (List.mem_filterMap.mpr ⟨g, List.mem_cons_of_mem _ hg, hc⟩)
    intro n hn hin hnj
    rcases Nat.lt_or_ge n (i + f.width) with hlt | hge
    · exact hseen.stands.sameLine hf n hn hin hlt
    · exact ih hrest n hn hge hnj

/-- Whatever stands at an offset, the items of the bytes have one there that is as wide, and as wrong. -/
theorem exists_itemsFrom_eq_cons {f : Fetched} (hs : f.Stands bytes i) (hf : f.found) :
    ∃ g, itemsFrom bytes i = g :: itemsFrom bytes (i + f.width) ∧ g.width = f.width ∧
      ∀ fault, f.faultAt? i = some fault → g.faultAt? i = some fault := by
  by_cases hnul : f = .char '\x00'
  · subst hnul
    cases hs with
    | char hd =>
      refine ⟨.nul, itemsFrom_eq_cons (.nul hd) rfl nofun, rfl, fun fault hfault => ?_⟩
      rw [Fetched.faultAt?_char (by decide)] at hfault
      cases hfault
  · exact ⟨f, itemsFrom_eq_cons hs hf hnul, rfl, fun _ => id⟩

/-- What is wrong with items, or behind them, is wrong with the items of the bytes. -/
theorem faults_subset (h : Decodes r bytes i fs j) :
    faultsFrom i fs ++ faultsFrom j (itemsFrom bytes j) ⊆ faultsFrom i (itemsFrom bytes i) := by
  induction h with
  | nil => exact List.Subset.refl _
  | @cons i f fs j hseen hfound _ ih =>
    obtain ⟨g, hitems, hwidth, hfault⟩ := exists_itemsFrom_eq_cons hseen.stands hfound
    rw [hitems, faultsFrom, faultsFrom, hwidth, List.append_assoc]
    refine List.append_subset.mpr ⟨fun x hx => List.mem_append_left _ ?_, ?_⟩
    · rw [Option.mem_toList, Option.map_eq_some_iff] at hx ⊢
      exact hx.imp fun fault => And.imp_left (hfault fault)
    · exact List.subset_append_of_subset_right _ ih

/-- What is wrong with items that others lead up to cannot be decoded. -/
theorem mem_undecodable {us : List Fetched} (hi : Decodes r bytes 0 us i) (h : Decodes r bytes i fs j)
    {x : Nat × LexFault} (hx : x ∈ faultsFrom i fs) : x ∈ undecodable bytes :=
  hi.faults_subset (List.mem_append_right _ (h.faults_subset (List.mem_append_left _ hx)))

/-- Behind the first byte, where nothing is wrong, every item is a character that is heard. -/
theorem eq_map_char (hi : 0 < i) (h : Decodes r bytes i fs j) (hnone : faultsFrom i fs = []) :
    fs = (heard fs).map .char := by
  induction h with
  | nil => rfl
  | @cons i f fs j hseen hfound _ ih =>
    obtain ⟨hfault, hnone⟩ := List.append_eq_nil_iff.mp hnone
    have hfs := ih (Nat.add_pos_left hi _) hnone
    cases hf : f.heard? with
    | some c =>
      rw [show heard (f :: fs) = c :: heard fs from List.filterMap_cons_some hf, List.map_cons, ← hfs,
        Fetched.eq_char_of_heard? hf]
    | none =>
      -- What is not heard is told of, but for a byte order mark at the very start.
      have hover := Fetched.passedOver_of_heard? hfound hf
      cases f with
      | char c =>
        have hc : c = CharStream.byteOrderMark := of_decide_eq_true hover
        rw [Fetched.faultAt?, if_pos ⟨hc, Nat.ne_of_gt hi⟩] at hfault
        cases hfault
      | nul | malformed => cases hfault
      | finished => cases hfound

/-- Characters take up their bytes. -/
theorem end_of_map_char {cs : List Char} (h : Decodes r bytes i (cs.map .char) j) :
    j = i + (cs.map Char.utf8Size).sum := by
  induction cs generalizing i with
  | nil =>
    cases h
    rfl
  | cons c cs ih =>
    cases h with
    | cons _ _ hrest =>
      rw [ih hrest, List.map_cons, List.sum_cons, ← Nat.add_assoc]
      rfl

/-- Characters are read as they are. -/
theorem lossyChars_extract {cs : List Char} (h : Decodes r bytes (i + k) (cs.map .char) j) :
    Utf8.lossyChars (bytes.extract i j) k = cs := by
  induction cs generalizing k with
  | nil =>
    cases h
    rw [Utf8.lossyChars, if_neg]
    rw [ByteArray.size_extract]
    omega
  | cons c cs ih =>
    cases h with
    | cons hseen hfound hrest =>
      cases stands_extract hseen.stands hfound hrest.le with
      | char hd => rw [Utf8.lossyChars_of_decode hd, ih (by rwa [← Nat.add_assoc])]

end Decodes

/-- If a comment and what stands between it and the next character can be decoded, the comment is all that
stands up to there. -/
theorem Crossings.exact {r : Reader} {bytes : ByteArray} {i k : Nat} {us : List Fetched} {ps : List Crossing}
    (hi : Decodes r bytes 0 us i) (h : Crossings r bytes i ps k) {p : Crossing}
    (hp : p ∈ ps) (hmay : p.passage.mayDirect)
    (hall : ∀ x ∈ undecodable bytes, p.start ≤ x.1 → p.stop ≤ x.1) :
    p.stop = p.start + (p.passage.chars.map Char.utf8Size).sum ∧
      Utf8.decodeLossy (bytes.extract p.start p.stop) = String.ofList p.passage.chars := by
  -- Along the crossings up to the one asked about; everything read before it counts as front part.
  induction h generalizing us with
  | nil => cases hp
  | @cons i passage fs j ps k hhead hdecodes hheard hrest ih =>
    rcases List.mem_cons.mp hp with rfl | hp
    · dsimp only at hmay hall ⊢
      -- No undecodable byte lies inside, so that every character stands for its own bytes.
      have hnone : faultsFrom i fs = [] := by
        refine List.eq_nil_iff_forall_not_mem.mpr fun x hx => ?_
        have hbounds := hdecodes.bounds_of_mem_faultsFrom hx
        exact Nat.not_le_of_lt hbounds.2 (hall x (hi.mem_undecodable hdecodes hx) hbounds.1)
      -- A passage that may direct is a comment and starts with a slash.
      obtain ⟨cs, hcs⟩ : ∃ cs, passage.chars = '/' :: cs := by
        cases passage with
        | lineComment | blockComment => exact ⟨_, rfl⟩
        | blank | stray | openComment => cases hmay
      rw [hcs] at hhead hheard
      obtain ⟨gs, rfl, hgs⟩ := hdecodes.exists_cons_of_decode (by rw [hheard]; exact nofun) hhead (by decide)
      have heard : heard gs = cs := List.tail_eq_of_cons_eq hheard
      have hgs' : gs = cs.map .char := heard ▸ hgs.eq_map_char (Nat.add_pos_right _ (by decide)) hnone
      rw [hgs', ← List.map_cons] at hdecodes
      rw [hcs, Utf8.decodeLossy, Decodes.lossyChars_extract (k := 0) hdecodes]
      exact ⟨hdecodes.end_of_map_char, rfl⟩
    · exact ih (hi.append hdecodes) hp

/-- A text with a newline is no directive, unless it starts like a line comment. -/
theorem LineDirective.candidate?_eq_none {cs : List Char} (hline : '\n' ∈ cs)
    (hslash : ∀ rest, cs ≠ '/' :: '/' :: rest) (place : Place) :
    candidate? place (String.ofList cs) = none := by
  unfold candidate?
  rw [String.toList_ofList]
  split
  · next cs =>
    have hmem : '\n' ∈ cs := by simpa using hline
    rw [if_pos (List.contains_iff_mem.mpr hmem)]
  · next rest => exact absurd rfl (hslash rest)
  · rfl

/-- What is reported of a comment that takes in a newline is no directive. -/
theorem Crossing.candidate?_eq_none {r : Reader} {bytes : ByteArray} {i k : Nat} {p : Crossing}
    (h : Crossings r bytes i [p] k) {text : List Char} (hp : p.passage = .blockComment text)
    (hline : '\n' ∈ p.passage.chars) (place : Place) :
    LineDirective.candidate? place (Utf8.decodeLossy (bytes.extract p.start p.stop)) = none := by
  cases h with
  | @cons _ passage fs j _ _ hhead hdecodes hheard hrest =>
    dsimp only at hp hline ⊢
    subst hp
    obtain ⟨n, hin, hnj, hn, hb⟩ := hdecodes.exists_newline (hheard ▸ hline)
    obtain ⟨gs, rfl, hgs⟩ := hdecodes.exists_cons_of_decode (by rw [hheard]; exact nofun) hhead (by decide)
    have hsize := hgs.le_size
    refine LineDirective.candidate?_eq_none ?_ ?_ place
    · refine Utf8.newline_mem_lossyChars (n := n - i) (Nat.zero_le _) ?_ ?_
      · rw [ByteArray.size_extract]
        omega
      · rw [ByteArray.getElem_extract]
        simpa only [Nat.add_sub_cancel' hin] using hb
    · -- Behind the slash there is the star, or something that is not read as a slash.
      have hfirst : (bytes.extract i j).utf8DecodeChar? 0 = some '/' :=
        Decodes.utf8DecodeChar?_extract hhead hgs.le
      have hsecond : heard gs = '*' :: (text ++ ['*', '/']) := List.tail_eq_of_cons_eq hheard
      intro rest he
      rw [Utf8.lossyChars_of_decode hfirst] at he
      have hdecode := Utf8.decode_of_lossyChars (List.tail_eq_of_cons_eq he) (by decide)
      cases hgs with
      | nil => cases hsecond
      | @cons _ g gs _ hseen hfound hrest =>
        have hstands := Decodes.stands_extract hseen.stands hfound hrest.le
        rw [hstands.eq_char hdecode (by decide)] at hsecond
        cases hsecond

end FrontEnd
