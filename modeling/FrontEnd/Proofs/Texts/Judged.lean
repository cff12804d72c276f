import FrontEnd.Proofs.Malformed
import FrontEnd.Proofs.Texts.Numbers
import FrontEnd.Proofs.Texts.Quoted
import FrontEnd.Proofs.Texts.Tokens

/-!
# Literals are judged by their grammar

Where everything can be decoded, the text of a literal is what the stream has given from its first character
on, and the literal is malformed exactly if that is not written as one of its kind
(`Reader.literal_judged`). What is wrong with it has then been told.
-/

namespace FrontEnd

/-! ## Where everything can be decoded -/

namespace Decodes

variable {r : Reader} {bytes : ByteArray} {i j k : Nat} {fs : List Fetched} {c : Char}

/-- If nothing is wrong from some offset on, nothing is wrong from any character behind it on. -/
theorem faultsFrom_of_decode (h : faultsFrom k (itemsFrom bytes k) = []) (hk : k ≤ i)
    (hd : bytes.utf8DecodeChar? i = some c) : c ≠ '\x00' ∧ faultsFrom i (itemsFrom bytes i) = [] := by
  have hi : i < bytes.size := ByteArray.lt_size_of_isSome_utf8DecodeChar? (by rw [hd]; rfl)
  induction hn : bytes.size - k using Nat.strongRecOn generalizing k with
  | ind n ih =>
    subst hn
    have hitems := h
    rw [itemsFrom, if_pos (Nat.lt_of_le_of_lt hk hi)] at hitems
    cases hdk : bytes.utf8DecodeChar? k with
    | none =>
      rw [hdk] at hitems
      cases (List.append_eq_nil_iff.mp hitems).1
    | some d =>
      rw [hdk] at hitems
      obtain ⟨hfault, hrest⟩ := List.append_eq_nil_iff.mp hitems
      have hpos := d.utf8Size_pos
      have hnul : d ≠ '\x00' := by
        rintro rfl
        cases hfault
      have hitem : Cursor.ofChar d = .char d := if_neg hnul
      rcases Nat.lt_or_eq_of_le hk with hlt | rfl
      · refine ih _ (by omega) (k := k + d.utf8Size) ?_ ?_ rfl
        · rwa [hitem] at hrest
        · -- No character starts inside another.
          refine Nat.le_of_not_lt fun hinside => ?_
          have hcont := Utf8.isContinuation_getElem hdk hlt hinside hi
          rw [Utf8.utf8DecodeChar?_of_isContinuation hcont] at hd
          cases hd
      · rw [hdk] at hd
        exact ⟨Option.some.inj hd ▸ hnul, h⟩

/-- Where everything can be decoded, there is no NUL byte to notice. -/
theorem noticesNuls_of_undecodable (r : Reader) (h : undecodable bytes = []) : r.NoticesNuls bytes := by
  intro i hi hz
  have hd : bytes.utf8DecodeChar? i = some '\x00' := by
    rw [Utf8.utf8DecodeChar?_of_lt hi (by rw [hz]; decide), hz]
    rfl
  exact absurd rfl (faultsFrom_of_decode h (Nat.zero_le i) hd).1

/-- Items with which nothing is wrong are plain, unless there is a byte order mark at the very start. -/
theorem isPlain_of_faultsFrom (hn : r.NoticesNuls bytes) (h : Decodes r bytes i fs j)
    (hnone : faultsFrom i fs = []) (hstart : i = 0 → bytes.utf8DecodeChar? i ≠ some CharStream.byteOrderMark) :
    ∀ f ∈ fs, f.isPlain := by
  induction h with
  | nil => nofun
  | @cons i f fs j hseen hfound _ ih =>
    obtain ⟨hfault, hrest⟩ := List.append_eq_nil_iff.mp hnone
    have hpos := Fetched.width_pos hfound
    refine List.forall_mem_cons.mpr ⟨?_, ih hrest fun hzero => by omega⟩
    cases f with
    | char c =>
      -- A mark that is a character stands at the start, which is excluded; anywhere else it is a fault.
      have hmark : c ≠ CharStream.byteOrderMark := by
        rintro rfl
        cases hseen.stands with
        | char hd =>
          have hi : i ≠ 0 := fun hzero => hstart hzero hd
          rw [Fetched.faultAt?, if_pos ⟨rfl, hi⟩] at hfault
          cases hfault
      have hnul : c ≠ '\x00' := fun hc => ne_nul_of_noticesNuls hn hseen (congrArg Fetched.char hc)
      exact (Bool.and_eq_true ..).mpr ⟨decide_eq_true hmark, decide_eq_true hnul⟩
    | nul => rfl
    | malformed => cases hfault
    | finished => cases hfound

end Decodes

namespace CharStream

/-- Where everything can be decoded, only characters that are heard and noticed NUL bytes are passed. -/
theorem Spans.isPlain {r : Reader} {bytes : ByteArray} {s t : CharStream Buffer} {fs : List Fetched} {c : Char}
    (h : Spans r bytes s t fs) (hclean : undecodable bytes = []) (hc : s.char? = some c) :
    ∀ f ∈ fs, f.isPlain := by
  have hn := Decodes.noticesNuls_of_undecodable r hclean
  have hd := h.origin.utf8DecodeChar?_eq
  have hnone := (Decodes.faultsFrom_of_decode hclean (Nat.zero_le _) (hd.trans hc)).2
  rw [h.decodes.faults_eq hn] at hnone
  refine h.decodes.isPlain_of_faultsFrom hn (List.append_eq_nil_iff.mp hnone).1 fun _ => ?_
  obtain ⟨cursor, hsited, -⟩ := h.origin
  rw [hd]
  exact hsited.char?_ne

end CharStream

/-! ## Literals -/

namespace Scanner

variable {ω : Type} [ByteWindow ω] {s : CharStream ω} {l : Lexeme} {c : Char} {x : Scanner ω}

/-- A literal is malformed exactly if what has been given is not written as one. -/
theorem Texted.exists_judged (h : Texted l c s x) (hc : s.char? = some c)
    (hliteral : x.lexeme.token = .literal) :
    ∃ cs, s.Gives cs x.stream ∧ (x.lexeme.bad = false ↔ IsLiteral x.lexeme.kind cs) := by
  have hquoted {kind : LitKind} {found : Bool × CharStream ω}
      (h : ∃ cs, s.Gives cs found.2 ∧ (found.1 = true ↔ IsLiteral kind cs)) :
      ∃ cs, s.Gives cs (quoted l kind found).stream ∧
        ((quoted l kind found).lexeme.bad = false ↔ IsLiteral (quoted l kind found).lexeme.kind cs) := by
    obtain ⟨cs, hgives, hfound⟩ := h
    exact ⟨cs, hgives, (Bool.not_eq_false' ..).to_iff.trans hfound⟩
  cases h with
  | word => exact absurd hliteral (l.token_withWord_ne _ Token.noConfusion fun _ => Token.noConfusion)
  | number hdigit => exact CharStream.exists_number l.place hc hdigit
  | pointed hpoint hd hdigit => exact CharStream.exists_pointed l.place (hpoint ▸ hc) hd hdigit
  | string hquote => exact hquoted (CharStream.exists_string l.place (hquote ▸ hc))
  | rawString hquote => exact hquoted (CharStream.exists_rawString l.place (hquote ▸ hc))
  | rune hquote => exact hquoted (CharStream.exists_rune l.place (hquote ▸ hc))

end Scanner

namespace Reader

/-- Where everything can be decoded, a literal is malformed exactly if its text is not written as a literal of
its kind, and exactly then an error of a literal has been told since the token before it. -/
theorem literal_judged {r : Reader} {bytes : ByteArray} (hr : r.Hands bytes none)
    (hclean : undecodable bytes = []) {scan : Scan} (h : scan ∈ r.scans)
    (hliteral : scan.lexeme.token = .literal) :
    (scan.lexeme.bad = false ↔ IsLiteral scan.lexeme.kind scan.lexeme.literal.toList) ∧
      (scan.lexeme.bad = true ↔ ∃ e, Report.error e ∈ scan.reports ∧ e.fault.isOfLiteral = true) := by
  refine ⟨?_, r.bad_iff h⟩
  obtain ⟨n, hn⟩ := List.getElem?_of_mem h
  have htext : scan.lexeme.token.hasText := by rw [hliteral]; rfl
  obtain ⟨hlexeme, -, ⟨l, c, hc, htexted⟩, fs, hspans⟩ := exists_texted hr hn htext
  rw [hlexeme] at hliteral ⊢
  obtain ⟨ds, hgives, hjudged⟩ := htexted.exists_judged hc hliteral
  obtain ⟨cs, hread, hmarked⟩ := hspans.markedText_eq
  have hheard : (r.before n).next.lexeme.literal.toList = heard fs := by
    rw [htexted.literal_eq, hmarked]
    exact hread.filter_eq_heard_iff.mpr (hspans.isPlain hclean hc)
  rw [hheard, ← hgives.unique hspans.gives]
  exact hjudged

/-- An underscore may stand right behind the letter of a number. -/
theorem literal_judged_underscore :
    let bytes := ByteArray.mk #[0x30, 0x78, 0x5f, 0x66]
    let r := ofBytes bytes
    r.Hands bytes none ∧ undecodable bytes = [] ∧ ∃ scan ∈ r.scans, scan.lexeme.token = .literal ∧
      IsLiteral scan.lexeme.kind scan.lexeme.literal.toList ∧
      ¬∃ e, Report.error e ∈ scan.reports ∧ e.fault.isOfLiteral = true := by
  intro bytes r
  have hr : r.Hands bytes none := (delivers_ofBytes bytes).hands
  have hclean : undecodable bytes = [] := by decide +kernel
  have hfirst : r.scans[0]?.any (fun scan => scan.lexeme.token = .literal ∧ scan.lexeme.bad = false) := by
    decide +kernel
  obtain ⟨scan, hscan, htoken⟩ := (Option.any_eq_true _ _).mp hfirst
  obtain ⟨hliteral, hfine⟩ := of_decide_eq_true htoken
  have hmem : scan ∈ r.scans := List.mem_of_getElem? hscan
  obtain ⟨hjudged, htold⟩ := literal_judged hr hclean hmem hliteral
  refine ⟨hr, hclean, scan, hmem, hliteral, hjudged.mp hfine, fun he => ?_⟩
  rw [htold.mpr he] at hfine
  cases hfine

end Reader

end FrontEnd
