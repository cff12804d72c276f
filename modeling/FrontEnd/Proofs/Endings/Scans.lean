import FrontEnd.Proofs.Endings.Attempts

/-!
# Scans with newlines and with carriage returns

The scans of a text and of the text with a carriage return before every newline are the same, as long as
nothing is wrong with the one, no raw string is among them, and no two dots come in a row (`Carried`). A
separator that a newline stands for may be elsewhere, though, since the newline itself is.
-/

namespace FrontEnd

/-- What is scanned after a token of the given class: the same in both, up to a fault in the one or to a
second dot in it. -/
inductive Carried : Token → List Scan → List Scan → Prop
  | nil {t : Token} : Carried t [] []
  | cons {t : Token} {scan scan' : Scan} {rest rest' : List Scan} :
      scan.lexeme.Alike t.endsStatement scan'.lexeme →
      scan.reports.map Report.gist = scan'.reports.map Report.gist →
      Carried scan.lexeme.token rest rest' → Carried t (scan :: rest) (scan' :: rest')
  | faulty {t : Token} {scan : Scan} {rest others : List Scan} {e : LexError} :
      .error e ∈ scan.reports → Carried t (scan :: rest) others
  | secondDot {scan : Scan} {rest others : List Scan} :
      scan.lexeme.token ≠ .name → Carried .dot (scan :: rest) others

namespace CharStream

/-- What a text may start with before its first character. -/
def IsOpening (taken : List Char) : Prop := taken = [] ∨ taken = [byteOrderMark]

/-- The stream at the first character of a text, behind its byte order mark if it has one. -/
theorem ofWindow_eq {taken rest : List Char} (htaken : IsOpening taken) (hrest : IsClean rest) :
    ofWindow (Cursor.ofBytes (taken ++ rest).utf8Encode) =
      atFirst rest taken.utf8Encode.size
        { window := .ofBytes (taken ++ rest).utf8Encode, line := 0, column := taken.utf8Encode.size,
          char? := none, width := 0, reports := #[] } := by
  rcases htaken with rfl | rfl
  · exact seek_eq rfl rfl hrest
  · have hdecode : ([byteOrderMark] ++ rest).utf8Encode.utf8DecodeChar? 0 = some byteOrderMark :=
      List.utf8DecodeChar?_utf8Encode_cons
    have hfetch : ByteWindow.fetch (Cursor.ofBytes ([byteOrderMark] ++ rest).utf8Encode) =
        (.char byteOrderMark, ⟨([byteOrderMark] ++ rest).utf8Encode, 3, none⟩) := by
      change Cursor.fetch _ = _
      unfold Cursor.fetch Cursor.ofBytes
      dsimp only
      rw [if_pos (ByteArray.lt_size_of_isSome_utf8DecodeChar? (by rw [hdecode]; rfl)), hdecode]
      rfl
    -- The mark is passed over, and the stream behind it is on text without one.
    unfold ofWindow
    rw [seek.eq_def, hfetch, if_pos (show passedOver (.char byteOrderMark) = true by decide)]
    exact seek_eq rfl rfl hrest

end CharStream

namespace Scanner

open CharStream

variable {x y : Scanner Cursor} {separable : Bool}

/-- No name starts with a dot. -/
theorem token_next_ne_name {taken rest : List Char} (h : x.stream.Before taken ('.' :: rest)) :
    x.next.lexeme.token ≠ .name := by
  have hpast : x.stream.Past (isBlank x.lexeme.endsStatement) :=
    h.past (by cases x.lexeme.endsStatement <;> rfl)
  have hchar : x.stream.clearMark.setMark.char? = some '.' := h.char?_eq
  have hdot (l : Lexeme) (s : CharStream Cursor) : (dot l s).lexeme.token ≠ .name := by
    unfold dot
    dsimp only
    split
    · exact Token.noConfusion
    · split
      · split <;> exact Token.noConfusion
      · exact Token.noConfusion
  unfold next
  rw [find_eq]
  unfold attempt
  dsimp only
  rw [toToken_of_past hpast, hchar]
  exact hdot _ _

/-- From scanners abreast the same is found next, unless there is a fault or a raw string. -/
theorem matchIf_next (h : x.Abreast separable y) :
    x.next.MatchIf x.lexeme.endsStatement y.next := by
  obtain ⟨halike, front, cs, rest, hlevel⟩ := h
  have hclear (s : Scanner Cursor) (separable : Bool) (l : Lexeme) :
      find separable l s.stream = find separable l s.stream.clearMark := find_congr rfl
  have hends : y.lexeme.endsStatement = x.lexeme.endsStatement := by rw [halike.eq_with]
  have hlexeme : y.lexeme.cleared = { x.lexeme.cleared with place := y.lexeme.place } := by
    rw [halike.eq_with]
    rfl
  unfold next
  rw [hends, hclear x, hclear y]
  exact matchIf_find ⟨front, cs, rest, _, hlevel, .inl rfl⟩ hlexeme

/-- Scanners abreast scan the same. -/
theorem carried_scanUpTo (h : x.Abreast separable y)
    (hx : x.lexeme.endsStatement = x.lexeme.token.endsStatement) (n : Nat)
    (hraw : ∀ scan ∈ x.scanUpTo n, scan.lexeme.isRawString = false) :
    Carried x.lexeme.token (x.scanUpTo n) (y.scanUpTo n) := by
  -- By the number of scans; a fault ends the comparison, and so does the second of two dots.
  induction n generalizing x y separable with
  | zero => exact .nil
  | succ n ih =>
    obtain ⟨rest₁, hfirst⟩ := x.scanUpTo_eq_cons n
    by_cases hfine : x.next.stream.NoFault
    · rcases matchIf_next h hfine (hraw _ (hfirst ▸ List.mem_cons_self)) with hnext | hdot
      · obtain ⟨halike, front, cs, rest, hlevel⟩ := hnext
        rw [hx] at halike
        have htold : x.next.reports.map Report.gist = y.next.reports.map Report.gist := hlevel.told
        have htoken : y.next.lexeme.token = x.next.lexeme.token := by rw [halike.eq_with]
        by_cases heof : x.next.lexeme.token = .eof
        · rw [scanUpTo_of_eof n heof, scanUpTo_of_eof n (htoken.trans heof)]
          exact .cons halike htold .nil
        · rw [scanUpTo_of_ne n heof] at hraw ⊢
          rw [scanUpTo_of_ne n fun he => heof (htoken.symm.trans he)]
          have hdropped : x.next.dropReports.Abreast x.lexeme.token.endsStatement y.next.dropReports :=
            ⟨halike, front, cs, rest, hlevel.dropReports⟩
          refine .cons halike htold (ih hdropped x.endsStatement_next fun scan hscan => ?_)
          exact hraw scan (List.mem_cons_of_mem _ hscan)
      · have heof : x.next.lexeme.token ≠ .eof := by
          rw [hdot.token_eq]
          exact Token.noConfusion
        have hlexeme := hdot.lexeme_eq
        rw [scanUpTo_of_ne n heof, scanUpTo_of_ne n (by rwa [hlexeme])]
        refine .cons (.inl hlexeme) hdot.told ?_
        rw [hdot.token_eq]
        obtain ⟨taken, rest, hbefore⟩ := hdot.before
        cases n with
        | zero => exact .nil
        | succ n =>
          obtain ⟨rest₂, hsecond⟩ := x.next.dropReports.scanUpTo_eq_cons n
          rw [hsecond]
          exact .secondDot (token_next_ne_name (x := x.next.dropReports) hbefore.dropReports)
    · -- The fault is among the reports of this very scan.
      obtain ⟨e, he⟩ := Classical.not_forall.mp hfine
      have hfault : .error e ∈ x.next.reports := Array.mem_toList_iff.mpr (Classical.not_not.mp he)
      rw [hfirst]
      exact .faulty hfault

/-- Before their first token, the scanners are abreast. -/
theorem abreast_ofWindow {taken rest : List Char} (htaken : IsOpening taken) (hrest : IsClean rest)
    (hreturn : '\r' ∉ taken ++ rest) : Abreast false (ofWindow (Cursor.ofBytes (taken ++ rest).utf8Encode))
      (ofWindow (Cursor.ofBytes (withReturns (taken ++ rest)).utf8Encode)) := by
  -- The mark that may open the text is not a newline and stays as it is.
  have hsame : withReturns taken = taken := by
    refine withReturns_eq_self ?_
    rcases htaken with rfl | rfl <;> decide
  have hreturned := ofWindow_eq htaken (isClean_withReturns hrest)
  have hbefore := ofWindow_eq htaken hrest
  rw [withReturns_append, hsame]
  refine ⟨.inl rfl, [], taken, rest, ?_⟩
  unfold ofWindow
  dsimp only
  rw [hbefore, hreturned]
  constructor
  case before => exact ⟨rfl, rfl, rfl, rfl, hrest, fun _ => Array.not_mem_empty _⟩
  case returned =>
    rw [List.nil_append, hsame]
    exact ⟨rfl, rfl, rfl, rfl, isClean_withReturns hrest, fun _ => Array.not_mem_empty _⟩
  case noReturn => exact hreturn
  case line_eq => rfl
  case column_eq => rfl
  case marks => exact .inl ⟨rfl, rfl⟩
  case told => rfl

end Scanner

/-- The text with a carriage return before every newline. -/
def returned (text : String) : String := String.ofList (withReturns text.toList)

/-- The characters of the text with returns. -/
theorem toList_returned (text : String) : (returned text).toList = withReturns text.toList :=
  String.toList_ofList

/-- The bytes of the text with returns. -/
theorem toUTF8_returned (text : String) : (returned text).toUTF8 = (withReturns text.toList).utf8Encode :=
  calc (returned text).toUTF8 = (returned text).toList.utf8Encode := String.utf8Encode_toList.symm
    _ = (withReturns text.toList).utf8Encode := by rw [toList_returned]

/-- Any text without NUL characters may be divided into a byte order mark, if it starts with one, and clean
text, unless there is another mark in it. -/
theorem exists_opening {cs : List Char} (hnul : '\x00' ∉ cs)
    (hmark : ∀ c ∈ cs.tail, c ≠ CharStream.byteOrderMark) :
    ∃ taken rest, cs = taken ++ rest ∧ CharStream.IsOpening taken ∧ IsClean rest := by
  have hclean {c : Char} (hc : c ∈ cs) : c ≠ '\x00' := fun he => hnul (he ▸ hc)
  cases cs with
  | nil => exact ⟨[], [], rfl, .inl rfl, nofun⟩
  | cons c cs =>
    by_cases hc : c = CharStream.byteOrderMark
    · exact ⟨[c], cs, rfl, .inr (by rw [hc]), fun d hd => ⟨hclean (List.mem_cons_of_mem _ hd), hmark d hd⟩⟩
    · refine ⟨[], c :: cs, rfl, .inl rfl, fun d hd => ⟨hclean hd, ?_⟩⟩
      rcases List.mem_cons.mp hd with rfl | hd
      · exact hc
      · exact hmark d hd

/-- The scans of a text are those of the text with carriage returns, as far as nothing is wrong. -/
theorem carried_scans {text : String} (hreturn : '\r' ∉ text.toList) (hnul : '\x00' ∉ text.toList)
    (hmark : ∀ c ∈ text.toList.tail, c ≠ CharStream.byteOrderMark)
    (hraw : ∀ scan ∈ (Reader.ofBytes text.toUTF8).scans, scan.lexeme.isRawString = false) :
    Carried .eof (Reader.ofBytes text.toUTF8).scans (Reader.ofBytes (returned text).toUTF8).scans := by
  -- Adding returns adds no NUL, so in both texts the reader in pieces is as good as the whole.
  have hnul' : '\x00' ∉ (returned text).toList := by
    rw [toList_returned]
    intro hmem
    obtain ⟨c, hc, hmem⟩ := List.mem_flatMap.mp hmem
    split at hmem
    · revert hmem
      decide
    · exact hnul (List.mem_singleton.mp hmem ▸ hc)
  rw [Reader.scans_eq (Utf8.nulsBreakOff_of_not_mem hnul) (Reader.delivers_ofBytes _).hands] at hraw ⊢
  rw [Reader.scans_eq (Utf8.nulsBreakOff_of_not_mem hnul') (Reader.delivers_ofBytes _).hands]
  rw [toUTF8_returned]
  rw [show text.toUTF8 = text.toList.utf8Encode from String.utf8Encode_toList.symm] at hraw ⊢
  obtain ⟨taken, rest, htext, htaken, hrest⟩ := exists_opening hnul hmark
  rw [htext] at hreturn hraw ⊢
  have habreast := Scanner.abreast_ofWindow htaken hrest hreturn
  obtain ⟨n, hplain, hreturned⟩ := Scanner.exists_scans_eq (Cursor.sound_ofBytes (taken ++ rest).utf8Encode)
    (Cursor.sound_ofBytes (withReturns (taken ++ rest)).utf8Encode)
  rw [hplain] at hraw ⊢
  rw [hreturned]
  exact Scanner.carried_scanUpTo habreast rfl n hraw

end FrontEnd
