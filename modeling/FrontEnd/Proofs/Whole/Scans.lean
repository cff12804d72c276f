import FrontEnd.Proofs.Whole.Stream

/-!
# Scans without a fault

If no scan of a reader reports a fault, the reader has handed out text and then told the end of the
input, and all of it has been scanned (`Reader.exists_text`).
-/

namespace FrontEnd

namespace Scanner

variable {bytes : ByteArray} {total : Nat} {outcome : Option ReadFailure}

/-- As long as nothing is wrong, finding a token leaves a stream clean. -/
theorem cleanIf_next {s : Scanner Buffer} {prior : Prop}
    (h : s.stream.CleanIf bytes total outcome prior) :
    s.next.stream.CleanIf bytes total outcome prior := by
  have hstep : s.InStep (fun p q => p = q ∧ p.CleanIf bytes total outcome prior) s := ⟨rfl, rfl, h⟩
  exact ((CharStream.finding_clean bytes total outcome prior).next hstep).2.2

/-- A scanner that starts with text is among text as long as no scan reports a fault. -/
theorem cleanIf_after {s : Scanner Buffer} (h : s.stream.CleanIf bytes total outcome True) {m n : Nat}
    {scan : Scan} (hscan : (s.scanUpTo m)[n]? = some scan)
    (hfault : ∀ scan ∈ s.scanUpTo m, ∀ e, .error e ∉ scan.reports) :
    (s.after n).stream.CleanIf bytes total outcome True ∧ (s.after n).next.stream.NoFault := by
  -- By the scans before it, all of which are without fault.
  induction n generalizing s m with
  | zero =>
    cases m with
    | zero => cases hscan
    | succ m =>
      have hfirst := hfault scan (List.mem_of_getElem? hscan)
      have hreports : scan.reports = s.next.reports := by
        obtain ⟨rest, hall⟩ := s.scanUpTo_eq_cons m
        rw [hall] at hscan
        cases hscan
        rfl
      rw [hreports] at hfirst
      exact ⟨h, fun e he => hfirst e (Array.mem_toList_iff.mpr he)⟩
  | succ n ih =>
    cases m with
    | zero => cases hscan
    | succ m =>
      by_cases heof : s.next.lexeme.token = .eof
      · rw [scanUpTo_of_eof m heof] at hscan
        cases hscan
      · rw [scanUpTo_of_ne m heof] at hscan hfault
        obtain ⟨c, hc⟩ := cleanIf_next h trivial fun e he =>
          hfault _ List.mem_cons_self e (Array.mem_toList_iff.mpr he)
        refine ih (s := s.next.dropReports) (m := m) (fun _ _ => ⟨c, ?_⟩) hscan fun scan hmem =>
          hfault scan (List.mem_cons_of_mem _ hmem)
        exact ⟨hc.placed.dropReports, hc.before, hc.through, hc.mark⟩

/-- A scanner on a reader starts with text, unless there is a fault. -/
theorem cleanIf_ofWindow {r : Reader} (hr : r.Hands bytes outcome) :
    (ofWindow (Buffer.ofReader r)).stream.CleanIf bytes r.bytesLeft outcome True := by
  intro _ hn
  have hclear : CharStream.Clear bytes r.bytesLeft outcome (.ofBytes bytes)
      { window := Buffer.ofReader r, line := 0, column := 0, char? := none, width := 0,
        reports := #[] } := ⟨⟨Buffer.views_ofReader hr, fun _ => rfl⟩, .start, fun m hm => by cases hm⟩
  obtain ⟨n, hclean⟩ := hclear.seek hn
  exact ⟨_, hclean⟩

end Scanner

namespace Reader

variable {r : Reader}

/-- If nothing is wrong with what a reader hands out, it is text, after which the reader tells the end
of the input, and it has all been taken by then. -/
theorem exists_text (h : ∀ scan ∈ r.scans, ∀ e, .error e ∉ scan.reports) : ∃ text : String,
    r.Hands text.toUTF8 none ∧ (∀ c ∈ text.toList.tail, c ≠ CharStream.byteOrderMark) ∧
      ∃ n, r.scans.length = n + 1 ∧
        ((Scanner.ofWindow (Buffer.ofReader r)).after n).next.lexeme.token = .eof ∧
        ((Scanner.ofWindow (Buffer.ofReader r)).after n).next.stream.offset r.bytesLeft =
          text.toUTF8.size := by
  obtain ⟨bytes, outcome, hr⟩ := r.exists_hands
  obtain ⟨n, scan, hlength, hscan, heof⟩ := r.complete_scans.exists_eof
  rw [Scanner.lexeme_of_scanUpTo hscan] at heof
  obtain ⟨hclean, hfault⟩ := Scanner.cleanIf_after (Scanner.cleanIf_ofWindow hr) hscan h
  obtain ⟨c, hc⟩ := Scanner.cleanIf_next hclean trivial hfault
  have hchar := Scanner.char?_of_next_eq_eof heof
  have hnone := hc.placed.ended hchar
  have hend := hc.placed.offset_of_end hchar
  have htext := hc.before
  rw [← hc.placed.offset_eq, hend] at htext
  obtain ⟨text, rfl, htail⟩ := htext.exists_string
  exact ⟨text, hnone ▸ hr, htail, n, hlength, heof, hend⟩

end Reader

end FrontEnd
