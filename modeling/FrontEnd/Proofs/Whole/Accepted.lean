import FrontEnd.Proofs.Refinement
import FrontEnd.Proofs.Whole.Heard
import FrontEnd.Proofs.Whole.Scans

/-!
# Nothing is cut short

If a tolerant parser accepts what a reader hands out, the reader has neither failed nor stalled for too
long, what it has handed out up to the end of the input is text, and all of it has been read. If there
is no NUL character in the text, the tree is the one of the text, whichever way it is read
(`accepts_whole_text`). A NUL character that comes first in a refilled buffer is not noticed.
-/

namespace FrontEnd

namespace Utf8

/-- Only the NUL character has a NUL byte. -/
theorem eq_nul_of_zero_mem {c : Char} (h : 0 ∈ String.utf8EncodeChar c) : c = '\x00' := by
  obtain ⟨lead, tail, hc, hwidth, htail⟩ := exists_lead c
  rw [hc] at h
  rcases List.mem_cons.mp h with rfl | hmem
  · have hsize : c.utf8Size = 1 := hwidth.symm.trans (by decide)
    rw [String.utf8EncodeChar_eq_singleton hsize] at hc
    have hzero : c.val.toUInt8 = 0 := (List.cons.inj hc).1
    rw [Char.utf8Size_eq_one_iff, UInt32.le_iff_toNat_le] at hsize
    change _ ≤ 127 at hsize
    have htoNat := congrArg UInt8.toNat hzero
    rw [UInt32.toNat_toUInt8] at htoNat
    change _ % 256 = 0 at htoNat
    refine Char.ext (UInt32.toNat_inj.mp ?_)
    change c.val.toNat = 0
    omega
  · have := List.all_eq_true.mp htail 0 hmem
    exact absurd this (by decide)

/-- The bytes of a text without NUL characters have no NUL among them. -/
theorem nulsBreakOff_of_not_mem {text : String} (h : '\x00' ∉ text.toList) :
    NulsBreakOff text.toUTF8 := by
  intro i hi hzero
  have hmem : (0 : UInt8) ∈ text.toUTF8.data.toList := by
    rw [← hzero]
    exact Array.mem_toList_iff.mpr (Array.getElem_mem hi)
  have hbytes : text.toUTF8.data.toList = text.toList.flatMap String.utf8EncodeChar := by
    rw [show text.toUTF8 = text.toList.utf8Encode from String.utf8Encode_toList.symm, List.utf8Encode,
      List.toList_data_toByteArray]
  rw [hbytes] at hmem
  obtain ⟨c, hc, hzero⟩ := List.mem_flatMap.mp hmem
  rw [eq_nul_of_zero_mem hzero] at hc
  exact absurd hc h

end Utf8

namespace Parser

/-- Who fails fast yields the same as who goes on and says nothing, or has been finished by what the
other one says first. -/
theorem hasty_parseFile_cases (base : Base) (scans : List Scan) (verbose : Bool) :
    let p := (start base scans true verbose).parseFile
    let q := (start base scans false verbose).parseFile
    q.1 = p.1 ∧ p.2.diagnostics = [] ∨
      ∃ d, p.2.diagnostics.head? = some d ∧ q.1 = .error (.aborted d) := by
  have hpair := paired_start base scans verbose
  have hlogs := logsFirst_start base scans verbose
  have ht : (start base scans true verbose).tolerant = true := (lasting_tolerant true).next rfl
  generalize start base scans true verbose = p at hpair hlogs ht ⊢
  generalize start base scans false verbose = q at hpair ⊢
  have hroutine := ParseM.routine_file p.budget
  have hhead := lasting_logsFirst.run hroutine hlogs ((lasting_tolerant true).run hroutine ht)
  dsimp only
  rw [parseFile_of_tolerant ht, hhead]
  rcases hpair with ⟨hs, rfl⟩ | ⟨d, hd, hq⟩
  · rcases hroutine.simulates failFast (p := p) (q := p.hasty) ⟨hs, rfl⟩ with
      ⟨hresult, hs', hq'⟩ | ⟨d, hd, hq'⟩
    · have hb : ((ParseM.file p.budget).run p.hasty).2.abortion? = none := by
        rw [hq']
        exact hs'.abortion?_hasty
      rw [show p.hasty.parseFile = _ from parseFile_eq_run hs.abortion?_hasty hb]
      exact .inl ⟨hresult.symm, List.head?_eq_none_iff.mp (hhead.trans hs'.first?)⟩
    · exact .inr ⟨d, hd.2.1, (parseFile_of_saidFirst hs.abortion?_hasty rfl hq').1⟩
  · -- They have parted over what was reported on the way to the first lexeme.
    refine .inr ⟨d, ((lasting_saidFirst true d).run hroutine hd).2.1, ?_⟩
    have ha : q.abortion? = some (.aborted d) := by
      unfold abortion?
      rw [hq.1, hq.2.1]
      rfl
    unfold parseFile
    rw [ha]

/-- If nothing was said, whoever fails fast yields the same. -/
theorem hasty_parseFile_of_accepts {base : Base} {scans : List Scan} {verbose : Bool}
    (h : (start base scans true verbose).Accepts) :
    (start base scans false verbose).parseFile.1 = (start base scans true verbose).parseFile.1 := by
  rcases hasty_parseFile_cases base scans verbose with ⟨hsame, -⟩ | ⟨d, hd, -⟩
  · exact hsame
  · rw [h.2] at hd
    cases hd

/-- A tolerant parser accepts only whole texts. The reader hands out the bytes of a text before it
tells the end of the input, with no failure and no ten stalls in a row on the way; the text has a byte
order mark at most at its start; and the last scan of it has taken all of it. Unless there is a NUL
character in it, the run is that on the text itself, and so is one that fails fast. -/
theorem accepts_whole_text (base : Base) (r : Reader) (verbose : Bool)
    (h : (start base r.scans true verbose).Accepts) : ∃ text : String,
    r.Hands text.toUTF8 none ∧
      (∀ c ∈ text.toList.tail, c ≠ CharStream.byteOrderMark) ∧
      (∃ n, r.scans.length = n + 1 ∧
        ((Scanner.ofWindow (Buffer.ofReader r)).after n).next.lexeme.token = .eof ∧
        ((Scanner.ofWindow (Buffer.ofReader r)).after n).next.stream.offset r.bytesLeft =
          text.toUTF8.size) ∧
      ('\x00' ∉ text.toList →
        (start base r.scans true verbose).parseFile =
            (start base (Reader.ofBytes text.toUTF8).scans true verbose).parseFile ∧
          (start base r.scans true verbose).parseFile.1 =
            (start base (Reader.ofBytes text.toUTF8).scans false verbose).parseFile.1) := by
  have hcalm := calm_of_accepts h
  -- Scans without a report spell the whole input out as one text.
  obtain ⟨text, hr, htail, hall⟩ := r.exists_text fun scan hscan e he => hcalm scan hscan _ he
  refine ⟨text, hr, htail, hall, fun hnul => ?_⟩
  have hb := Utf8.nulsBreakOff_of_not_mem hnul
  have hwhole := (Reader.delivers_ofBytes text.toUTF8).hands
  rw [Reader.scans_eq hb hwhole, ← Reader.scans_eq hb hr]
  exact ⟨rfl, (hasty_parseFile_of_accepts h).symm⟩

/-- A reader that stalls, and that stops in the middle of a character. -/
theorem accepts_whole_text_pieces :
    let r : Reader := ⟨[.stall, .data "module m".toUTF8, .data [0x0a, 0x2f, 0x2f, 0xc3].toByteArray,
      .stall, .data [0xa9, 0x0a].toByteArray, .endOfInput, .failure "late"], none, .finished⟩
    (start (.file "") r.scans true false).Accepts ∧ ∃ text : String, r.Hands text.toUTF8 none ∧
      ('\x00' ∉ text.toList → (start (.file "") r.scans true false).parseFile.1 =
        parse (.file "") (.ofBytes text.toUTF8)) := by
  intro r
  have hok : (start (.file "") r.scans true false).parseFile.1.isOk = true := by decide +kernel
  have hnone : (start (.file "") r.scans true false).parseFile.2.diagnostics = [] := by
    decide +kernel
  have haccepts : (start (.file "") r.scans true false).Accepts := ⟨exists_eq_ok hok, hnone⟩
  obtain ⟨text, hr, -, -, hsame⟩ := accepts_whole_text (.file "") r false haccepts
  exact ⟨haccepts, text, hr, fun hnul => (hsame hnul).2⟩

/-- A NUL character is noticed where it has been read together with what comes before it, but not
where it has been read on its own. -/
example :
    let pieces : Reader := ⟨[.data "module m // ".toUTF8, .data "\x00\n".toUTF8], none, .finished⟩
    let whole : Reader := .ofBytes "module m // \x00\n".toUTF8
    (start (.file "") pieces.scans true false).parseFile.2.diagnostics.length = 0 ∧
      (start (.file "") whole.scans true false).parseFile.2.diagnostics.length = 1 := by
  decide +kernel

end Parser

end FrontEnd
