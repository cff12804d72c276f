import FrontEnd.Proofs.Gaps.Breaks

/-!
# Readers that let all NUL bytes be noticed

As long as no NUL byte is missed, a buffer that draws on its reader finds what a cursor on all the bytes
finds (`Buffer.Tracks.fetch_of_noticed`). So the scans of the reader are those of the bytes
(`Reader.scans_eq_of_noticesNuls`), also where the NUL bytes do not break off characters.
-/

namespace FrontEnd

variable {r : Reader} {bytes : ByteArray}

/-- If no NUL byte is missed, a fetch finds the same in a buffer as with the cursor, and both go on to the
same place. -/
theorem Buffer.Tracks.fetch_of_noticed {b : Buffer} {c : Cursor} (h : b.Tracks none c) (hdraws : Draws r 0 b c)
    (hn : r.NoticesNuls c.bytes) :
    b.fetch.1 = c.fetch.1 ∧ b.fetch.2.Tracks none c.fetch.2 ∧ b.fetch.1.width ≤ b.fetch.2.next ∧
      Draws r 0 b.fetch.2 c.fetch.2 := by
  have hlater := hdraws.fetch h
  -- A NUL that is taken for a character is one that is missed.
  have hmissed (hf : b.fetch.1 = .char '\x00') (hs : b.fetch.1.Stands c.bytes c.offset) : False := by
    have hnul := hs
    rw [hf] at hnul
    cases hnul with
    | char hd =>
      have hi : c.offset < c.bytes.size := ByteArray.lt_size_of_isSome_utf8DecodeChar? (by rw [hd]; rfl)
      exact hn c.offset hi (Utf8.getElem_of_utf8DecodeChar? hd rfl hi) (hdraws.misses h hf hs).1
  have hfetches := h.fetches
  generalize b.fetch = x at hfetches hlater hmissed
  cases hfetches with
  | @stands f b' hstands htracks hwidth =>
    rw [Cursor.fetch_eq_of_stands hstands fun hf => hmissed hf hstands]
    exact ⟨rfl, htracks, hwidth, hlater⟩
  | fails hf => cases hf

/-- A stream through a buffer is at the same place as one on all of `bytes`, and its buffer draws on `r`. -/
structure Noticing (r : Reader) (bytes : ByteArray) (s : CharStream Buffer) (t : CharStream Cursor) : Prop
    extends Follows bytes s t where
  draws : Buffer.Draws r 0 s.window t.window

namespace Noticing

variable {s : CharStream Buffer} {t : CharStream Cursor}

/-- Both count the character. -/
theorem passChar (h : Noticing r bytes s t) : Noticing r bytes s.passChar t.passChar := by
  refine ⟨h.toFollows.passChar, ?_⟩
  rw [CharStream.window_passChar, CharStream.window_passChar]
  exact h.draws

variable (hn : r.NoticesNuls bytes)
include hn

/-- Both fetch the same. -/
theorem fetch (h : Noticing r bytes s t) :
    (ByteWindow.fetch s.window).1 = (ByteWindow.fetch t.window).1 ∧
      Noticing r bytes (s.receive (ByteWindow.fetch s.window)) (t.receive (ByteWindow.fetch t.window)) := by
  obtain ⟨hf, htracks, hwidth, hdraws⟩ := h.tracks.fetch_of_noticed h.draws (by rwa [h.bytes_eq])
  have hbytes : t.window.fetch.2.bytes = bytes := by rw [Cursor.bytes_fetch, h.bytes_eq]
  have ht : t.window.fetch = (s.window.fetch.1, t.window.fetch.2) := by rw [hf]
  constructor
  · exact hf
  · constructor
    · have hreceived := h.receive (f := s.window.fetch.1) htracks hbytes hwidth
      rw [← ht] at hreceived
      exact hreceived
    · rw [CharStream.window_receive, CharStream.window_receive]
      exact hdraws

/-- Both find the same next character. -/
theorem seek (h : Noticing r bytes s t) : Noticing r bytes s.seek t.seek :=
  CharStream.seek_of_fetch (fun h => h.fetch hn) passChar h

/-- Both go back to the same character. -/
theorem rewind (h : Noticing r bytes s t) : Noticing r bytes s.rewind t.rewind :=
  seek hn (passChar ⟨h.rewound, h.draws.rewind h.tracks⟩)

end Noticing

/-- A stream through a buffer and one on all the bytes go in lockstep. -/
theorem lockstep_noticing (hn : r.NoticesNuls bytes) : Lockstep (Noticing r bytes) where
  toForward start := by
    refine .of_report start (fun h => h.char?_eq) (fun h => h.place_eq) (fun h => h.marked_eq)
      (fun h => h.passChar.seek hn) ?_ ?_
    · exact fun r h => ⟨h.report r, h.draws⟩
    · exact fun h => ⟨h.toFollows.clearMark, h.draws⟩
  reports_eq h := h.reports_eq
  setMark h := ⟨h.toFollows.setMark, h.draws⟩
  rewind h := h.rewind hn
  dropReports h := ⟨h.toFollows.dropReports, h.draws⟩

/-- The scans of what a reader delivers are those of the bytes, if no NUL byte is missed. -/
theorem Reader.scans_eq_of_noticesNuls (hn : r.NoticesNuls bytes) (hr : r.Hands bytes none) :
    r.scans = (Scanner.ofWindow (Cursor.ofBytes bytes)).scans := by
  have hstep : (Scanner.ofWindow (Buffer.ofReader r)).InStep (Noticing r bytes)
      (Scanner.ofWindow (Cursor.ofBytes bytes)) := by
    refine ⟨rfl, Noticing.seek hn ⟨?_, Buffer.draws_ofReader r bytes⟩⟩
    exact ⟨Buffer.tracks_ofReader hr, rfl, Nat.zero_le _, rfl, rfl, rfl, rfl, rfl⟩
  obtain ⟨n, hreader, hbytes⟩ := Scanner.exists_scans_eq r.sound_ofReader (Cursor.sound_ofBytes bytes)
  calc r.scans = (Scanner.ofWindow (Buffer.ofReader r)).scanUpTo n := hreader
    _ = (Scanner.ofWindow (Cursor.ofBytes bytes)).scanUpTo n := (lockstep_noticing hn).scanUpTo _ hstep
    _ = (Scanner.ofWindow (Cursor.ofBytes bytes)).scans := hbytes.symm

end FrontEnd
