import FrontEnd.Proofs.Gaps.Calls
import FrontEnd.Proofs.Progress

/-!
# What cannot be decoded is told

Every NUL byte, every byte that is not text and every byte order mark inside the input is told of once, in
order (`Reader.undecodable_told`), with two exceptions. A NUL byte that is taken for a character is not
told of at all, so all must be noticed. And around the second of two dots, things are told of more than
once; nothing else is.
-/

namespace FrontEnd

/-- The error in a report, if it is about something that cannot be decoded. -/
def Report.undecoded? : Report → Option LexError
  | .error e => if e.fault.isDecoding then some e else none
  | .directive .. => none

/-- The same error with the offset that it is about. -/
def Remark.undecoded? : Remark → Option (Nat × LexError)
  | .error offset e => if e.fault.isDecoding then some (offset, e) else none
  | .directive .. => none

/-- A fault without its place. -/
def unplacedFault (x : Nat × LexError) : Nat × LexFault := (x.1, x.2.fault)

/-- What is told of something that cannot be decoded is reported. -/
theorem Remark.undecoded?_report (bytes : ByteArray) (x : Remark) :
    (x.report bytes).undecoded? = x.undecoded?.map Prod.snd := by
  cases x with
  | error offset e =>
    simp only [Remark.report, Report.undecoded?, Remark.undecoded?]
    split <;> rfl
  | directive => rfl

/-- What cannot be decoded has a fault at its offset. -/
theorem Remark.decoding?_eq (x : Remark) : x.decoding? = x.undecoded?.map unplacedFault := by
  cases x with
  | error offset e =>
    simp only [Remark.decoding?, Remark.undecoded?]
    split <;> rfl
  | directive => rfl

namespace Decodes

variable {r : Reader} {bytes : ByteArray} {i j : Nat} {fs : List Fetched}

/-- What is wrong from some offset on is wrong with the items there, and then with those behind. -/
theorem faults_eq (hn : r.NoticesNuls bytes) (h : Decodes r bytes i fs j) :
    faultsFrom i (itemsFrom bytes i) = faultsFrom i fs ++ faultsFrom j (itemsFrom bytes j) := by
  obtain ⟨gs, hgs⟩ := exists_to_end r (i := j) h.le_size
  rw [← (h.append hgs).eq_itemsFrom hn, ← hgs.eq_itemsFrom hn, h.faultsFrom_append]

end Decodes

namespace Scanner

variable {r : Reader} {bytes : ByteArray} {exact : Prop} {mark? : Option Nat} {s : Scanner Buffer}
  {i : Nat} {us : List Fetched} {before : List Remark}

/-- What a call of `next` tells: the faults of the items that it goes over, and perhaps some once more. -/
theorem exists_told (hn : r.NoticesNuls bytes) (hs : s.stream.Sited r bytes exact mark?) :
    ∃ (fs : List Fetched) (told : List Remark) (again : List (Nat × LexFault)),
      Decodes r bytes (s.stream.offset r.bytesLeft) fs (s.next.stream.offset r.bytesLeft) ∧
      s.next.reports = s.reports ++ told.map (Remark.report bytes) ∧
      told.filterMap Remark.decoding? = faultsFrom (s.stream.offset r.bytesLeft) fs ++ again ∧
      again ⊆ faultsFrom (s.stream.offset r.bytesLeft) (itemsFrom bytes (s.stream.offset r.bytesLeft)) ∧
      (again ≠ [] → s.start.AtDotsApart r.bytesLeft) ∧
      (exact ∧ ¬s.start.AtDotsAndNewline → ∀ x ∈ told, x.place = .ofOffset bytes x.offset) := by
  obtain ⟨ps, told, happroach, hfinds⟩ := call hs
  obtain ⟨fs, hstretch, -⟩ := happroach.passing.stretch
  have hfirst := hstretch.account.decodes
  -- The call ends in a token, whose bytes may be told a second time after two dots, or in a comment that stands
  -- for a newline.
  rcases hfinds.taken happroach.sited rfl with
    ⟨gs, told', again, -, htaking, hdots, -⟩ | ⟨-, p, told', -, -, -, hcomment, -⟩
  · refine ⟨fs ++ gs, told ++ told', again, hfirst.append htaking.decodes, ?_, ?_, ?_, hdots, ?_⟩
    · exact htaking.reports_eq.trans (by
        rw [hstretch.reports_eq, List.map_append, List.append_assoc]; rfl)
    · rw [List.filterMap_append, hstretch.account.decoding_eq, htaking.decoding_eq,
        hfirst.faultsFrom_append, List.append_assoc]
    · obtain ⟨hs, k, hdecodes, hsubset⟩ := htaking.again_subset
      rw [hfirst.faults_eq hn, hdecodes.faults_eq hn]
      exact fun y hy => List.mem_append_right _ (List.mem_append_left _ (hsubset hy))
    · intro he x hx
      exact (List.mem_append.mp hx).elim (hstretch.account.located he.1 x) (htaking.located he x)
  · obtain ⟨gs, hstretch', -⟩ := hcomment.stretch
    refine ⟨fs ++ gs, told ++ told', [], hfirst.append hstretch'.account.decodes, ?_, ?_,
      List.nil_subset _, fun hne => absurd rfl hne, ?_⟩
    · exact hstretch'.reports_eq.trans (by
        rw [hstretch.reports_eq, List.map_append, List.append_assoc]; rfl)
    · rw [List.filterMap_append, hstretch.account.decoding_eq, hstretch'.account.decoding_eq,
        hfirst.faultsFrom_append, List.append_nil]
    · intro he x hx
      exact (List.mem_append.mp hx).elim (hstretch.account.located he.1 x)
        (hstretch'.account.located he.1 x)

/-- Where none of the next `n` tokens starts with two dots that have something around the second. -/
def Undoubled (r : Reader) (s : Scanner Buffer) (n : Nat) : Prop :=
  ∀ k < n, ¬(s.after k).start.AtDotsApart r.bytesLeft

instance (n : Nat) : Decidable (s.Undoubled r n) :=
  inferInstanceAs (Decidable (∀ k < n, ¬_))

/-- One token without two dots apart, and then others. -/
theorem undoubled_succ {n : Nat} : s.Undoubled r (n + 1) ↔
    ¬s.start.AtDotsApart r.bytesLeft ∧ s.next.dropReports.Undoubled r n :=
  forall_after_succ (P := fun s => ¬s.start.AtDotsApart r.bytesLeft)

/-- What the scans up to the end tell of, if `before` has been told of what is before the first. -/
theorem undecodable_scanUpTo (hn : r.NoticesNuls bytes) {m : Nat}
    (hs : s.stream.Sited r bytes exact mark?)
    (hi : Decodes r bytes i us (s.stream.offset r.bytesLeft))
    (hbefore : before.filterMap Remark.decoding? = faultsFrom i us)
    (hlocated : exact → ∀ x ∈ before, x.place = .ofOffset bytes x.offset)
    (hreports : s.reports = before.map (Remark.report bytes)) (hcomplete : Complete (s.scanUpTo m)) :
    ∃ told : List Remark,
      (s.scanUpTo m).flatMap Scan.reports = told.map (Remark.report bytes) ∧
      (faultsFrom i (itemsFrom bytes i)).Sublist (told.filterMap Remark.decoding?) ∧
      told.filterMap Remark.decoding? ⊆ faultsFrom i (itemsFrom bytes i) ∧
      (s.Undoubled r (s.scanUpTo m).length →
        told.filterMap Remark.decoding? = faultsFrom i (itemsFrom bytes i)) ∧
      (exact ∧ s.Unshifted (s.scanUpTo m).length → ∀ x ∈ told, x.place = .ofOffset bytes x.offset) := by
  -- Scan by scan; `before` and `us` are the remarks and the fetches of the bytes already behind, from `i` on.
  induction m generalizing s exact mark? i us before with
  | zero => cases hcomplete
  | succ m ih =>
    obtain ⟨fs, told, again, hfs, htold, hdecoding, hagain, hdots, hplace⟩ := exists_told hn hs
    obtain ⟨mark', hnext⟩ := sited_next hs
    have hwhole := hi.append hfs
    have hfaults := hwhole.faults_eq hn
    rw [hi.faultsFrom_append] at hfaults
    have hdecoded : (before ++ told).filterMap Remark.decoding? =
        faultsFrom i us ++ faultsFrom (s.stream.offset r.bytesLeft) fs ++ again := by
      rw [List.filterMap_append, hbefore, hdecoding, List.append_assoc]
    -- What is told a second time is told of the same bytes, so nothing false is said.
    have hagain' : again ⊆ faultsFrom i (itemsFrom bytes i) := by
      rw [hi.faults_eq hn]
      exact fun y hy => List.mem_append_right _ (hagain hy)
    have hscan : s.next.reports = (before ++ told).map (Remark.report bytes) := by
      rw [htold, hreports, List.map_append]
    have hplaces (he : exact ∧ ¬s.start.AtDotsAndNewline) :
        ∀ x ∈ before ++ told, x.place = .ofOffset bytes x.offset := fun x hx =>
      (List.mem_append.mp hx).elim (hlocated he.1 x) (hplace he x)
    have hnone (hd : ¬s.start.AtDotsApart r.bytesLeft) : again = [] :=
      Decidable.byContradiction fun hne => hd (hdots hne)
    unfold scanUpTo at hcomplete ⊢
    dsimp only at hcomplete ⊢
    split
    · next heof =>
      have hend := hnext.offset_of_end (char?_of_next_eq_eof heof)
      rw [hend, Decodes.itemsFrom_size, faultsFrom, List.append_nil] at hfaults
      refine ⟨before ++ told, ?_, ?_, ?_, fun hd => ?_, fun hexact => ?_⟩
      · rw [List.flatMap_singleton]
        exact hscan
      · rw [hdecoded, hfaults]
        exact List.sublist_append_left ..
      · rw [hdecoded, ← hfaults]
        exact List.append_subset.mpr ⟨List.Subset.refl _, hagain'⟩
      · rw [hdecoded, hfaults, hnone (undoubled_succ.mp hd).1, List.append_nil]
      · exact hplaces ⟨hexact.1, (unshifted_succ.mp hexact.2).1⟩
    · next heof =>
      rw [if_neg heof] at hcomplete
      have hrest := hcomplete.tail heof
      have hdropped : ([] : List Remark).filterMap Remark.decoding? =
          faultsFrom (s.next.stream.offset r.bytesLeft) [] := rfl
      obtain ⟨told', hflat, hsublist, hsubset, hequal, hplaces'⟩ :=
        ih (s := s.next.dropReports) hnext.dropReports (.nil hfs.le_size) hdropped
          (fun _ _ hx => (List.not_mem_nil hx).elim) rfl hrest
      -- The remarks so far and those to come, taken together.
      have hall := congrArg (· ++ told'.filterMap Remark.decoding?) hdecoded
      rw [← List.filterMap_append] at hall
      refine ⟨before ++ told ++ told', ?_, ?_, ?_, fun hd => ?_, fun hexact => ?_⟩
      · rw [List.flatMap_cons, hflat, List.map_append, ← hscan]
      · rw [hall, hfaults]
        exact (List.sublist_append_left ..).append hsublist
      · rw [hall]
        refine List.append_subset.mpr ⟨List.append_subset.mpr ⟨?_, hagain'⟩, ?_⟩ <;> rw [hfaults]
        · exact List.subset_append_left ..
        · exact List.subset_append_of_subset_right _ hsubset
      · obtain ⟨hzero, hlater⟩ := undoubled_succ.mp hd
        rw [hall, hfaults, hnone hzero, List.append_nil, hequal hlater]
        rfl
      · obtain ⟨hzero, hlater⟩ := unshifted_succ.mp hexact.2
        intro x hx
        exact (List.mem_append.mp hx).elim (hplaces ⟨hexact.1, hzero⟩ x)
          (hplaces' ⟨⟨hexact.1, hzero⟩, hlater⟩ x)

end Scanner

namespace Reader

/-- If no NUL byte is taken for a character, the scans up to the end of the input tell of all that cannot
be decoded, in order, and of nothing else. Each is told of once, if there is nothing around the second of
two dots, and at its place, if no newline stands behind two dots. -/
theorem undecodable_told {r : Reader} {bytes : ByteArray} (hr : r.Hands bytes none)
    (hn : r.NoticesNuls bytes) :
    let s := Scanner.ofWindow (Buffer.ofReader r)
    ∃ told : List (Nat × LexError),
      (r.scans.flatMap Scan.reports).filterMap Report.undecoded? = told.map Prod.snd ∧
      (undecodable bytes).Sublist (told.map unplacedFault) ∧
      told.map unplacedFault ⊆ undecodable bytes ∧
      (s.Undoubled r r.scans.length → told.map unplacedFault = undecodable bytes) ∧
      (s.Unshifted r.scans.length → ∀ x ∈ told, x.2.place = .ofOffset bytes x.1) := by
  intro s
  obtain ⟨fs, before, hsited, haccount, hreports, -, -⟩ := Scanner.opening hr
  obtain ⟨told, hflat, hsublist, hsubset, hequal, hplaces⟩ := Scanner.undecodable_scanUpTo hn hsited
    haccount.decodes haccount.decoding_eq haccount.located hreports r.complete_scans
  -- The remarks on undecodable bytes as pairs of offset and error, the form of the statement.
  have hdecoding : told.filterMap Remark.decoding? =
      (told.filterMap Remark.undecoded?).map unplacedFault := by
    rw [List.map_filterMap]
    exact congrArg (fun f => told.filterMap f) (funext Remark.decoding?_eq)
  rw [hdecoding] at hsublist hsubset hequal
  refine ⟨told.filterMap Remark.undecoded?, ?_, hsublist, hsubset, hequal, fun hu x hx => ?_⟩
  · rw [show r.scans.flatMap Scan.reports = told.map (Remark.report bytes) from hflat,
      List.filterMap_map, List.map_filterMap]
    exact congrArg (fun f => told.filterMap f) (funext (Remark.undecoded?_report bytes))
  · obtain ⟨y, hy, hyx⟩ := List.mem_filterMap.mp hx
    have hplace := hplaces ⟨trivial, hu⟩ y hy
    cases y with
    | directive => cases hyx
    | error offset e =>
      rw [Remark.undecoded?, Option.ite_none_right_eq_some] at hyx
      rw [← Option.some.inj hyx.2]
      exact hplace

/-- A NUL byte and a byte that is not text, inside a name. -/
theorem undecodable_told_name :
    let bytes := ByteArray.mk #[0x78, 0x00, 0xff, 0x79]
    let r := ofBytes bytes
    r.Hands bytes none ∧ r.NoticesNuls bytes ∧ ∃ told : List (Nat × LexError),
      (r.scans.flatMap Scan.reports).filterMap Report.undecoded? = told.map Prod.snd ∧
      told.map unplacedFault = [(1, .nulCharacter), (2, .malformedText)] := by
  intro bytes r
  have hr : r.Hands bytes none := (delivers_ofBytes bytes).hands
  have hn : r.NoticesNuls bytes := noticesNuls_ofBytes (by decide) (by decide)
  have hdots : (Scanner.ofWindow (Buffer.ofReader r)).Undoubled r r.scans.length := by decide +kernel
  have hbytes : undecodable bytes = [(1, .nulCharacter), (2, .malformedText)] := by decide +kernel
  obtain ⟨told, hreported, -, -, hequal, -⟩ := undecodable_told hr hn
  exact ⟨hr, hn, told, hreported, (hequal hdots).trans hbytes⟩

end Reader

end FrontEnd
