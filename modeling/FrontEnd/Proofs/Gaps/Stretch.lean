import FrontEnd.Proofs.Gaps.Items
import FrontEnd.Proofs.Whole.Stream

/-!
# Stretches of a stream

A stream that goes on passes over items and tells some things about them. A `Stretch` leads from one
state of a stream to a later one and accounts for all of it: which items stand between the two, and what
has been told on the way, in order and each with the offset of the byte it is about. In particular every
item that cannot be decoded has been told once (`Account`).

Stretches compose (`Stretch.trans`), and the basic steps of a stream are such: going on to the next
character (`Sited.advance`), and passing over a run of characters or over a word.
-/

namespace FrontEnd

/-- Something that is told, with the offset of the byte it is about. -/
inductive Remark where
  | error (offset : Nat) (e : LexError)
  /-- a comment that may be a line directive, and where the next character after it stands -/
  | directive (start stop : Nat) (place : Place)
deriving DecidableEq, Repr

namespace Remark

/-- What is told. -/
def report (bytes : ByteArray) : Remark → Report
  | error _ e => .error e
  | directive start stop place => .directive place (Utf8.decodeLossy (bytes.extract start stop))

/-- The place that is told. -/
def place : Remark → Place
  | error _ e => e.place
  | directive _ _ place => place

/-- The offset of the first byte that it is about. -/
def offset : Remark → Nat
  | error offset _ => offset
  | directive start _ _ => start

/-- The fault of an item and its offset, if it is about one. -/
def decoding? : Remark → Option (Nat × LexFault)
  | error offset e => if e.fault.isDecoding then some (offset, e.fault) else none
  | directive .. => none

/-- The character that is rejected, if one is. -/
def rejected? : Remark → Option Char
  | error _ ⟨.unexpectedCharacter c, _⟩ => some c
  | _ => none

/-- It is about bytes from one offset up to another. A fault may be that of the character there. -/
def Within (lo hi : Nat) : Remark → Prop
  | error offset _ => lo ≤ offset ∧ offset ≤ hi
  | directive start stop _ => lo ≤ start ∧ start < stop ∧ stop ≤ hi

/-- It may be told before the other: a directive comes before all that is told of what is behind it, and
after all that is told of what is before its end. -/
def Precedes : Remark → Remark → Prop
  | directive _ stop _, other => stop ≤ other.offset
  | error offset _, directive _ stop _ => offset < stop
  | error .., error .. => True

/-- If the other is about something that cannot be decoded, it is not about an earlier offset. -/
def Ascends (x other : Remark) : Prop := other.decoding?.isSome → x.offset ≤ other.offset

variable {lo hi lo' hi' : Nat} {x y : Remark}

/-- What is within offsets is within wider ones. -/
theorem Within.mono (h : x.Within lo hi) (hlo : lo' ≤ lo) (hhi : hi ≤ hi') : x.Within lo' hi' := by
  cases x with
  | error => exact ⟨Nat.le_trans hlo h.1, Nat.le_trans h.2 hhi⟩
  | directive => exact ⟨Nat.le_trans hlo h.1, h.2.1, Nat.le_trans h.2.2 hhi⟩

/-- What is within offsets starts at the first of them or behind it. -/
theorem Within.le_offset (h : x.Within lo hi) : lo ≤ x.offset := by
  cases x <;> exact h.1

/-- What is within offsets starts at the last of them or before it. -/
theorem Within.offset_le (h : x.Within lo hi) : x.offset ≤ hi := by
  cases x with
  | error => exact h.2
  | directive => exact Nat.le_trans (Nat.le_of_lt h.2.1) h.2.2

/-- What is about earlier bytes may be told before. -/
theorem Within.precedes {mid : Nat} (h : x.Within lo mid) (h' : y.Within mid hi) : x.Precedes y := by
  cases x with
  | directive => exact Nat.le_trans h.2.2 h'.le_offset
  | error =>
    cases y with
    | error => exact trivial
    | directive => exact Nat.lt_of_le_of_lt (Nat.le_trans h.2 h'.1) h'.2.1

end Remark

/-- Only faults of items are told. -/
def Plain (told : List Remark) : Prop := ∀ x ∈ told, x.decoding?.isSome

/-- What is told on both of two stretches is about items only if it is on each. -/
theorem Plain.append {told told' : List Remark} (h : Plain told) (h' : Plain told') :
    Plain (told ++ told') := by
  intro x hx
  rcases List.mem_append.mp hx with hx | hx
  · exact h x hx
  · exact h' x hx

/-- Where nothing is told, nothing but faults of items is. -/
theorem plain_nil : Plain [] := fun _ hx => by cases hx

/-- If nothing is wrong, nothing is told. -/
theorem Plain.eq_nil {told : List Remark} (h : Plain told) (hnone : told.filterMap Remark.decoding? = []) :
    told = [] := by
  cases told with
  | nil => rfl
  | cons x told =>
    obtain ⟨y, hy⟩ := Option.isSome_iff_exists.mp (h x List.mem_cons_self)
    rw [List.filterMap_cons_some hy] at hnone
    cases hnone

/-- The items between two offsets, and what is told about them. As far as `exact` goes, the places that
are told are right. -/
structure Account (r : Reader) (bytes : ByteArray) (exact : Prop) (i : Nat) (fs : List Fetched)
    (told : List Remark) (j : Nat) : Prop where
  decodes : Decodes r bytes i fs j
  decoding_eq : told.filterMap Remark.decoding? = faultsFrom i fs
  located : exact → ∀ x ∈ told, x.place = .ofOffset bytes x.offset
  within : ∀ x ∈ told, x.Within i j
  ordered : told.Pairwise Remark.Precedes
  ascending : told.Pairwise Remark.Ascends

namespace Account

variable {r : Reader} {bytes : ByteArray} {exact exact' : Prop} {i j k : Nat} {fs gs : List Fetched}
  {told told' : List Remark}

/-- The account of nothing. -/
theorem nil (hi : i ≤ bytes.size) : Account r bytes exact i [] [] i :=
  ⟨.nil hi, rfl, fun _ _ hx => (List.not_mem_nil hx).elim, fun _ hx => (List.not_mem_nil hx).elim, .nil,
    .nil⟩

/-- Nothing is told of an item without a fault. -/
theorem silent {f : Fetched} (hseen : f.Seen r bytes i) (hfound : f.found) (hf : f.faultAt? i = none) :
    Account r bytes exact i [f] [] (i + f.width) := by
  refine ⟨.single hseen hfound, ?_, fun _ _ hx => (List.not_mem_nil hx).elim,
    fun _ hx => (List.not_mem_nil hx).elim, .nil, .nil⟩
  rw [faultsFrom, hf]
  rfl

/-- An account that is right about places is so where less is asked of them. -/
theorem mono (h : Account r bytes exact i fs told j) (hexact : exact' → exact) :
    Account r bytes exact' i fs told j :=
  { h with located := fun he => h.located (hexact he) }

/-- The accounts of two stretches that follow each other. -/
theorem append (h : Account r bytes exact i fs told j) (h' : Account r bytes exact j gs told' k) :
    Account r bytes exact i (fs ++ gs) (told ++ told') k where
  decodes := h.decodes.append h'.decodes
  decoding_eq := by
    rw [List.filterMap_append, h.decoding_eq, h'.decoding_eq, h.decodes.faultsFrom_append]
  located he x hx := (List.mem_append.mp hx).elim (h.located he x) (h'.located he x)
  within x hx :=
    (List.mem_append.mp hx).elim (fun hx => (h.within x hx).mono (Nat.le_refl _) h'.decodes.le)
      fun hx => (h'.within x hx).mono h.decodes.le (Nat.le_refl _)
  ordered := by
    refine List.pairwise_append.mpr ⟨h.ordered, h'.ordered, fun x hx y hy => ?_⟩
    exact (h.within x hx).precedes (h'.within y hy)
  ascending := by
    refine List.pairwise_append.mpr ⟨h.ascending, h'.ascending, fun x hx y hy _ => ?_⟩
    exact Nat.le_trans (h.within x hx).offset_le (h'.within y hy).le_offset

/-- Something else may be told of bytes that have been passed, or of the character behind them. -/
theorem remark (h : Account r bytes exact i fs told j) {x : Remark} (hx : x.decoding? = none)
    (hplace : exact → x.place = .ofOffset bytes x.offset) (hwithin : x.Within i j)
    (hordered : ∀ y ∈ told, y.Precedes x) : Account r bytes exact i fs (told ++ [x]) j where
  decodes := h.decodes
  -- The new remark is of no undecodable byte, so what is told of those stays as it was.
  decoding_eq := by
    rw [List.filterMap_append, h.decoding_eq, List.filterMap_cons_none hx, List.filterMap_nil,
      List.append_nil]
  located he y hy := by
    rcases List.mem_append.mp hy with hy | hy
    · exact h.located he y hy
    · rw [List.mem_singleton.mp hy]
      exact hplace he
  within y hy := by
    rcases List.mem_append.mp hy with hy | hy
    · exact h.within y hy
    · rw [List.mem_singleton.mp hy]
      exact hwithin
  ordered := by
    refine List.pairwise_append.mpr ⟨h.ordered, List.pairwise_singleton .., fun y hy z hz => ?_⟩
    rw [List.mem_singleton.mp hz]
    exact hordered y hy
  ascending := by
    refine List.pairwise_append.mpr ⟨h.ascending, List.pairwise_singleton .., fun y _ z hz hdecoding => ?_⟩
    rw [List.mem_singleton.mp hz, hx] at hdecoding
    cases hdecoding

end Account

namespace CharStream

variable {r : Reader} {bytes : ByteArray} {exact exact' : Prop} {seen : Nat} {c : Cursor}
  {s t u : CharStream Buffer}
  {fs gs : List Fetched} {told told' : List Remark}

/-- The stream has got its current character from right before the cursor, and the bytes before offset
`seen` have been delivered before. As far as `exact` goes, and on the first line, its place is right. -/
structure SitedAt (r : Reader) (bytes : ByteArray) (exact : Prop) (seen : Nat) (c : Cursor)
    (s : CharStream Buffer) : Prop where
  placed : s.Placed bytes r.bytesLeft none (exact ∨ s.line = 0) c
  draws : Buffer.Draws r seen s.window c
  misses : s.char? = some '\x00' →
    r.Misses bytes (s.offset r.bytesLeft) ∧ seen ≤ s.offset r.bytesLeft
  char?_ne : s.char? ≠ some byteOrderMark

/-- The same before the next character is fetched. A byte order mark is only next at the start if that
is on the first line. -/
structure Nearing (r : Reader) (bytes : ByteArray) (exact : Prop) (seen : Nat) (c : Cursor)
    (s : CharStream Buffer) : Prop where
  reached : s.Reached bytes r.bytesLeft none (exact ∨ s.line = 0) c
  draws : Buffer.Draws r seen s.window c
  start : c.offset = 0 → s.line = 0 ∨ bytes.utf8DecodeChar? 0 ≠ some byteOrderMark

/-- Between two states of a stream stand `fs`, and `told` has been told. -/
structure Stretch (r : Reader) (bytes : ByteArray) (exact : Prop) (s t : CharStream Buffer)
    (fs : List Fetched) (told : List Remark) : Prop where
  account : Account r bytes exact (s.offset r.bytesLeft) fs told (t.offset r.bytesLeft)
  reports_eq : t.reports.toList = s.reports.toList ++ told.map (Remark.report bytes)
  char?_eq : s.char? = (heard fs).head?.or t.char?

/-- Such a stretch on which the stream has only gone on: only faults of items have been told, and all
newlines have been counted. -/
structure Run (r : Reader) (bytes : ByteArray) (exact : Prop) (s t : CharStream Buffer)
    (fs : List Fetched) (told : List Remark) : Prop extends Stretch r bytes exact s t fs told where
  plain : Plain told
  line_eq : t.line = s.line + (heard fs).count '\n'

/-! ## Going on -/

/-- A stream tells what is wrong with an item as the item and its offset say. -/
theorem Nearing.fault?_eq (h : s.Nearing r bytes exact seen c) {f : Fetched}
    (hs : f.Stands bytes c.offset) : s.fault? f = f.faultAt? c.offset := by
  cases hs with
  | @char ch hd =>
    have hiff : (ch = byteOrderMark ∧ (0 < s.line ∨ 0 < s.column)) ↔
        (ch = byteOrderMark ∧ c.offset ≠ 0) := by
      refine and_congr_right fun hmark => ⟨fun hpos hzero => ?_, fun hne => ?_⟩
      · subst hmark
        rw [hzero] at hd
        have hline := (h.start hzero).resolve_right fun hn => hn hd
        have hplace := h.reached.place_eq (.inr hline)
        rw [hzero] at hplace
        have hcolumn : s.column + 1 = 1 := congrArg Place.column hplace
        omega
      · -- Only the first byte is at the start of the first line.
        apply Decidable.byContradiction
        intro hfirst
        have hzero : s.line = 0 ∧ s.column = 0 := by omega
        have hplace := h.reached.place_eq (.inr hzero.1)
        refine hne (Place.eq_zero_of_ofOffset h.reached.views.offset_le ?_)
        rw [← hplace]
        unfold place
        rw [hzero.1, hzero.2]
        rfl
    simp only [fault?, Fetched.faultAt?, Bool.and_eq_true, decide_eq_true_eq, Bool.or_eq_true, hiff]
  | nul => rfl
  | malformed => rfl
  | finished => rfl

/-- What a fetch finds stands there, and a NUL byte is only missed if it may be. -/
theorem Nearing.fetch (h : s.Nearing r bytes exact seen c) :
    s.window.fetch.1.Seen r bytes c.offset ∧
      Buffer.Draws r seen s.window.fetch.2 { c with offset := c.offset + s.window.fetch.1.width } ∧
      (s.window.fetch.1 = .char '\x00' → seen ≤ c.offset) := by
  obtain ⟨hstands, -⟩ := h.reached.views.fetch.resolve_right fun ⟨failure, ho, _⟩ => by cases ho
  have htracks := h.reached.views.tracks
  have hmisses (hf : s.window.fetch.1 = .char '\x00') : r.Misses bytes c.offset ∧ seen ≤ c.offset := by
    have hmisses := h.draws.misses htracks hf
    rw [h.reached.views.bytes_eq] at hmisses
    exact hmisses hstands
  exact ⟨⟨hstands, fun hf => (hmisses hf).1⟩, h.draws.fetch htracks, fun hf => (hmisses hf).2⟩

/-- What is told of an item that is passed over. -/
def remarkAt (s : CharStream Buffer) (i : Nat) (f : Fetched) : List Remark :=
  ((f.faultAt? i).map fun fault => Remark.error i ⟨fault, s.place⟩).toList

/-- An item is passed over and accounted for. -/
theorem Nearing.account (h : s.Nearing r bytes exact seen c) (hp : passedOver s.window.fetch.1) :
    Account r bytes exact c.offset [s.window.fetch.1] (s.remarkAt c.offset s.window.fetch.1)
        (c.offset + s.window.fetch.1.width) ∧ Plain (s.remarkAt c.offset s.window.fetch.1) := by
  obtain ⟨hseen, -⟩ := h.fetch
  have hfound := found_of_passedOver hp
  have hpos := Fetched.width_pos hfound
  generalize s.window.fetch.1 = f at hseen hfound hpos
  unfold remarkAt
  -- A byte passed over either counts as a fault, which is the one remark, or it leaves no remark.
  cases hf : f.faultAt? c.offset with
  | none =>
    exact ⟨.silent hseen hfound hf, plain_nil⟩
  | some fault =>
    have hdecoding := isDecoding_of_faultAt? hf
    have hremark : (Remark.error c.offset ⟨fault, s.place⟩).decoding? = some (c.offset, fault) :=
      if_pos hdecoding
    refine ⟨⟨.single hseen hfound, ?_, ?_, ?_, List.pairwise_singleton .., List.pairwise_singleton ..⟩, ?_⟩
    · rw [faultsFrom, hf]
      simp [hremark, faultsFrom]
    · intro he x hx
      rw [Option.map_some, Option.toList_some, List.mem_singleton] at hx
      rw [hx]
      exact h.reached.place_eq (.inl he)
    · intro x hx
      rw [Option.map_some, Option.toList_some, List.mem_singleton] at hx
      rw [hx]
      exact ⟨Nat.le_refl _, Nat.le_add_right ..⟩
    · intro x hx
      rw [Option.map_some, Option.toList_some, List.mem_singleton] at hx
      rw [hx, hremark]
      rfl

/-- Behind an item that is passed over, the next character is still to be fetched. -/
theorem Nearing.pass (h : s.Nearing r bytes exact seen c) (hp : passedOver s.window.fetch.1) :
    (s.receive s.window.fetch).passChar.Nearing r bytes exact seen
      { c with offset := c.offset + s.window.fetch.1.width } := by
  have hpos := Fetched.width_pos (found_of_passedOver hp)
  refine ⟨(h.reached.pass hp).mono fun he => he.imp_right fun hl => ?_, ?_, fun hzero => ?_⟩
  · rw [← line_receive s s.window.fetch]
    exact line_eq_zero_of_passChar hl
  · rw [window_passChar, window_receive]
    exact h.fetch.2.1
  · dsimp only at hzero
    omega

/-- What is reported when an item is passed over is what is told of it. -/
theorem reports_pass (h : s.Nearing r bytes exact seen c) :
    (s.receive s.window.fetch).passChar.reports.toList = s.reports.toList ++
      (s.remarkAt c.offset s.window.fetch.1).map (Remark.report bytes) := by
  rw [reports_passChar, reports_receive, h.fault?_eq h.fetch.1.stands]
  unfold remarkAt
  cases s.window.fetch.1.faultAt? c.offset <;> rfl

/-- What is not passed over becomes the current character. -/
theorem Nearing.receive (h : s.Nearing r bytes exact seen c) (hp : ¬passedOver s.window.fetch.1) :
    (s.receive s.window.fetch).SitedAt r bytes exact seen
        { c with offset := c.offset + s.window.fetch.1.width } ∧
      (s.receive s.window.fetch).offset r.bytesLeft = c.offset ∧
      (s.receive s.window.fetch).reports.toList = s.reports.toList := by
  have hplaced := (h.reached.receive hp).resolve_right (not_fails_none _)
  have hoffset : (s.receive s.window.fetch).offset r.bytesLeft = c.offset := by
    rw [hplaced.offset_eq, width_receive]
    exact Nat.add_sub_cancel ..
  obtain ⟨hseen, hdraws, hfresh⟩ := h.fetch
  refine ⟨⟨hplaced.mono fun he => he.imp_right fun hl => ?_, ?_, fun hc => ?_, fun hc => hp ?_⟩,
    hoffset, ?_⟩
  · rw [← line_receive s s.window.fetch]
    exact hl
  · rw [window_receive]
    exact hdraws
  · rw [hoffset]
    rw [char?_receive] at hc
    -- What is delivered as U+0000 is a NUL that escaped notice: a decoded character, not a `nul`.
    have hf : s.window.fetch.1 = .char '\x00' := by
      generalize s.window.fetch.1 = f at hc hp
      cases f with
      | char ch =>
        cases hc
        rfl
      | nul => exact absurd rfl hp
      | malformed => exact absurd rfl hp
      | finished => cases hc
    exact ⟨hseen.misses hf, hfresh hf⟩
  · rw [char?_receive] at hc
    generalize s.window.fetch.1 = f at hc
    cases f with
    | char ch =>
      cases hc
      rfl
    | nul => rfl
    | malformed => rfl
    | finished => cases hc
  · -- Only what is passed over counts as a fault.
    have hnone : s.fault? s.window.fetch.1 = none := by
      rw [h.fault?_eq hseen.stands]
      have hstands := hseen.stands
      generalize s.window.fetch.1 = f at hp hstands
      cases f with
      | char ch => exact Fetched.faultAt?_char hp _
      | nul => exact absurd rfl hp
      | malformed => exact absurd rfl hp
      | finished => rfl
    rw [reports_receive, hnone]
    exact List.append_nil _

/-- On the way to the next character all items are passed over. -/
theorem Nearing.seek (h : s.Nearing r bytes exact seen c) : ∃ fs told n,
    s.seek.SitedAt r bytes exact seen { c with offset := c.offset + n } ∧
      Account r bytes exact c.offset fs told (s.seek.offset r.bytesLeft) ∧
      s.seek.reports.toList = s.reports.toList ++ told.map (Remark.report bytes) ∧
      heard fs = [] ∧ Plain told := by
  -- Along the loop: each byte passed over is accounted for, and the exit hears nothing yet.
  fun_induction CharStream.seek s generalizing c with
  | case1 s hp ih =>
    obtain ⟨fs, told, n, hsited, haccount, hreports, hheard, hplain⟩ := ih (h.pass hp)
    obtain ⟨hfirst, hfirstPlain⟩ := h.account hp
    dsimp only at hsited
    rw [Nat.add_assoc] at hsited
    refine ⟨_ :: fs, _ ++ told, _, hsited, hfirst.append haccount, ?_, ?_, hfirstPlain.append hplain⟩
    · rw [List.map_append, ← List.append_assoc, ← reports_pass h]
      exact hreports
    · exact (List.filterMap_cons_none (Fetched.heard?_eq_none hp)).trans hheard
  | case2 s hp =>
    obtain ⟨hsited, hoffset, hreports⟩ := h.receive hp
    refine ⟨[], [], _, hsited, ?_, hreports.trans (List.append_nil _).symm, rfl, plain_nil⟩
    have hnil : Account r bytes exact c.offset [] [] c.offset := .nil h.reached.views.offset_le
    exact hoffset ▸ hnil

namespace SitedAt

/-- The current character starts within the input. -/
theorem offset_le (h : s.SitedAt r bytes exact seen c) : s.offset r.bytesLeft ≤ bytes.size := by
  rw [h.placed.offset_eq]
  exact Nat.le_trans (Nat.sub_le ..) h.placed.views.offset_le

/-- A stream is sited where less is asked of its place. -/
theorem mono (h : s.SitedAt r bytes exact seen c) (hexact : exact' → exact) :
    s.SitedAt r bytes exact' seen c :=
  { h with placed := h.placed.mono fun he => he.imp_left hexact }

/-- The place of the current character is that of its offset. -/
theorem place_eq (h : s.SitedAt r bytes exact seen c) (he : exact) :
    s.place = .ofOffset bytes (s.offset r.bytesLeft) := by
  rw [h.placed.offset_eq]
  exact h.placed.place_eq (.inl he)

/-- A report does not move a stream. -/
theorem report (h : s.SitedAt r bytes exact seen c) (x : Report) :
    (s.report x).SitedAt r bytes exact seen c :=
  ⟨h.placed.report x, h.draws, h.misses, h.char?_ne⟩

/-- Forgetting the reports does not move a stream. -/
theorem dropReports (h : s.SitedAt r bytes exact seen c) :
    s.dropReports.SitedAt r bytes exact seen c :=
  ⟨h.placed.dropReports, h.draws, h.misses, h.char?_ne⟩

/-- A mark is set at the current character. -/
theorem setMark (h : s.SitedAt r bytes exact seen c) :
    s.setMark.SitedAt r bytes exact seen { c with mark? := some (s.offset r.bytesLeft) } := by
  rw [h.placed.offset_eq]
  exact ⟨h.placed.setMark, h.draws, h.misses, h.char?_ne⟩

/-- Giving up the mark does not move a stream. -/
theorem clearMark (h : s.SitedAt r bytes exact seen c) :
    s.clearMark.SitedAt r bytes exact seen { c with mark? := none } :=
  ⟨h.placed.clearMark, h.draws, h.misses, h.char?_ne⟩

/-- The current character stands at the offset in the input. -/
theorem stands (h : s.SitedAt r bytes exact seen c) : s.current.Stands bytes (s.offset r.bytesLeft) := by
  rw [h.placed.offset_eq]
  exact h.placed.stands

/-- The cursor is behind the current character. -/
theorem offset_add_width (h : s.SitedAt r bytes exact seen c) :
    s.offset r.bytesLeft + s.current.width = c.offset := by
  have hle := h.placed.width_le_offset
  rw [h.placed.offset_eq, ← h.placed.width_eq]
  omega

/-- The current character has been decoded. -/
theorem current_eq {ch : Char} (hc : s.char? = some ch) : s.current = .char ch := by
  unfold current
  rw [hc]
  rfl

/-- The current character is heard. -/
theorem heard_current (h : s.SitedAt r bytes exact seen c) {ch : Char} (hc : s.char? = some ch) :
    heard [s.current] = [ch] := by
  rw [current_eq hc]
  refine List.filterMap_cons_some (if_neg fun hmark => h.char?_ne ?_)
  rw [hc, hmark]

/-- At the end of the bytes there is no character. -/
theorem char?_of_end (h : s.SitedAt r bytes exact seen c) (he : s.offset r.bytesLeft = bytes.size) :
    s.char? = none := by
  cases hc : s.char? with
  | none => rfl
  | some ch =>
    have hstands := h.stands
    rw [current_eq hc, he] at hstands
    cases hstands with
    | char hd =>
      have hlt := ByteArray.lt_size_of_isSome_utf8DecodeChar? (by rw [hd]; rfl)
      exact absurd hlt (Nat.lt_irrefl _)

/-- Behind the current character, the next one is still to be fetched. -/
theorem passChar (h : s.SitedAt r bytes exact seen c) : s.passChar.Nearing r bytes exact seen c := by
  refine ⟨h.placed.passChar.mono fun he => he.imp_right line_eq_zero_of_passChar, ?_, fun hzero => ?_⟩
  · rw [window_passChar]
    exact h.draws
  · have hcurrent := h.offset_add_width
    right
    cases hc : s.char? with
    | some ch =>
      rw [current_eq hc] at hcurrent
      have hpos : 0 < (Fetched.char ch).width := ch.utf8Size_pos
      omega
    | none =>
      -- Without a character there are no bytes at all.
      have hend := h.placed.offset_of_end hc
      have hempty : bytes.size = 0 := by omega
      intro hd
      have hlt := ByteArray.lt_size_of_isSome_utf8DecodeChar? (by rw [hd]; rfl)
      omega

/-- A stream that goes on counts the newline that it passes. -/
theorem line_advance (s : CharStream Buffer) :
    s.advance.line = s.line + s.char?.toList.count '\n' := by
  rw [CharStream.advance, line_seek]
  unfold CharStream.passChar
  split
  · next hc =>
    rw [hc]
    rfl
  · next hc =>
    cases hch : s.char? with
    | none => rfl
    | some ch =>
      have hne : ch ≠ '\n' := fun hn => hc (by rw [hch, hn])
      simp [hne]

/-- From a character, a stream goes on to the next one. At the end it stays. -/
theorem advance (h : s.SitedAt r bytes exact seen c) : ∃ fs told n,
    s.advance.SitedAt r bytes exact seen { c with offset := c.offset + n } ∧
      Run r bytes exact s s.advance fs told ∧ heard fs = s.char?.toList := by
  obtain ⟨fs, told, n, hsited, haccount, hreports, hheard, hplain⟩ := h.passChar.seek
  have hoffset := h.offset_add_width
  rw [show s.passChar.seek = s.advance from rfl] at hsited haccount hreports
  rw [reports_passChar] at hreports
  cases hc : s.char? with
  | some ch =>
    have hcurrent := current_eq hc
    have hseen : s.current.Seen r bytes (s.offset r.bytesLeft) :=
      ⟨h.stands, fun hz => (h.misses (by rw [hc, Fetched.char.inj (hcurrent.symm.trans hz)])).1⟩
    have hfirst : Account r bytes exact (s.offset r.bytesLeft) [s.current] [] c.offset := by
      have hfault : s.current.faultAt? (s.offset r.bytesLeft) = none := by
        rw [hcurrent]
        exact if_neg fun hmark => h.char?_ne (by rw [hc, hmark.1])
      rw [← hoffset]
      exact .silent hseen (by rw [hcurrent]; rfl) hfault
    have hall : heard (s.current :: fs) = [ch] := by
      rw [← List.singleton_append, heard_append, hheard, h.heard_current hc]
      rfl
    refine ⟨s.current :: fs, told, n, hsited, ⟨⟨hfirst.append haccount, hreports, ?_⟩, hplain, ?_⟩, hall⟩
    · rw [hall, hc]
      rfl
    · rw [line_advance, hc, hall]
      rfl
  | none =>
    -- Nothing stands behind the end.
    have hend := h.placed.offset_of_end hc
    have hcurrent : s.current = .finished none := by
      unfold current
      rw [hc]
      rfl
    rw [hcurrent] at hoffset
    have hstart : c.offset = s.offset r.bytesLeft := hoffset.symm
    rw [hstart] at haccount
    have hle := haccount.decodes.le
    have hsize := haccount.decodes.le_size
    have hsame : s.advance.offset r.bytesLeft = bytes.size := by omega
    have hfs : fs = [] := by
      generalize s.advance.offset r.bytesLeft = j at haccount hsize
      cases haccount.decodes with
      | nil => rfl
      | cons hseen hfound hrest =>
        have := hrest.le
        have := Fetched.width_pos hfound
        omega
    subst hfs
    refine ⟨[], told, n, hsited, ⟨⟨haccount, hreports, ?_⟩, hplain, ?_⟩, hheard⟩
    · rw [hc, hsited.char?_of_end hsame]
      rfl
    · rw [line_advance, hc]
      rfl

end SitedAt

/-- The stream is sited somewhere, with the mark there. -/
def Sited (r : Reader) (bytes : ByteArray) (exact : Prop) (mark? : Option Nat) (s : CharStream Buffer) :
    Prop :=
  ∃ c, s.SitedAt r bytes exact 0 c ∧ c.mark? = mark?

/-- One stretch after another. -/
theorem Stretch.trans (h : Stretch r bytes exact s t fs told) (h' : Stretch r bytes exact t u gs told') :
    Stretch r bytes exact s u (fs ++ gs) (told ++ told') where
  account := h.account.append h'.account
  reports_eq := by rw [h'.reports_eq, h.reports_eq, List.map_append, List.append_assoc]
  char?_eq := by
    rw [h.char?_eq, h'.char?_eq, heard_append, List.head?_append, Option.or_assoc]

/-- One run after another. -/
theorem Run.trans (h : Run r bytes exact s t fs told) (h' : Run r bytes exact t u gs told') :
    Run r bytes exact s u (fs ++ gs) (told ++ told') where
  toStretch := h.toStretch.trans h'.toStretch
  plain := h.plain.append h'.plain
  line_eq := by rw [h'.line_eq, h.line_eq, heard_append, List.count_append, Nat.add_assoc]

/-! The mark is no part of a stretch. -/

/-- A stretch starts at a stream with a mark as well as without. -/
theorem Stretch.ofClearMark (h : Stretch r bytes exact s.clearMark t fs told) :
    Stretch r bytes exact s t fs told :=
  ⟨h.account, h.reports_eq, h.char?_eq⟩

/-- A mark may be set where a stretch ends. -/
theorem Stretch.setMark (h : Stretch r bytes exact s t fs told) :
    Stretch r bytes exact s t.setMark fs told :=
  ⟨h.account, h.reports_eq, h.char?_eq⟩

/-- A mark may be given up where a run ends. -/
theorem Run.clearMark (h : Run r bytes exact s t fs told) : Run r bytes exact s t.clearMark fs told :=
  ⟨⟨h.account, h.reports_eq, h.char?_eq⟩, h.plain, h.line_eq⟩

namespace Sited

variable {mark? : Option Nat}

/-- A stream is sited where less is asked of its place. -/
theorem mono (h : s.Sited r bytes exact mark?) (hexact : exact' → exact) :
    s.Sited r bytes exact' mark? := by
  obtain ⟨c, hc, hm⟩ := h
  exact ⟨c, hc.mono hexact, hm⟩

/-- The current character starts within the input. -/
theorem offset_le (h : s.Sited r bytes exact mark?) : s.offset r.bytesLeft ≤ bytes.size := by
  obtain ⟨c, hc, -⟩ := h
  exact hc.offset_le

/-- The place of the current character is that of its offset. -/
theorem place_eq (h : s.Sited r bytes exact mark?) (he : exact) :
    s.place = .ofOffset bytes (s.offset r.bytesLeft) := by
  obtain ⟨c, hc, -⟩ := h
  exact hc.place_eq he

/-- At the end there are no more bytes. -/
theorem offset_of_end (h : s.Sited r bytes exact mark?) (hc : s.char? = none) :
    s.offset r.bytesLeft = bytes.size := by
  obtain ⟨c, h, -⟩ := h
  exact h.placed.offset_of_end hc

/-- What is decoded where the stream is, is its current character. -/
theorem utf8DecodeChar?_eq (h : s.Sited r bytes exact mark?) :
    bytes.utf8DecodeChar? (s.offset r.bytesLeft) = s.char? := by
  cases hc : s.char? with
  | none =>
    cases hd : bytes.utf8DecodeChar? (s.offset r.bytesLeft) with
    | none => rfl
    | some ch =>
      have hlt := ByteArray.lt_size_of_isSome_utf8DecodeChar? (by rw [hd]; rfl :
        (bytes.utf8DecodeChar? (s.offset r.bytesLeft)).isSome)
      rw [h.offset_of_end hc] at hlt
      exact absurd hlt (Nat.lt_irrefl _)
  | some ch =>
    obtain ⟨c, hsited, -⟩ := h
    have hstands := hsited.stands
    rw [SitedAt.current_eq hc] at hstands
    cases hstands with
    | char hd => exact hd

/-- A report does not move a stream. -/
theorem report (h : s.Sited r bytes exact mark?) (x : Report) :
    (s.report x).Sited r bytes exact mark? := by
  obtain ⟨c, hc, hm⟩ := h
  exact ⟨c, hc.report x, hm⟩

/-- Forgetting the reports does not move a stream. -/
theorem dropReports (h : s.Sited r bytes exact mark?) : s.dropReports.Sited r bytes exact mark? := by
  obtain ⟨c, hc, hm⟩ := h
  exact ⟨c, hc.dropReports, hm⟩

/-- A mark is set at the current character. -/
theorem setMark (h : s.Sited r bytes exact mark?) :
    s.setMark.Sited r bytes exact (some (s.offset r.bytesLeft)) := by
  obtain ⟨c, hc, -⟩ := h
  exact ⟨_, hc.setMark, rfl⟩

/-- Without its mark, a stream is where it was. -/
theorem clearMark (h : s.Sited r bytes exact mark?) : s.clearMark.Sited r bytes exact none := by
  obtain ⟨c, hc, -⟩ := h
  exact ⟨_, hc.clearMark, rfl⟩

/-- The bytes since the mark. -/
theorem marked_eq (h : s.Sited r bytes exact mark?) :
    s.marked = mark?.elim .empty fun m => bytes.extract m (s.offset r.bytesLeft) := by
  obtain ⟨c, hc, rfl⟩ := h
  rw [hc.placed.marked_eq, hc.placed.offset_eq]
  cases c.mark? <;> rfl

/-- A stream that has not gone on has passed over nothing. -/
theorem refl (h : s.Sited r bytes exact mark?) : Run r bytes exact s s [] [] :=
  ⟨⟨.nil h.offset_le, (List.append_nil _).symm, rfl⟩, plain_nil, rfl⟩

/-- From a character, a stream goes on to the next one. At the end it stays. -/
theorem advance (h : s.Sited r bytes exact mark?) : ∃ fs told,
    s.advance.Sited r bytes exact mark? ∧ Run r bytes exact s s.advance fs told ∧
      heard fs = s.char?.toList := by
  obtain ⟨c, hc, hm⟩ := h
  obtain ⟨fs, told, n, hsited, hrun, hheard⟩ := hc.advance
  exact ⟨fs, told, ⟨_, hsited, hm⟩, hrun, hheard⟩

/-- A run of characters is passed over as far as it goes. -/
theorem skipWhile (h : s.Sited r bytes exact mark?) (p : Char → Bool) : ∃ fs told,
    (s.skipWhile p).Sited r bytes exact mark? ∧ Run r bytes exact s (s.skipWhile p) fs told ∧
      (∀ ch ∈ heard fs, p ch) ∧ (s.skipWhile p).char?.any p = false := by
  fun_induction CharStream.skipWhile p s with
  | case1 s hp ih =>
    obtain ⟨fs, told, hsited, hrun, hheard⟩ := h.advance
    obtain ⟨gs, told', hsited', hrun', hall, hstop⟩ := ih hsited
    refine ⟨_, _, hsited', hrun.trans hrun', fun ch hch => ?_, hstop⟩
    rw [heard_append, List.mem_append, hheard, Option.mem_toList] at hch
    rcases hch with hch | hch
    · rw [hch] at hp
      exact hp
    · exact hall ch hch
  | case2 s hp =>
    exact ⟨[], [], h, h.refl, fun ch hch => (List.not_mem_nil hch).elim, by simpa using hp⟩

/-- As far as a word comes next, its characters are passed over. -/
theorem accept (h : s.Sited r bytes exact mark?) (word : List Char) : ∃ fs told,
    (CharStream.accept word s).2.Sited r bytes exact mark? ∧
      Run r bytes exact s (CharStream.accept word s).2 fs told ∧
      if (CharStream.accept word s).1 then heard fs = word
      else ∃ c rest, word = heard fs ++ c :: rest ∧ (CharStream.accept word s).2.char? ≠ some c := by
  -- By the word; it stops at the first character that is not the expected one.
  induction word generalizing s with
  | nil => exact ⟨[], [], h, h.refl, rfl⟩
  | cons c word ih =>
    unfold CharStream.accept
    split
    · next hc =>
      obtain ⟨fs, told, hsited, hrun, hheard⟩ := h.advance
      obtain ⟨gs, told', hsited', hrun', hrest⟩ := ih hsited
      rw [hc] at hheard
      have happend : heard (fs ++ gs) = c :: heard gs := by
        rw [heard_append, hheard]
        rfl
      refine ⟨_, _, hsited', hrun.trans hrun', ?_⟩
      rw [happend]
      split
      · next ha =>
        rw [if_pos ha] at hrest
        rw [hrest]
      · next ha =>
        rw [if_neg ha] at hrest
        obtain ⟨d, rest, hword, hne⟩ := hrest
        exact ⟨d, rest, congrArg (c :: ·) hword, hne⟩
    · next hc => exact ⟨[], [], h, h.refl, c, word, rfl, hc⟩

end Sited

end CharStream

end FrontEnd
