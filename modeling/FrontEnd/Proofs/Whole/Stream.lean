import FrontEnd.Proofs.Lexemes
import FrontEnd.Proofs.Places.Stream
import FrontEnd.Proofs.Whole.Text

/-!
# Streams that have nothing to complain about

As long as nothing is wrong (`NoFault`), all that a stream has taken from its reader is text
(`Clean`). This holds of the bytes that are passed over, too: all but a byte order mark at the very
start are complained about. Whatever a scanner does, it stays so (`finding_clean`).
-/

namespace FrontEnd

namespace CharStream

/-- No fault is reported. -/
def NoFault {ω : Type} (s : CharStream ω) : Prop := ∀ e, .error e ∉ s.reports

section

variable {ω : Type} {s : CharStream ω}

/-- Where no fault is reported, none has been before. -/
theorem NoFault.of_report {r : Report} (h : (s.report r).NoFault) : s.NoFault :=
  fun e he => h e (Array.mem_push_of_mem _ he)

/-- Nothing is wrong with what has been fetched, and nothing was before. -/
theorem NoFault.of_receive {fetched : Fetched × ω} (h : (s.receive fetched).NoFault) :
    s.fault? fetched.1 = none ∧ s.NoFault := by
  unfold receive at h
  dsimp only at h
  cases hf : s.fault? fetched.1 with
  | some fault =>
    rw [hf] at h
    exact absurd Array.mem_push_self (h _)
  | none =>
    rw [hf] at h
    refine ⟨rfl, ?_⟩
    rcases fetched with ⟨_ | _ | _ | _, _⟩ <;> exact h

variable [ByteWindow ω]

/-- Where no fault is reported after the next character, none has been before. -/
theorem NoFault.of_seek (h : s.seek.NoFault) : s.NoFault := by
  fun_induction CharStream.seek s with
  | case1 s hp ih =>
    have hpass := ih h
    unfold NoFault at hpass
    rw [reports_passChar] at hpass
    exact (of_receive hpass).2
  | case2 s hp => exact (of_receive h).2

/-- Where no fault is reported after going on, none has been before. -/
theorem NoFault.of_advance (h : s.advance.NoFault) : s.NoFault := by
  have := h.of_seek
  unfold NoFault at this
  rwa [reports_passChar] at this

end

variable {bytes : ByteArray} {total : Nat} {outcome : Option ReadFailure} {c : Cursor}
  {s : CharStream Buffer}

/-- All bytes that have been taken are text, and the mark is among them. On the first line, the place
is right. -/
structure Clean (bytes : ByteArray) (total : Nat) (outcome : Option ReadFailure) (c : Cursor)
    (s : CharStream Buffer) : Prop where
  placed : s.Placed bytes total outcome (s.line = 0) c
  before : TextUpTo bytes (c.offset - s.width)
  through : TextUpTo bytes c.offset
  mark : ∀ m, c.mark? = some m → m ≤ c.offset - s.width ∧ TextUpTo bytes m

/-- The same before the next character is fetched. -/
structure Clear (bytes : ByteArray) (total : Nat) (outcome : Option ReadFailure) (c : Cursor)
    (s : CharStream Buffer) : Prop where
  reached : s.Reached bytes total outcome (s.line = 0) c
  through : TextUpTo bytes c.offset
  mark : ∀ m, c.mark? = some m → m ≤ c.offset ∧ TextUpTo bytes m

/-- A stream has got where less is asked of its place. -/
theorem Reached.mono {exact exact' : Prop} (h : s.Reached bytes total outcome exact c)
    (hexact : exact' → exact) : s.Reached bytes total outcome exact' c :=
  ⟨h.views, fun he => h.place_eq (hexact he)⟩

/-- Lines are counted up. -/
theorem line_le_passChar (s : CharStream Buffer) : s.line ≤ s.passChar.line := by
  unfold CharStream.passChar
  split
  · exact Nat.le_succ _
  · exact Nat.le_refl _

/-- What is still on the first line has always been there. -/
theorem line_eq_zero_of_passChar (h : s.passChar.line = 0) : s.line = 0 :=
  Nat.le_zero.mp (h ▸ s.line_le_passChar)

/-- Counting the character keeps a stream clean. -/
theorem Clean.passChar (h : s.Clean bytes total outcome c) :
    s.passChar.Clear bytes total outcome c where
  reached := h.placed.passChar.mono line_eq_zero_of_passChar
  through := h.through
  mark m hm := ⟨Nat.le_trans (h.mark m hm).1 (Nat.sub_le ..), (h.mark m hm).2⟩

/-- Without a complaint, only a byte order mark at the very start is passed over. -/
theorem Clear.stands_mark (h : s.Clear bytes total outcome c) (hp : passedOver s.window.fetch.1)
    (hf : s.fault? s.window.fetch.1 = none) (hs : s.window.fetch.1.Stands bytes c.offset) :
    c.offset = 0 ∧ s.window.fetch.1 = .char byteOrderMark ∧
      bytes.utf8DecodeChar? c.offset = some byteOrderMark := by
  have hsize := h.reached.views.offset_le
  generalize s.window.fetch.1 = f at hp hf hs
  cases hs with
  | char hd =>
    have hmark : _ = byteOrderMark := of_decide_eq_true hp
    subst hmark
    -- A mark that is no fault stands where line and column are both zero, which is the start only.
    have hfirst : s.line = 0 ∧ s.column = 0 := by
      simp [fault?] at hf
      omega
    have hplace := h.reached.place_eq hfirst.1
    have hzero : Place.ofOffset bytes c.offset = .first := by
      rw [← hplace]
      unfold place
      rw [hfirst.1, hfirst.2]
      rfl
    exact ⟨Place.eq_zero_of_ofOffset hsize hzero, rfl, hd⟩
  | nul => cases hf
  | malformed => cases hf
  | finished => cases hp

/-- What is passed over without a complaint is text as well. -/
theorem Clear.pass (h : s.Clear bytes total outcome c) (hp : passedOver s.window.fetch.1)
    (hn : (s.receive s.window.fetch).NoFault) :
    (s.receive s.window.fetch).passChar.Clear bytes total outcome
      { c with offset := c.offset + s.window.fetch.1.width } := by
  have hfound := found_of_passedOver hp
  obtain ⟨hstands, -⟩ := h.reached.views.fetch.resolve_right fun ⟨failure, _, hf⟩ => by
    rw [hf] at hfound
    cases hfound
  obtain ⟨hzero, hmark, hd⟩ := h.stands_mark hp hn.of_receive.1 hstands
  have hline : (s.receive s.window.fetch).line = s.line :=
    Nat.succ.inj (congrArg Place.line (place_receive s s.window.fetch))
  refine ⟨(h.reached.pass hp).mono fun he => ?_, ?_, fun m hm => ?_⟩
  · rw [← hline]
    exact line_eq_zero_of_passChar he
  · rw [hmark]
    exact .step h.through hd fun _ => hzero
  · exact ⟨Nat.le_trans (h.mark m hm).1 (Nat.le_add_right ..), (h.mark m hm).2⟩

/-- What becomes the current character is text. -/
theorem Clear.receive (h : s.Clear bytes total outcome c) (hp : ¬passedOver s.window.fetch.1)
    (hn : (s.receive s.window.fetch).NoFault) :
    (s.receive s.window.fetch).Clean bytes total outcome
      { c with offset := c.offset + s.window.fetch.1.width } := by
  have hline : (s.receive s.window.fetch).line = s.line :=
    Nat.succ.inj (congrArg Place.line (place_receive s s.window.fetch))
  have hback : c.offset + s.window.fetch.1.width - (s.receive s.window.fetch).width = c.offset := by
    rw [width_receive]
    exact Nat.add_sub_cancel ..
  have hplaced := (h.reached.receive hp).resolve_right fun ⟨failure, place, _, he⟩ => hn _ he
  refine ⟨hplaced.mono fun he => hline ▸ he, ?_, ?_, fun m hm => ?_⟩
  · dsimp only
    rw [hback]
    exact h.through
  · have hstands := hplaced.stands
    have hwidth := hplaced.width_eq
    dsimp only at hstands
    rw [hback] at hstands
    rw [width_receive] at hwidth
    dsimp only
    rw [hwidth]
    -- What was received is not passed over, being what was fetched.
    have hcurrent : ¬passedOver (s.receive s.window.fetch).current := by
      unfold current
      cases hc : (s.receive s.window.fetch).char? with
      | none => exact Bool.noConfusion
      | some ch =>
        rw [char?_receive] at hc
        intro hpassed
        apply hp
        generalize s.window.fetch.1 = f at hc
        cases f with
        | char ch' =>
          cases hc
          exact hpassed
        | nul => rfl
        | malformed => rfl
        | finished failure? => cases hc
    generalize (s.receive s.window.fetch).current = f at hstands hcurrent
    -- Without a fault it is a character other than a mark, or the end.
    cases hstands with
    | char hd => exact .step h.through hd fun hmark => absurd (decide_eq_true hmark) hcurrent
    | nul => exact absurd rfl hcurrent
    | malformed => exact absurd rfl hcurrent
    | finished => exact h.through
  · dsimp only
    rw [hback]
    exact h.mark m hm

/-- Fetching the next character keeps a stream clean, if there is no fault. -/
theorem Clear.seek (h : s.Clear bytes total outcome c) (hn : s.seek.NoFault) :
    ∃ n, s.seek.Clean bytes total outcome { c with offset := c.offset + n } := by
  fun_induction CharStream.seek s generalizing c with
  | case1 s hp ih =>
    have hpass := hn.of_seek
    unfold NoFault at hpass
    rw [reports_passChar] at hpass
    obtain ⟨n, hclean⟩ := ih (h.pass hp hpass) hn
    dsimp only at hclean
    rw [Nat.add_assoc] at hclean
    exact ⟨_, hclean⟩
  | case2 s hp => exact ⟨_, h.receive hp hn⟩

/-- Going on keeps a stream clean, if there is no fault. -/
theorem Clean.advance (h : s.Clean bytes total outcome c) (hn : s.advance.NoFault) :
    ∃ n, s.advance.Clean bytes total outcome { c with offset := c.offset + n } :=
  h.passChar.seek hn

/-! ## Whatever a scanner does -/

/-- Going back does not count a line back. -/
theorem line_le_rewound (s : CharStream Buffer) : s.line ≤ s.rewound.line := by
  unfold rewound CharStream.passChar
  split
  · exact Nat.le_succ _
  · exact Nat.le_refl _

/-- Back at the mark, the stream is among text. -/
theorem Clean.rewound (h : s.Clean bytes total outcome c) :
    ∃ m, s.rewound.Clear bytes total outcome { c with offset := m } := by
  have hzero (he : s.rewound.line = 0) : s.line = 0 := Nat.le_zero.mp (he ▸ s.line_le_rewound)
  have hmark : c.mark? = none ∨ ∃ m, c.mark? = some m := by cases c.mark? <;> simp
  rcases hmark with hm | ⟨m, hm⟩
  · refine ⟨c.offset, (h.placed.rewound_of_unmarked hm).mono hzero, h.through, ?_⟩
    intro m hm'
    change c.mark? = some m at hm'
    rw [hm] at hm'
    cases hm'
  · obtain ⟨hle, htext⟩ := h.mark m hm
    -- On the first line, the mark is on it as well.
    have hline (he : s.line = 0) : s.place.line = (Place.ofOffset bytes m).line := by
      have hsize := h.before.le_size
      have hmono := Place.line_ofOffset_mono hle hsize
      rw [← h.placed.place_eq he] at hmono
      have hone : s.place.line = 1 := by
        unfold place
        rw [he]
      have hpos := Place.line_ofOffset_pos bytes m
      omega
    have hnewline (he : s.rewound.line = 0) : s.char? ≠ some '\n' := by
      intro hc
      unfold CharStream.rewound CharStream.passChar at he
      rw [if_pos hc] at he
      cases he
    refine ⟨m, (h.placed.rewound hm hle hline).mono fun he => ⟨hzero he, hnewline he⟩, htext, ?_⟩
    intro m' hm'
    change c.mark? = some m' at hm'
    rw [hm] at hm'
    cases hm'
    exact ⟨Nat.le_refl _, htext⟩

/-- As long as there is no fault, and there was none before, the stream is clean. -/
def CleanIf (bytes : ByteArray) (total : Nat) (outcome : Option ReadFailure) (prior : Prop)
    (s : CharStream Buffer) : Prop :=
  prior → s.NoFault → ∃ c, s.Clean bytes total outcome c

/-- Whatever a scanner does to find a token, the stream stays clean without a fault. -/
theorem finding_clean (bytes : ByteArray) (total : Nat) (outcome : Option ReadFailure)
    (prior : Prop) : Finding fun s t : CharStream Buffer => s = t ∧ s.CleanIf bytes total outcome prior where
  toForward start := by
    -- Each operation only adds reports, so a stream without fault after it had none before.
    refine .of_invariant start (fun h hprior hn => ?_) (fun r h hprior hn => ?_) fun h hprior hn => ?_
    · obtain ⟨c, hc⟩ := h hprior hn.of_advance
      obtain ⟨n, hclean⟩ := hc.advance hn
      exact ⟨_, hclean⟩
    · obtain ⟨c, hc⟩ := h hprior hn.of_report
      exact ⟨c, hc.placed.report r, hc.before, hc.through, hc.mark⟩
    · obtain ⟨c, hc⟩ := h hprior hn
      exact ⟨_, hc.placed.clearMark, hc.before, hc.through, fun m hm => by cases hm⟩
  setMark := by
    rintro s _ ⟨rfl, h⟩
    refine ⟨rfl, fun hprior hn => ?_⟩
    obtain ⟨c, hc⟩ := h hprior hn
    refine ⟨_, hc.placed.setMark, hc.before, hc.through, fun m hm => ?_⟩
    cases hm
    exact ⟨Nat.le_refl _, hc.before⟩
  rewind := by
    rintro s _ ⟨rfl, h⟩
    refine ⟨rfl, fun hprior hn => ?_⟩
    have hrewound : s.NoFault := by
      have := hn.of_seek
      unfold NoFault at this
      rwa [reports_passChar] at this
    obtain ⟨c, hc⟩ := h hprior hrewound
    obtain ⟨m, hclear⟩ := hc.rewound
    obtain ⟨n, hclean⟩ := hclear.seek hn
    exact ⟨_, hclean⟩

end CharStream

end FrontEnd
