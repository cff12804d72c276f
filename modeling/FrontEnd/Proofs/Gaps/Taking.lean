import FrontEnd.Proofs.Gaps.Finding

/-!
# Taking in a token

A token that is found is taken in by going on (`Sited.attemptAt_taking`): everything in it that cannot be
decoded is told once, and besides only that the token is malformed. There is one exception. Of two dots,
the second is looked at twice, and the character behind it too, so that what is in between is told of
twice (`Sited.dot_taking`), first behind and then before what is behind the second dot. That is only so
if there is something (`CharStream.AtDotsApart`).
-/

namespace FrontEnd

/-- It tells of bytes or of a token, and not of what is between tokens. -/
def Remark.InToken (x : Remark) : Prop := x.rejected? = none ∧ x.span? = none ∧ x.unclosed? = none

/-- What is told about items is told of a token. -/
theorem Plain.inToken {told : List Remark} (h : Plain told) {x : Remark} (hx : x ∈ told) : x.InToken :=
  ⟨List.filterMap_eq_nil_iff.mp h.rejected_eq_nil x hx, List.filterMap_eq_nil_iff.mp h.span_eq_nil x hx,
    List.filterMap_eq_nil_iff.mp h.unclosed_eq_nil x hx⟩

/-- The stream is at the first of two dots that does not make three, and there is something between the
two or between the second and the next character. -/
def CharStream.AtDotsApart {ω : Type} [ByteWindow ω] (total : Nat) (s : CharStream ω) : Prop :=
  s.char? = some '.' ∧ s.advance.char? = some '.' ∧ s.advance.advance.char? ≠ some '.' ∧
    s.advance.advance.offset total ≠ s.offset total + 2

instance {ω : Type} [ByteWindow ω] (total : Nat) (s : CharStream ω) : Decidable (s.AtDotsApart total) :=
  inferInstanceAs (Decidable (_ ∧ _ ∧ _ ∧ _))

namespace CharStream

variable {r : Reader} {bytes : ByteArray} {exact exact' : Prop} {mark? : Option Nat}
  {s t : CharStream Buffer} {fs : List Fetched} {told : List Remark} {again : List (Nat × LexFault)}
  {separable : Bool} {l : Lexeme}

/-- A token has been taken in on the way from `s` to `t`. The faults of the items `fs` have been told,
and then those of `again`, some of the faults of the items at `s`. -/
structure Taking (r : Reader) (bytes : ByteArray) (exact : Prop) (s t : CharStream Buffer)
    (fs : List Fetched) (told : List Remark) (again : List (Nat × LexFault)) : Prop where
  decodes : Decodes r bytes (s.offset r.bytesLeft) fs (t.offset r.bytesLeft)
  reports_eq : t.reports.toList = s.reports.toList ++ told.map (Remark.report bytes)
  char?_eq : s.char? = (heard fs).head?.or t.char?
  decoding_eq : told.filterMap Remark.decoding? = faultsFrom (s.offset r.bytesLeft) fs ++ again
  again_subset : ∃ gs k, Decodes r bytes (s.offset r.bytesLeft) gs k ∧
    again ⊆ faultsFrom (s.offset r.bytesLeft) gs
  located : exact → ∀ x ∈ told, x.place = .ofOffset bytes x.offset
  inToken : ∀ x ∈ told, x.InToken
  le_offset : ∀ x ∈ told, s.offset r.bytesLeft ≤ x.offset
  offset_le_size : ∀ x ∈ told, x.offset ≤ bytes.size
  /-- What is told is not told of anything behind a slash that comes later. -/
  offset_le : ∀ x ∈ told, ∀ i, t.offset r.bytesLeft ≤ i → bytes.utf8DecodeChar? i = some '/' →
    x.offset ≤ i

/-- A stretch on which the token has been taken in. -/
theorem Stretch.taking (h : Stretch r bytes exact s t fs told) (ht : ∀ x ∈ told, x.InToken) :
    Taking r bytes exact s t fs told [] where
  decodes := h.account.decodes
  reports_eq := h.reports_eq
  char?_eq := h.char?_eq
  decoding_eq := by rw [h.account.decoding_eq, List.append_nil]
  again_subset := ⟨fs, _, h.account.decodes, List.nil_subset _⟩
  located := h.account.located
  inToken := ht
  le_offset x hx := (h.account.within x hx).le_offset
  offset_le_size x hx := Nat.le_trans (h.account.within x hx).offset_le h.account.decodes.le_size
  offset_le x hx i hi _ := by
    have hwithin := h.account.within x hx
    cases x with
    | error => exact Nat.le_trans hwithin.2 hi
    | directive => cases (ht _ hx).2.1

/-- What is taken in is so where less is asked of its place. -/
theorem Taking.mono (h : Taking r bytes exact s t fs told again) (hexact : exact' → exact) :
    Taking r bytes exact' s t fs told again :=
  { h with located := fun he => h.located (hexact he) }

/-- A token has been taken in: the mark is still where it starts. Only if there were two dots, something has
been told of twice, out of order or behind where the stream is. -/
def TakenIn (r : Reader) (bytes : ByteArray) (exact : Prop) (s t : CharStream Buffer) : Prop :=
  ∃ fs told again, t.Sited r bytes (exact ∧ ¬s.AtDotsAndNewline) (some (s.offset r.bytesLeft)) ∧
    Taking r bytes (exact ∧ ¬s.AtDotsAndNewline) s t fs told again ∧
    (again ≠ [] → s.AtDotsApart r.bytesLeft) ∧
    (¬s.AtDotsApart r.bytesLeft →
      (∀ x ∈ told, x.offset ≤ t.offset r.bytesLeft) ∧ told.Pairwise Remark.Ascends)

/-- A stretch that tells only of the token takes it in. -/
theorem TakenIn.of_stretch (h : t.Sited r bytes exact (some (s.offset r.bytesLeft)) ∧
    ∃ fs told, Stretch r bytes exact s t fs told ∧ ∀ x ∈ told, x.InToken) :
    TakenIn r bytes exact s t := by
  obtain ⟨hsited, fs, told, hstretch, ht⟩ := h
  exact ⟨fs, told, [], hsited.mono And.left, (hstretch.taking ht).mono And.left,
    fun hne => absurd rfl hne,
    fun _ => ⟨fun x hx => (hstretch.account.within x hx).offset_le, hstretch.account.ascending⟩⟩

/-! ## Going on -/

/-- A token may be told to be malformed where it starts, or where the stream is. -/
theorem Stretch.malformed (h : Stretch r bytes exact s t fs told) (ht : ∀ x ∈ told, x.InToken)
    {fault : LexFault} (hf : fault.isMalformation) {offset : Nat} {place : Place}
    (hplace : exact → place = .ofOffset bytes offset)
    (hlo : s.offset r.bytesLeft ≤ offset) (hhi : offset ≤ t.offset r.bytesLeft) :
    Stretch r bytes exact s (t.complainAt place fault) fs (told ++ [.error offset ⟨fault, place⟩]) ∧
      ∀ x ∈ told ++ [.error offset ⟨fault, place⟩], x.InToken := by
  refine ⟨h.remark (x := .error offset ⟨fault, place⟩) ?_ hplace ⟨hlo, hhi⟩ fun y hy => ?_,
    fun x hx => ?_⟩
  · cases fault <;> first | rfl | cases hf
  · cases y with
    | error => exact trivial
    | directive => cases (ht _ hy).2.1
  · rcases List.mem_append.mp hx with hx | hx
    · exact ht x hx
    · rw [List.mem_singleton.mp hx]
      cases fault <;> first | exact ⟨rfl, rfl, rfl⟩ | cases hf

/-- What is taken in by going on is taken in for once. -/
theorem onward_taking (r : Reader) (bytes : ByteArray) (exact : Prop) (m : Nat) (s : CharStream Buffer)
    (start : Place) (hstart : exact → start = .ofOffset bytes (s.offset r.bytesLeft)) :
    Onward start fun t u : CharStream Buffer => t = u ∧ t.Sited r bytes exact (some m) ∧
      ∃ fs told, Stretch r bytes exact s t fs told ∧ ∀ x ∈ told, x.InToken := by
  refine .of_invariant start ?_ ?_ ?_
  · rintro t - ⟨hsited, fs, told, hstretch, ht⟩
    obtain ⟨gs, told', hsited', hrun, -⟩ := hsited.advance
    exact ⟨hsited', _, _, hstretch.trans hrun.toStretch, fun x hx =>
      (List.mem_append.mp hx).elim (ht x) fun hx => hrun.plain.inToken hx⟩
  · rintro t fault hf ⟨hsited, fs, told, hstretch, ht⟩
    obtain ⟨hnext, ht'⟩ := hstretch.malformed ht hf hsited.place_eq hstretch.account.decodes.le
      (Nat.le_refl _)
    exact ⟨hsited.report _, _, _, hnext, ht'⟩
  · rintro t fault hf ⟨hsited, fs, told, hstretch, ht⟩
    obtain ⟨hnext, ht'⟩ := hstretch.malformed ht hf hstart (Nat.le_refl _) hstretch.account.decodes.le
    exact ⟨hsited.report _, _, _, hnext, ht'⟩

/-! ## Two dots -/

/-- What is told on a run is about an offset before its end. -/
theorem Run.offset_le_of_mem (h : Run r bytes exact s t fs told) {x : Remark} (hx : x ∈ told) :
    x.offset ≤ t.offset r.bytesLeft := (h.account.within x hx).offset_le

/-- What had been delivered before may be forgotten. -/
theorem SitedAt.anew {seen : Nat} {c : Cursor} (h : s.SitedAt r bytes exact seen c) :
    s.SitedAt r bytes exact 0 c :=
  { h with draws := h.draws.mono, misses := fun hz => ⟨(h.misses hz).1, Nat.zero_le _⟩ }

/-- Back at the mark, the stream is about to get again what it had got before. -/
theorem SitedAt.rewound {seen : Nat} {c : Cursor} (h : s.SitedAt r bytes exact seen c) {m : Nat}
    (hm : c.mark? = some m) (hle : m ≤ s.offset r.bytesLeft)
    (hline : exact ∨ s.line = 0 → s.place.line = (Place.ofOffset bytes m).line)
    (hstart : m = 0 → bytes.utf8DecodeChar? 0 ≠ some byteOrderMark) :
    s.rewound.Nearing r bytes (exact ∧ s.char? ≠ some '\n') c.offset { c with offset := m } := by
  rw [h.placed.offset_eq] at hle
  refine ⟨(h.placed.rewound hm hle hline).mono ?_, ?_, fun hzero => .inr (hstart hzero)⟩
  · rintro (⟨he, hne⟩ | hl)
    · exact ⟨.inl he, hne⟩
    · unfold CharStream.rewound CharStream.passChar at hl
      split at hl
      · cases hl
      · next hne => exact ⟨.inr hl, hne⟩
  · -- Going back in the buffer does not read, so what has been drawn of the reader stays.
    have hback := (h.draws.past h.placed.views.tracks).rewind h.placed.views.tracks
    have hcursor : ByteWindow.rewind c = { c with offset := m } := by
      change { c with offset := c.mark?.getD c.offset } = _
      rw [hm]
      rfl
    rw [hcursor] at hback
    unfold CharStream.rewound
    rw [window_passChar]
    exact hback

/-- What stands where the stream is, is its current character. -/
theorem SitedAt.char?_of_stands {seen : Nat} {c : Cursor} (h : s.SitedAt r bytes exact seen c) {ch : Char}
    (hs : Fetched.Stands bytes (s.offset r.bytesLeft) (.char ch)) : s.char? = some ch := by
  cases hs with
  | char hd =>
    cases hc : s.char? with
    | none =>
      have hlt := ByteArray.lt_size_of_isSome_utf8DecodeChar? (by rw [hd]; rfl)
      rw [h.placed.offset_of_end hc] at hlt
      exact absurd hlt (Nat.lt_irrefl _)
    | some d =>
      have hstands := h.stands
      rw [current_eq hc] at hstands
      cases hstands with
      | char hd' => rw [← hd', hd]

/-- No current character is passed over. -/
theorem SitedAt.not_passedOver {seen : Nat} {c : Cursor} (h : s.SitedAt r bytes exact seen c) :
    ¬passedOver s.current := by
  unfold current
  cases hc : s.char? with
  | none => exact Bool.false_ne_true
  | some ch => exact fun hp => h.char?_ne (by rw [hc, of_decide_eq_true hp])

/-- Where there is a current character, nothing is passed over first. -/
theorem SitedAt.takeWhile_eq_nil {seen : Nat} {c : Cursor} (h : s.SitedAt r bytes exact seen c)
    (hc : s.char? ≠ some '\x00') :
    (itemsFrom bytes (s.offset r.bytesLeft)).takeWhile passedOver = [] := by
  refine Decodes.takeWhile_eq_nil h.stands h.not_passedOver fun hcurrent => hc ?_
  unfold current at hcurrent
  cases hch : s.char? with
  | none =>
    rw [hch] at hcurrent
    cases hcurrent
  | some ch =>
    rw [hch] at hcurrent
    rw [Fetched.char.inj hcurrent]

/-- Over what is not heard, two streams come to the same, if what the one comes to has been delivered
when the other does. -/
theorem SitedAt.meet {seen seen' : Nat} {c c' : Cursor} {i : Nat} {gs : List Fetched}
    (hs : s.SitedAt r bytes exact seen c) (ht : t.SitedAt r bytes exact' seen' c')
    (hfs : Decodes r bytes i fs (s.offset r.bytesLeft)) (hfsHeard : heard fs = [])
    (hgs : Decodes r bytes i gs (t.offset r.bytesLeft)) (hgsHeard : heard gs = [])
    (hc : s.char? ≠ some '\x00') (hseen : s.offset r.bytesLeft < seen') :
    gs = fs ∧ t.offset r.bytesLeft = s.offset r.bytesLeft := by
  have hfirst := hfs.takeWhile_eq_append hfsHeard
  rw [hs.takeWhile_eq_nil hc, List.append_nil, hgs.takeWhile_eq_append hgsHeard] at hfirst
  have hle : t.offset r.bytesLeft ≤ s.offset r.bytesLeft := by
    obtain ⟨j, hj, hrest⟩ := (hfirst ▸ hfs).exists_mid
    rw [hgs.end_eq hj]
    exact hrest.le
  have hsecond : t.char? ≠ some '\x00' := fun hz => by
    have hnew := (ht.misses hz).2
    omega
  rw [ht.takeWhile_eq_nil hsecond, List.append_nil] at hfirst
  exact ⟨hfirst, hgs.end_eq (hfirst ▸ hfs)⟩

/-- Back at the mark, the stream finds a character that stands there again. -/
theorem SitedAt.exists_rewind {seen : Nat} {c : Cursor} (h : s.SitedAt r bytes exact seen c) {m : Nat}
    (hm : c.mark? = some m) (hle : m ≤ s.offset r.bytesLeft)
    (hline : exact ∨ s.line = 0 → s.place.line = (Place.ofOffset bytes m).line) {ch : Char}
    (hs : Fetched.Stands bytes m (.char ch)) (hp : ¬passedOver (.char ch)) (hnul : ch ≠ '\x00') :
    ∃ n, s.rewind.SitedAt r bytes (exact ∧ s.char? ≠ some '\n') c.offset { c with offset := m + n } ∧
      s.rewind.offset r.bytesLeft = m ∧ s.rewind.reports.toList = s.reports.toList ∧
      s.rewind.char? = some ch := by
  have hstart (hzero : m = 0) : bytes.utf8DecodeChar? 0 ≠ some byteOrderMark := by
    subst hzero
    cases hs with
    | char hd =>
      rw [hd]
      exact fun he => hp (decide_eq_true (Option.some.inj he))
  obtain ⟨fs, told, n, hsited, haccount, hreports, hheard, hplain⟩ :=
    (h.rewound hm hle hline hstart).seek
  rw [← rewind_eq] at hsited haccount hreports
  -- Nothing is passed over on the way, so nothing is told.
  have hnone : fs = [] := by
    have hfirst := haccount.decodes.takeWhile_eq_append hheard
    rw [Decodes.takeWhile_eq_nil hs hp fun he => hnul (Fetched.char.inj he)] at hfirst
    exact (List.append_eq_nil_iff.mp hfirst.symm).1
  subst hnone
  obtain rfl := hplain.eq_nil haccount.decoding_eq
  have hback : s.rewind.offset r.bytesLeft = m := haccount.decodes.end_eq (.nil (Nat.le_trans hle h.offset_le))
  refine ⟨n, hsited, hback, ?_, hsited.char?_of_stands (hback ▸ hs)⟩
  rw [hreports, show s.rewound.reports = s.reports from reports_passChar _, List.map_nil, List.append_nil]

/-- Behind two dots, the stream goes back to the first. -/
theorem SitedAt.rewind_dots {c c' : Cursor} {seen : Nat} (h : s.SitedAt r bytes exact 0 c)
    (hc : s.char? = some '.') (hd : s.advance.char? = some '.')
    (h' : s.advance.advance.SitedAt r bytes exact seen c')
    (hm : c'.mark? = some (s.offset r.bytesLeft))
    (hle : s.offset r.bytesLeft ≤ s.advance.advance.offset r.bytesLeft) :
    ∃ n, s.advance.advance.rewind.SitedAt r bytes (exact ∧ s.advance.advance.char? ≠ some '\n') c'.offset
        { c' with offset := s.offset r.bytesLeft + n } ∧
      s.advance.advance.rewind.offset r.bytesLeft = s.offset r.bytesLeft ∧
      s.advance.advance.rewind.reports.toList = s.advance.advance.reports.toList ∧
      s.advance.advance.rewind.char? = some '.' := by
  have hdot : Fetched.Stands bytes (s.offset r.bytesLeft) (.char '.') := by
    have hstands := h.stands
    rwa [current_eq hc] at hstands
  -- Neither dot ends a line, so the mark is on the line of the stream.
  have hline : exact ∨ s.advance.advance.line = 0 →
      s.advance.advance.place.line = (Place.ofOffset bytes (s.offset r.bytesLeft)).line := by
    have hsame : s.advance.advance.line = s.line := by
      rw [CharStream.line_advance _ (by rw [hd]; decide), CharStream.line_advance _ (by rw [hc]; decide)]
    intro he
    rw [hsame] at he
    have hplace := h.placed.place_eq he
    rw [h.placed.offset_eq, ← hplace]
    exact congrArg (· + 1) hsame
  exact h'.exists_rewind hm hle hline hdot (by decide) (by decide)

/-- Of two dots, the second is found again where it was. What is not heard around it is told of once
more on the way. -/
theorem SitedAt.dots {c : Cursor} (h : s.SitedAt r bytes exact 0 c)
    (hm : c.mark? = some (s.offset r.bytesLeft)) (hc : s.char? = some '.')
    (hd : s.advance.char? = some '.') (hexact : exact' → exact ∧ s.advance.advance.char? ≠ some '\n') :
    ∃ fs gs told, s.advance.advance.rewind.advance.Sited r bytes exact' (some (s.offset r.bytesLeft)) ∧
      Decodes r bytes (s.offset r.bytesLeft) fs (s.advance.offset r.bytesLeft) ∧
      Decodes r bytes (s.advance.offset r.bytesLeft) gs (s.advance.advance.offset r.bytesLeft) ∧
      heard (fs ++ gs) = ['.', '.'] ∧
      Taking r bytes exact' s s.advance.advance.rewind.advance fs told
        (faultsFrom (s.advance.offset r.bytesLeft) gs ++ faultsFrom (s.offset r.bytesLeft) fs) ∧
      Plain told := by
  have hdot : Fetched.Stands bytes (s.offset r.bytesLeft) (.char '.') := by
    have hstands := h.stands
    rwa [current_eq hc] at hstands
  obtain ⟨fs, told₁, n₁, h₁, hrun₁, hheard₁⟩ := h.advance
  obtain ⟨gs, told₂, n₂, h₂, hrun₂, hheard₂⟩ := h₁.advance
  rw [hc] at hheard₁
  rw [hd] at hheard₂
  have hle := Nat.le_trans hrun₁.account.decodes.le hrun₂.account.decodes.le
  obtain ⟨n₃, h₃, hback, hreports₃, hagain⟩ := h.rewind_dots hc hd h₂ hm hle
  -- From there it comes to the second dot as before.
  obtain ⟨fs', told₄, n₄, h₄, hrun₄, hheard₄⟩ := h₃.advance
  rw [hagain] at hheard₄
  have hdecodes₄ := hrun₄.account.decodes
  rw [hback] at hdecodes₄
  -- Both ways start with the same dot, so they come to the same place behind it.
  obtain ⟨zs, rfl, hzs, hzsHeard⟩ :=
    hrun₁.account.decodes.exists_cons_of_stands hheard₁ hdot (by decide) (by decide)
  obtain ⟨zs', rfl, hzs', hzsHeard'⟩ :=
    hdecodes₄.exists_cons_of_stands hheard₄ hdot (by decide) (by decide)
  have hpast : s.advance.offset r.bytesLeft < c.offset + n₁ + n₂ := by
    have hcursor := h₁.offset_add_width
    rw [current_eq hd] at hcursor
    change s.advance.offset r.bytesLeft + 1 = c.offset + n₁ at hcursor
    omega
  obtain ⟨rfl, hoffset⟩ := h₁.meet h₄ hzs hzsHeard hzs' hzsHeard' (by rw [hd]; decide) hpast
  have hreports : s.advance.advance.rewind.advance.reports.toList =
      s.reports.toList ++ (told₁ ++ told₂ ++ told₄).map (Remark.report bytes) := by
    rw [hrun₄.reports_eq, hreports₃, hrun₂.reports_eq, hrun₁.reports_eq]
    simp only [List.map_append, List.append_assoc]
  have hheard : heard (Fetched.char '.' :: zs' ++ gs) = ['.', '.'] := by
    rw [heard_append, hheard₁, hheard₂]
    rfl
  refine ⟨_, gs, told₁ ++ told₂ ++ told₄, ⟨_, h₄.anew.mono hexact, hm⟩,
    hrun₁.account.decodes, hrun₂.account.decodes, hheard, ?_,
    (hrun₁.plain.append hrun₂.plain).append hrun₄.plain⟩
  have hcases {p : Remark → Prop} (hp₁ : ∀ x ∈ told₁, p x) (hp₂ : ∀ x ∈ told₂, p x)
      (hp₄ : ∀ x ∈ told₄, p x) : ∀ x ∈ told₁ ++ told₂ ++ told₄, p x := by
    intro x hx
    rcases List.mem_append.mp hx with hx | hx
    · exact (List.mem_append.mp hx).elim (hp₁ x) (hp₂ x)
    · exact hp₄ x hx
  constructor
  case decodes => exact hoffset ▸ hrun₁.account.decodes
  case reports_eq => exact hreports
  case char?_eq => rw [hheard₁, hc]; rfl
  case decoding_eq =>
    have hagain₄ := hrun₄.account.decoding_eq
    rw [hback] at hagain₄
    rw [List.filterMap_append, List.filterMap_append, hrun₁.account.decoding_eq,
      hrun₂.account.decoding_eq, hagain₄, List.append_assoc]
  case again_subset =>
    refine ⟨_, _, hrun₁.account.decodes.append hrun₂.account.decodes, ?_⟩
    rw [hrun₁.account.decodes.faultsFrom_append]
    intro y hy
    exact List.mem_append.mpr (List.mem_append.mp hy).symm
  case located =>
    intro he
    exact hcases (hrun₁.account.located (hexact he).1) (hrun₂.account.located (hexact he).1)
      (hrun₄.account.located (hexact he))
  case inToken =>
    exact hcases (fun x => hrun₁.plain.inToken) (fun x => hrun₂.plain.inToken)
      fun x => hrun₄.plain.inToken
  case le_offset =>
    refine hcases (fun x hx => (hrun₁.account.within x hx).le_offset) (fun x hx => ?_) fun x hx => ?_
    · exact Nat.le_trans hrun₁.account.decodes.le (hrun₂.account.within x hx).le_offset
    · rw [← hback]
      exact (hrun₄.account.within x hx).le_offset
  case offset_le_size =>
    exact hcases (fun x hx => Nat.le_trans (hrun₁.offset_le_of_mem hx) hrun₁.account.decodes.le_size)
      (fun x hx => Nat.le_trans (hrun₂.offset_le_of_mem hx) hrun₂.account.decodes.le_size)
      fun x hx => Nat.le_trans (hrun₄.offset_le_of_mem hx) hrun₄.account.decodes.le_size
  case offset_le =>
    -- No slash stands before the character behind the dots.
    refine hcases (fun x hx i hi _ => ?_) (fun x hx i hi hslash => ?_) fun x hx i hi _ => ?_
    · exact Nat.le_trans (hrun₁.offset_le_of_mem hx) (hoffset ▸ hi)
    · refine Nat.le_trans (hrun₂.offset_le_of_mem hx) ?_
      refine hrun₂.account.decodes.le_of_slash (hoffset ▸ hi) hslash ?_
      rw [hheard₂]
      decide
    · exact Nat.le_trans (hrun₄.offset_le_of_mem hx) hi

/-- A dot, three dots or a number is taken in by going on. Of two dots the first is. -/
theorem Sited.dot_taking (h : s.Sited r bytes exact (some (s.offset r.bytesLeft)))
    (hc : s.char? = some '.') (hl : l.place = s.place) :
    TakenIn r bytes exact s (Scanner.dot l s).stream := by
  have honward := onward_taking r bytes exact (s.offset r.bytesLeft) s l.place fun he =>
    hl.trans (h.place_eq he)
  have hat := honward.advance (Option.isSome_of_eq_some hc)
    ⟨rfl, h, [], [], h.refl.toStretch, fun _ hx => (List.not_mem_nil hx).elim⟩
  unfold Scanner.dot
  dsimp only
  split
  · exact .of_stretch (honward.foundNumber l (honward.fraction hat)).2.2
  · split
    · next hd =>
      split
      · next hthird =>
        exact .of_stretch (honward.advance (Option.isSome_of_eq_some hthird)
          (honward.advance (Option.isSome_of_eq_some hd) hat)).2
      · next hthird =>
        obtain ⟨c, hsited, hm⟩ := h
        have hexact : exact ∧ ¬s.AtDotsAndNewline → exact ∧ s.advance.advance.char? ≠ some '\n' :=
          fun ⟨he, hnot⟩ => ⟨he, fun hn => hnot ⟨hc, hd, hn⟩⟩
        obtain ⟨fs, gs, told, hback, hfs, hgs, hheard, htaking, hplain⟩ := hsited.dots hm hc hd hexact
        have hnone (hnot : ¬s.AtDotsApart r.bytesLeft) : faultsFrom (s.offset r.bytesLeft) fs = [] ∧
            faultsFrom (s.advance.offset r.bytesLeft) gs = [] := by
          -- If the next character is right behind two dots side by side, there is nothing around them.
          have hnear : s.advance.advance.offset r.bytesLeft = s.offset r.bytesLeft + 2 :=
            Decidable.byContradiction fun hne => hnot ⟨hc, hd, hthird, hne⟩
          have hnil := (hfs.append hgs).add_sum_le.2 (by rw [hheard]; exact hnear)
          rwa [hfs.faultsFrom_append, List.append_eq_nil_iff] at hnil
        refine ⟨fs, told, _, hback, htaking, fun hne => Decidable.byContradiction fun hnot => hne ?_,
          fun hnot => ?_⟩
        · rw [(hnone hnot).1, (hnone hnot).2]
          rfl
        · have hquiet := hplain.eq_nil (by rw [htaking.decoding_eq, (hnone hnot).1, (hnone hnot).2]; rfl)
          rw [hquiet]
          exact ⟨fun _ hx => (List.not_mem_nil hx).elim, .nil⟩
    · exact .of_stretch hat.2

/-- What starts a token and no comment is taken in. -/
theorem Sited.attemptAt_taking (h : s.Sited r bytes exact (some (s.offset r.bytesLeft))) {ch : Char}
    (hc : s.char? = some ch) (hl : l.place = s.place)
    (hslash : ch = '/' → s.advance.char? ≠ some '/' ∧ s.advance.char? ≠ some '*') {x : Scanner Buffer}
    (hx : Scanner.attemptAt separable l ch s = .found x) : TakenIn r bytes exact s x.stream := by
  have honward := onward_taking r bytes exact (s.offset r.bytesLeft) s l.place fun he =>
    hl.trans (h.place_eq he)
  have hat : s = s ∧ s.Sited r bytes exact (some (s.offset r.bytesLeft)) ∧
      ∃ fs told, Stretch r bytes exact s s fs told ∧ ∀ x ∈ told, x.InToken :=
    ⟨rfl, h, [], [], h.refl.toStretch, fun _ hx => (List.not_mem_nil hx).elim⟩
  -- The stream is compared with itself; each form adds what it takes and tells of it only inside the token.
  refine honward.attemptAt (Q := fun a _ => ∀ x, a = .found x → TakenIn r bytes exact s x.stream)
    separable rfl hc hat ?_ ?_ ?_ ?_ x hx
  · rintro x y ⟨-, -, htaken⟩ _ ⟨rfl⟩
    exact .of_stretch htaken
  · exact fun _ hfound => by cases hfound
  · rintro rfl _ ⟨rfl⟩
    exact h.dot_taking hc hl
  · rintro rfl x hfound
    rw [Scanner.slash_eq_found (hslash rfl).1 (hslash rfl).2] at hfound
    cases hfound
    exact .of_stretch (honward.assignable l .div
      (honward.advance (Option.isSome_of_eq_some hc) hat)).2.2

end CharStream

end FrontEnd
