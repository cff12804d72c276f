import FrontEnd.Bytes.Buffer

/-!
# What a reader delivers

`Reader.Delivers` says that a reader is well behaved: it hands out certain bytes in pieces of any
sizes, then tells the end of the input, and asks to be patient no more than `patience` times in a row
on the way to each answer. Any reader hands out some bytes before it first tells the end or fails
(`Reader.exists_hands`). A buffer that asks for more always gets a next piece or learns which of the
two it is (`Reader.Hands.request`).
-/

namespace FrontEnd

/-- What a buffer knows to come after the last bytes: a failure, or the end of the input. -/
def Pending.ofOutcome : Option ReadFailure → Pending
  | none => .endOfInput
  | some f => .failure f

namespace Reader

/-- The number of stalls in a row that may come before an answer. -/
def patience : Nat := 9

/-- Events that bring `bytes` and then the end of the input, with no more than `n` stalls before the
first answer. An empty piece of data is no answer, and what comes after the end does not matter. -/
inductive Brings : Nat → List ReadEvent → ByteArray → Prop
  | finished {n} : Brings n [] .empty
  | endOfInput {n rest} : Brings n (.endOfInput :: rest) .empty
  | stall {n rest bytes} : Brings n rest bytes → Brings (n + 1) (.stall :: rest) bytes
  | skip {n piece rest bytes} : piece.size = 0 → Brings n rest bytes →
      Brings n (.data piece :: rest) bytes
  | data {n piece rest bytes} : piece.size ≠ 0 → Brings patience rest bytes →
      Brings n (.data piece :: rest) (piece ++ bytes)

/-- The reader hands out exactly `bytes`. -/
structure Delivers (r : Reader) (bytes : ByteArray) : Prop where
  ending : r.ending = .finished
  limit? : r.limit? ≠ some 0
  brings : Brings patience r.events bytes

/-- A reader of some bytes hands them out. -/
theorem delivers_ofBytes (bytes : ByteArray) : (ofBytes bytes).Delivers bytes where
  ending := rfl
  limit? := by simp [ofBytes]
  brings := by
    by_cases h : bytes.size = 0
    · rw [ByteArray.size_eq_zero_iff] at h
      rw [h]
      exact .skip rfl .finished
    · have hb : Brings patience [.data bytes] (bytes ++ .empty) := .data h .finished
      rwa [ByteArray.append_empty] at hb

/-- A delivery brings something if there is any and space for it. -/
theorem quota_pos {limit? : Option Nat} {space available : Nat} (hl : limit? ≠ some 0)
    (hs : space ≠ 0) (ha : available ≠ 0) : quota limit? space available ≠ 0 := by
  unfold quota
  cases limit? with
  | none =>
    rw [Option.getD_none]
    omega
  | some n =>
    have hn : n ≠ 0 := fun h => hl (by rw [h])
    rw [Option.getD_some]
    omega

/-- A delivery fits into the space. -/
theorem quota_le_space (limit? : Option Nat) (space available : Nat) :
    quota limit? space available ≤ space :=
  Nat.le_trans (Nat.min_le_left ..) (Nat.min_le_left ..)

/-! ## Any reader

What comes after the bytes is told as `outcome`: a failure, or none at the end of the input. -/

/-- Events that bring `bytes` up to the first end or failure, where the last stall that may come before
the first answer is the one after `n` others. A reader that may not deliver anything tells the end
instead of handing out data. -/
inductive Course (limit? : Option Nat) (ending : ReadEnding) :
    Nat → List ReadEvent → ByteArray → Option ReadFailure → Prop
  | finished {n} : ending = .finished → Course limit? ending n [] .empty none
  | failing {n message} : ending = .failing message →
      Course limit? ending n [] .empty (some (.failed message))
  | endOfInput {n rest} : Course limit? ending n (.endOfInput :: rest) .empty none
  | failure {n message rest} :
      Course limit? ending n (.failure message :: rest) .empty (some (.failed message))
  | stall {n rest bytes outcome} : Course limit? ending n rest bytes outcome →
      Course limit? ending (n + 1) (.stall :: rest) bytes outcome
  | noProgress {rest} : Course limit? ending 0 (.stall :: rest) .empty (some .noProgress)
  | skip {n piece rest bytes outcome} : piece.size = 0 → Course limit? ending n rest bytes outcome →
      Course limit? ending n (.data piece :: rest) bytes outcome
  | blocked {n piece rest} : limit? = some 0 → piece.size ≠ 0 →
      Course limit? ending n (.data piece :: rest) .empty none
  | data {n piece rest bytes outcome} : limit? ≠ some 0 → piece.size ≠ 0 →
      Course limit? ending patience rest bytes outcome →
      Course limit? ending n (.data piece :: rest) (piece ++ bytes) outcome

/-- The reader hands out `bytes`, and then tells the end of the input or fails. -/
def Hands (r : Reader) (bytes : ByteArray) (outcome : Option ReadFailure) : Prop :=
  Course r.limit? r.ending patience r.events bytes outcome

/-- What a reader does comes to some bytes and an outcome. -/
theorem exists_course (limit? : Option Nat) (ending : ReadEnding) (n : Nat)
    (events : List ReadEvent) : ∃ bytes outcome, Course limit? ending n events bytes outcome := by
  -- By the events left; `n` is the patience that remains and starts over with every piece.
  induction events generalizing n with
  | nil =>
    cases ending with
    | finished => exact ⟨_, _, .finished rfl⟩
    | failing message => exact ⟨_, _, .failing rfl⟩
  | cons event rest ih =>
    cases event with
    | data piece =>
      by_cases hp : piece.size = 0
      · obtain ⟨bytes, outcome, h⟩ := ih n
        exact ⟨bytes, outcome, .skip hp h⟩
      · by_cases hl : limit? = some 0
        · exact ⟨_, _, .blocked hl hp⟩
        · obtain ⟨bytes, outcome, h⟩ := ih patience
          exact ⟨_, _, .data hl hp h⟩
    | stall =>
      cases n with
      | zero => exact ⟨_, _, .noProgress⟩
      | succ n =>
        obtain ⟨bytes, outcome, h⟩ := ih n
        exact ⟨bytes, outcome, .stall h⟩
    | failure message => exact ⟨_, _, .failure⟩
    | endOfInput => exact ⟨_, _, .endOfInput⟩

/-- Every reader hands out some bytes, and then tells the end of the input or fails. -/
theorem exists_hands (r : Reader) : ∃ bytes outcome, r.Hands bytes outcome :=
  exists_course r.limit? r.ending patience r.events

/-- What a reader does comes to the same bytes every time. -/
theorem Course.bytes_eq {limit? : Option Nat} {ending : ReadEnding} {n : Nat} {events : List ReadEvent}
    {bytes bytes' : ByteArray} {outcome outcome' : Option ReadFailure}
    (h : Course limit? ending n events bytes outcome) (h' : Course limit? ending n events bytes' outcome') :
    bytes' = bytes := by
  -- The events decide the course; two steps of different kinds exclude one another.
  induction h generalizing bytes' with
  | finished _ | failing _ | endOfInput | failure | noProgress => cases h' <;> rfl
  | stall _ ih =>
    cases h' with
    | stall h' => exact ih h'
  | skip hp _ ih =>
    cases h' with
    | skip _ h' => exact ih h'
    | blocked _ hp' => exact absurd hp hp'
    | data _ hp' _ => exact absurd hp hp'
  | blocked hl hp =>
    cases h' with
    | skip hp' _ => exact absurd hp' hp
    | blocked _ _ => rfl
    | data hl' _ _ => exact absurd hl hl'
  | data hl hp _ ih =>
    cases h' with
    | skip hp' _ => exact absurd hp' hp
    | blocked hl' _ => exact absurd hl' hl
    | data _ _ h' => rw [ih h']

/-- A reader does not hand out other bytes as well. -/
theorem Hands.bytes_eq {r : Reader} {bytes bytes' : ByteArray} {outcome outcome' : Option ReadFailure}
    (h : r.Hands bytes outcome) (h' : r.Hands bytes' outcome') : bytes' = bytes := Course.bytes_eq h h'

/-- A reader that brings bytes comes to them. -/
theorem Brings.course {limit? : Option Nat} {n : Nat} {events : List ReadEvent} {bytes : ByteArray}
    (h : Brings n events bytes) (hl : limit? ≠ some 0) :
    Course limit? .finished n events bytes none := by
  induction h with
  | finished => exact .finished rfl
  | endOfInput => exact .endOfInput
  | stall _ ih => exact .stall ih
  | skip hp _ ih => exact .skip hp ih
  | data hp _ ih => exact .data hl hp ih

/-- A well-behaved reader comes to the end of the input. -/
theorem Delivers.hands {r : Reader} {bytes : ByteArray} (h : r.Delivers bytes) : r.Hands bytes none := by
  unfold Hands
  rw [h.ending]
  exact h.brings.course h.limit?

/-! ## Requests -/

/-- An answer that brings the next piece of `bytes` and leaves the events for the others, or that tells
what comes after them when there are none. -/
def Serves (space : Nat) (bytes : ByteArray) (outcome : Option ReadFailure) (a : ReadAnswer)
    (rest : ByteArray → Prop) : Prop :=
  (∃ piece later, a = .delivered piece ∧ piece.size ≠ 0 ∧ piece.size ≤ space ∧
    bytes = piece ++ later ∧ rest later) ∨
  (Buffer.answerData a = .empty ∧ Buffer.answerPending? a = some (.ofOutcome outcome) ∧
    bytes = .empty)

/-- The first request is served, or has to be repeated, or has been repeated too often. -/
theorem Course.answer {limit? : Option Nat} {ending : ReadEnding} {space n : Nat}
    {events : List ReadEvent} {bytes : ByteArray} {outcome : Option ReadFailure}
    (h : Course limit? ending n events bytes outcome) (hs : space ≠ 0) :
    (answer limit? ending space events).1 ≠ .stalled ∧
        Serves space bytes outcome (answer limit? ending space events).1
          (Course limit? ending patience (answer limit? ending space events).2 · outcome) ∨
      ∃ rest, answer limit? ending space events = (.stalled, rest) ∧
        ((∃ m, n = m + 1 ∧ Course limit? ending m rest bytes outcome) ∨
          n = 0 ∧ bytes = .empty ∧ outcome = some .noProgress) := by
  -- An answer hands over, ends the course or stalls; a stall costs one of the `n` reads still allowed.
  induction h with
  | finished he =>
    subst he
    exact .inl ⟨ReadAnswer.noConfusion, .inr ⟨rfl, rfl, rfl⟩⟩
  | failing he =>
    subst he
    exact .inl ⟨ReadAnswer.noConfusion, .inr ⟨rfl, rfl, rfl⟩⟩
  | endOfInput => exact .inl ⟨ReadAnswer.noConfusion, .inr ⟨rfl, rfl, rfl⟩⟩
  | failure => exact .inl ⟨ReadAnswer.noConfusion, .inr ⟨rfl, rfl, rfl⟩⟩
  | stall h => exact .inr ⟨_, rfl, .inl ⟨_, rfl, h⟩⟩
  | noProgress => exact .inr ⟨_, rfl, .inr ⟨rfl, rfl, rfl⟩⟩
  | skip hp _ ih =>
    unfold Reader.answer
    rw [if_pos hp]
    exact ih
  -- A limit of no bytes answers like the end of the input, although a piece is there.
  | @blocked _ piece rest hl hp =>
    have hq : quota limit? space piece.size = 0 := by
      rw [hl]
      exact Nat.min_zero _
    left
    unfold Reader.answer
    rw [if_neg hp]
    dsimp only
    rw [hq, if_neg (Ne.symm hp), ByteArray.extract_same]
    exact ⟨ReadAnswer.noConfusion, .inr ⟨rfl, rfl, rfl⟩⟩
  | @data _ piece rest bytes outcome hl hp h =>
    left
    have hq := quota_le_space limit? space piece.size
    have hpos := quota_pos hl hs hp
    have hle := quota_le limit? space piece.size
    unfold Reader.answer
    rw [if_neg hp]
    dsimp only
    -- The piece fits as a whole, or its front part is handed over and the rest goes back as the next event.
    by_cases hn : quota limit? space piece.size = piece.size
    · rw [if_pos hn]
      exact ⟨ReadAnswer.noConfusion, .inl ⟨piece, bytes, rfl, hp, by omega, rfl, h⟩⟩
    · rw [if_neg hn]
      generalize quota limit? space piece.size = k at hq hpos hle hn
      refine ⟨ReadAnswer.noConfusion, .inl ⟨piece.extract 0 k, piece.extract k piece.size ++ bytes,
        rfl, ?_, ?_, ?_, ?_⟩⟩
      · rw [ByteArray.size_extract]
        omega
      · rw [ByteArray.size_extract]
        omega
      · rw [← ByteArray.append_assoc, ByteArray.extract_append_extract, Nat.zero_min,
          Nat.max_eq_right hle, ByteArray.extract_zero_size]
      · refine .data hl ?_ h
        rw [ByteArray.size_extract]
        omega

/-- A reader that does not stall is asked once. -/
theorem request_of_ne_stalled {r : Reader} {space : Nat} (h : (r.read space).1 ≠ .stalled) (n : Nat) :
    Buffer.request space (n + 1) r = r.read space := by
  unfold Buffer.request
  generalize r.read space = x at h
  obtain ⟨a, r'⟩ := x
  cases a with
  | stalled => exact absurd rfl h
  | delivered bytes => rfl
  | failed message => rfl

/-- A reader that stalls is asked again. -/
theorem request_of_stalled {r r' : Reader} {space : Nat} (h : r.read space = (.stalled, r'))
    (n : Nat) : Buffer.request space (n + 1) r = Buffer.request space n r' := by
  rw [Buffer.request, h]

/-- Asking often enough is served. -/
theorem Course.request {r : Reader} {space n : Nat} {bytes : ByteArray}
    {outcome : Option ReadFailure} (h : Course r.limit? r.ending n r.events bytes outcome)
    (hs : space ≠ 0) :
    Serves space bytes outcome (Buffer.request space (n + 1) r).1
      ((Buffer.request space (n + 1) r).2.Hands · outcome) := by
  -- By the reads that may still stall; the answer is the first that does not.
  induction n generalizing r with
  | zero =>
    rcases h.answer hs with ⟨hne, hserve⟩ | ⟨rest, ha, ⟨m, hm, -⟩ | ⟨-, rfl, rfl⟩⟩
    · rw [request_of_ne_stalled hne]
      exact hserve
    · cases hm
    · have hread : r.read space = (.stalled, { r with events := rest }) := by rw [read, ha]
      rw [request_of_stalled hread]
      exact .inr ⟨rfl, rfl, rfl⟩
  | succ n ih =>
    rcases h.answer hs with ⟨hne, hserve⟩ | ⟨rest, ha, ⟨m, hm, hrest⟩ | ⟨hn, -, -⟩⟩
    · rw [request_of_ne_stalled hne]
      exact hserve
    · cases hm
      have hread : r.read space = (.stalled, { r with events := rest }) := by rw [read, ha]
      rw [request_of_stalled hread]
      exact ih hrest
    · cases hn

/-- A buffer's request to any reader is served. -/
theorem Hands.request {r : Reader} {bytes : ByteArray} {outcome : Option ReadFailure}
    (h : r.Hands bytes outcome) (space : Nat) (hs : space ≠ 0) :
    Serves space bytes outcome (Buffer.request space Buffer.requestsPerFill r).1
      ((Buffer.request space Buffer.requestsPerFill r).2.Hands · outcome) :=
  Course.request h hs

end Reader

end FrontEnd
