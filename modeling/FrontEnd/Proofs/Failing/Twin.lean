import FrontEnd.Proofs.Refinement

/-!
# A reader that fails where another ends

Of two readers that have the same events, the one may be told the end of the input behind them and the
other a failure, again and again. Buffers on the two hold the same bytes (`Buffer.Twin`): up to the last
byte they are the same, and from then on they are at the same cursor. A fetch finds the same in both,
except that where the one comes to the end the other is told the failure, every time it asks
(`Buffer.Twin.fetch`).
-/

namespace FrontEnd

namespace Reader

/-- The reader that fails, again and again, where `r` comes to the end of its events. -/
def failing (message : String) (r : Reader) : Reader := { r with ending := .failing message }

/-- The end of the input is only told behind all events. -/
structure EndsLast (r : Reader) : Prop where
  ending : r.ending = .finished
  limit? : r.limit? ≠ some 0
  notMem : .endOfInput ∉ r.events

/-- Two answers, and what is left of the readers: the same, or the end of the input and a failure. -/
structure Parts (message : String) (x y : ReadAnswer × Reader) : Prop where
  endsLast : x.2.EndsLast
  reader_eq : y.2 = x.2.failing message
  answer : y.1 = x.1 ∧ Buffer.answerPending? x.1 ≠ some .endOfInput ∨
    x.1 = .delivered .empty ∧ y.1 = .failed message ∧ x.2.events = []

/-- Readers with the same events give the same answer, as long as there is one. -/
theorem answer_failing {limit? : Option Nat} {space : Nat} (hl : limit? ≠ some 0) (hs : space ≠ 0)
    (message : String) {events : List ReadEvent} (hn : .endOfInput ∉ events) :
    .endOfInput ∉ (answer limit? .finished space events).2 ∧
    (answer limit? (.failing message) space events = answer limit? .finished space events ∧
        Buffer.answerPending? (answer limit? .finished space events).1 ≠ some .endOfInput ∨
      answer limit? .finished space events = (.delivered .empty, []) ∧
        answer limit? (.failing message) space events = (.failed message, [])) := by
  -- The two readers differ only in how they end, so they answer alike as long as there are events.
  induction events with
  | nil => exact ⟨hn, .inr ⟨rfl, rfl⟩⟩
  | cons event rest ih =>
    rw [List.mem_cons, not_or] at hn
    cases event with
    | data piece =>
      unfold answer
      by_cases hp : piece.size = 0
      · rw [if_pos hp, if_pos hp]
        exact ih hn.2
      · have hpos := quota_pos hl hs hp
        have hle := quota_le limit? space piece.size
        rw [if_neg hp, if_neg hp]
        dsimp only
        split
        · refine ⟨hn.2, .inl ⟨rfl, ?_⟩⟩
          rw [Buffer.answerPending?, if_neg hp]
          exact Option.some_ne_none _ |>.symm
        · refine ⟨?_, .inl ⟨rfl, ?_⟩⟩
          · rw [List.mem_cons, not_or]
            exact ⟨ReadEvent.noConfusion, hn.2⟩
          · rw [Buffer.answerPending?, if_neg (by rw [ByteArray.size_extract]; omega)]
            exact Option.some_ne_none _ |>.symm
    | stall => exact ⟨hn.2, .inl ⟨rfl, by unfold answer; rintro ⟨⟩⟩⟩
    | failure _ => exact ⟨hn.2, .inl ⟨rfl, by unfold answer; rintro ⟨⟩⟩⟩
    | endOfInput => exact absurd rfl hn.1

variable {r : Reader} {space : Nat}

/-- Where the one reader tells the end of the input, the other fails. -/
theorem EndsLast.read (h : r.EndsLast) (hs : space ≠ 0) (message : String) :
    Parts message (r.read space) ((r.failing message).read space) := by
  obtain ⟨hending, hl, hn⟩ := h
  obtain ⟨hmem, hanswer⟩ := answer_failing hl hs message hn
  have hread : r.read space = ((answer r.limit? .finished space r.events).1,
      { r with events := (answer r.limit? .finished space r.events).2 }) := by
    unfold Reader.read
    rw [hending]
  have hfail : (r.failing message).read space =
      ((answer r.limit? (.failing message) space r.events).1,
        { r with
          events := (answer r.limit? (.failing message) space r.events).2
          ending := .failing message }) := rfl
  rw [hread, hfail]
  refine ⟨⟨hending, hl, hmem⟩, ?_, ?_⟩
  · -- The two readers answer alike, or this is the end of the one and the failure of the other.
    rcases hanswer with ⟨heq, -⟩ | ⟨hend, hfailed⟩
    · rw [heq]
      rfl
    · rw [hend, hfailed]
      rfl
  · rcases hanswer with ⟨heq, hne⟩ | ⟨hend, hfailed⟩
    · exact .inl ⟨by rw [heq], hne⟩
    · exact .inr ⟨by rw [hend], by rw [hfailed], by rw [hend]⟩

/-- As often as the one reader is asked, the other is, and they part only at the end. -/
theorem EndsLast.request (h : r.EndsLast) (space : Nat) (hs : space ≠ 0) (message : String) (n : Nat) :
    Parts message (Buffer.request space n r) (Buffer.request space n (r.failing message)) := by
  induction n generalizing r with
  | zero => exact ⟨h, rfl, .inl ⟨rfl, nofun⟩⟩
  | succ n ih =>
    obtain ⟨hends, hreader, hanswer⟩ := h.read hs message
    unfold Buffer.request
    generalize r.read space = x at hends hreader hanswer ⊢
    generalize (r.failing message).read space = y at hreader hanswer ⊢
    obtain ⟨a, rest⟩ := x
    obtain ⟨a', rest'⟩ := y
    dsimp only at hends hreader hanswer
    subst hreader
    rcases hanswer with ⟨rfl, hne⟩ | ⟨rfl, rfl, hnil⟩
    · cases a' with
      | stalled => exact ih hends
      | delivered bytes => exact ⟨hends, rfl, .inl ⟨rfl, hne⟩⟩
      | failed message => exact ⟨hends, rfl, .inl ⟨rfl, hne⟩⟩
    · exact ⟨hends, rfl, .inr ⟨rfl, rfl, hnil⟩⟩

/-- Behind its events the reader keeps failing. -/
theorem request_failing_of_nil {message : String} (h : r.events = []) (n : Nat) :
    Buffer.request space (n + 1) (r.failing message) = (.failed message, r.failing message) := by
  have hread : (r.failing message).read space = (.failed message, r.failing message) := by
    unfold Reader.read failing
    dsimp only
    rw [h]
    rfl
  rw [request_of_ne_stalled (by rw [hread]; exact ReadAnswer.noConfusion), hread]

/-- Without events the reader fails at once. -/
theorem hands_failing_of_nil {message : String} (h : r.events = []) :
    (r.failing message).Hands .empty (some (.failed message)) := by
  unfold Hands failing
  dsimp only
  rw [h]
  exact .failing rfl

/-- A reader that fails hands out what the other does, and then fails. -/
theorem course_failing {limit? : Option Nat} {n : Nat} {events : List ReadEvent} {bytes : ByteArray}
    (h : Brings n events bytes) (hl : limit? ≠ some 0) (hn : .endOfInput ∉ events)
    (message : String) :
    Course limit? (.failing message) n events bytes (some (.failed message)) := by
  induction h with
  | finished => exact .failing rfl
  | endOfInput => exact absurd List.mem_cons_self hn
  | stall _ ih => exact .stall (ih fun hm => hn (List.mem_cons_of_mem _ hm))
  | skip hp _ ih => exact .skip hp (ih fun hm => hn (List.mem_cons_of_mem _ hm))
  | data hp _ ih => exact .data hl hp (ih fun hm => hn (List.mem_cons_of_mem _ hm))

/-- The failing reader hands out the same bytes. -/
theorem Delivers.hands_failing {bytes : ByteArray} (h : r.Delivers bytes) (hn : .endOfInput ∉ r.events)
    (message : String) : (r.failing message).Hands bytes (some (.failed message)) :=
  course_failing h.brings h.limit? hn message

end Reader

/-! ## Buffers -/

namespace Buffer

/-- The one buffer is at the same place as the other, whose reader fails where the one's ends. -/
structure Twin (message : String) (b b' : Buffer) : Prop where
  tracks : ∃ c, b.Tracks none c ∧ b'.Tracks (some (.failed message)) c
  endsLast : b.reader.EndsLast
  reader_eq : b'.reader = b.reader.failing message
  alike : b.pending? = none ∧ b' = { b with reader := b.reader.failing message } ∨
    b.pending? = some .endOfInput ∧ b.reader.events = []

variable {message : String} {b b' : Buffer} {c : Cursor} {outcome : Option ReadFailure}
  {before held ahead : ByteArray}

/-- New buffers on the two readers are twins. -/
theorem twin_ofReader {r : Reader} {bytes : ByteArray} (hr : r.Delivers bytes)
    (hn : .endOfInput ∉ r.events) (message : String) :
    (ofReader r).Twin message (ofReader (r.failing message)) :=
  ⟨⟨_, tracks_ofReader hr.hands, tracks_ofReader (hr.hands_failing hn message)⟩,
    ⟨hr.ending, hr.limit?, hn⟩, rfl, .inl ⟨rfl, rfl⟩⟩

/-- Two buffers alike are filled alike, or come to the end of the input and to a failure. -/
theorem Twin.fill (h : b.Twin message b') (hp : b.pending? = none) : b.fill.Twin message b'.fill := by
  obtain ⟨⟨c, ⟨before, held, ahead, hb⟩, ⟨before', held', ahead', hb'⟩⟩, hends, -, halike⟩ := h
  -- With nothing pending neither has ended, so the buffers are the same but for the reader.
  obtain ⟨-, rfl⟩ := halike.resolve_right fun ⟨hend, _⟩ => by rw [hp] at hend; cases hend
  have hle : (b.cells.extract b.keepFrom b.stop).size ≤ b.stop := by
    rw [ByteArray.size_extract]
    omega
  obtain ⟨hroom, -⟩ := hb.kept_lt_roomFor _ hle
  obtain ⟨hlater, hreader, hanswer⟩ := hends.request
    (b.roomFor (b.cells.extract b.keepFrom b.stop).size - 1 -
      (b.cells.extract b.keepFrom b.stop).size) (by omega) message requestsPerFill
  have htracks := hb.fill hp
  refine ⟨⟨c, htracks, hb'.fill hp⟩, hlater, hreader, ?_⟩
  rcases hanswer with ⟨hsame, hne⟩ | ⟨hend, -, hnil⟩
  · left
    constructor
    · obtain ⟨_, _, _, hfilled⟩ := htracks
      exact (hfilled.input.resolve_right fun ⟨hend, _⟩ => hne hend).1
    · unfold Buffer.fill
      dsimp only [keepFrom, roomFor] at hsame hreader ⊢
      rw [hsame, hreader]
  · exact .inr ⟨congrArg answerPending? hend, hnil⟩

/-- A failing reader without events is the same after any number of fillings. -/
theorem reader_replenish {r : Reader} (hr : b.reader = r.failing message) (hn : r.events = []) :
    b.replenish.reader = r.failing message := by
  fun_induction Buffer.replenish b with
  | case1 b _ ih =>
    apply ih
    change (request _ (9 + 1) b.reader).2 = _
    rw [hr, Reader.request_failing_of_nil hn]
  | case2 b _ => exact hr

/-- Twins that have been filled as far as it takes are still twins. -/
theorem Twin.replenish (h : b.Twin message b') : b.replenish.Twin message b'.replenish := by
  fun_induction Buffer.replenish b generalizing b' with
  | case1 b hw ih =>
    have hp : b.pending? = none := by
      simp only [wantsMore, Bool.and_eq_true, Option.isNone_iff_eq_none] at hw
      exact hw.2
    have hw' : b'.wantsMore := by
      have hgoing : ¬(b.pending? = some .endOfInput ∧ b.reader.events = []) := by
        rw [hp]
        exact fun hlast => Option.some_ne_none _ hlast.1.symm
      obtain ⟨-, rfl⟩ := h.alike.resolve_right hgoing
      exact hw
    rw [Buffer.replenish.eq_def b', if_pos hw']
    exact ih (h.fill hp)
  | case2 b hw =>
    obtain ⟨c, ht, ht'⟩ := h.tracks
    rcases h.alike with ⟨hp, hsame⟩ | ⟨hend, hnil⟩
    · have hw' : ¬b'.wantsMore := by
        subst hsame
        exact hw
      rw [Buffer.replenish.eq_def b', if_neg hw']
      exact h
    · -- The one needs no filling any more, but the other may have to be told the failure again.
      exact ⟨⟨c, ht, ht'.replenish.1⟩, h.endsLast, reader_replenish h.reader_eq hnil,
        .inr ⟨hend, hnil⟩⟩

/-! ### Fetching -/

/-- A reader without events hands nothing out. -/
theorem Holds.ahead_eq_empty_of_nil (h : b.Holds outcome c before held ahead)
    (hn : b.reader.events = []) : ahead = .empty := by
  rcases h.input with ⟨-, hhands⟩ | ⟨-, he⟩
  · unfold Reader.Hands at hhands
    rw [hn] at hhands
    cases hhands <;> rfl
  · exact he

/-- With no bytes ahead there is a byte at the position exactly if the cursor is not at the end. -/
theorem Holds.next_lt_iff (h : b.Holds outcome c before held .empty) :
    b.next < b.stop ↔ c.offset < c.bytes.size := by
  have hs := h.stop_eq
  rw [h.size_eq, h.offset_eq, ByteArray.size_empty]
  omega

/-- What a plain look finds when no bytes are ahead. -/
theorem Holds.plain?_eq (h : b.Holds outcome c before held .empty) :
    b.plain? = if hi : c.offset < c.bytes.size then
      if c.bytes[c.offset] < sentinel then some (ofByte c.bytes[c.offset]) else none
    else none := by
  unfold plain?
  by_cases hi : c.offset < c.bytes.size
  · have hn := h.next_lt_iff.mpr hi
    rw [if_pos hn, dif_pos hi, h.getElem?_cells hn hi]
  · rw [if_neg fun hn => hi (h.next_lt_iff.mp hn), dif_neg hi]

/-- What is taken from a buffer that needs no filling. -/
theorem Holds.take_fst (h : b.Holds outcome c before held ahead) (hw : b.wantsMore = false)
    (hn : b.next < b.stop) : b.take.1 = (c.bytes.utf8DecodeChar? c.offset).elim .malformed .char := by
  unfold Buffer.take
  rw [if_pos hn, h.utf8DecodeChar?_eq hw]
  cases c.bytes.utf8DecodeChar? c.offset <;> rfl

/-- What is taken is stepped over. -/
theorem take_snd (hn : b.next < b.stop) : b.take.2 = { b with next := b.next + b.take.1.width } := by
  unfold Buffer.take
  rw [if_pos hn]
  cases (b.cells.extract b.next (min (b.next + Utf8.maxWidth) b.stop)).utf8DecodeChar? 0 <;> rfl

/-- Both fetch the same, or the one comes to the end and the other is told the failure; in any case
twins are left. -/
def Twin.Fetches (message : String) (x y : Fetched × Buffer) : Prop :=
  x.2.Twin message y.2 ∧ x.1.width ≤ x.2.next ∧ x.1.width ≤ y.2.next ∧
    (x.1.found ∧ y.1 = x.1 ∨ x.1 = .finished none ∧ y.1 = .finished (some (.failed message)))

/-- Twins step over the same. -/
theorem Twin.step (h : b.Twin message b') {f : Fetched} (hf : f.found)
    (hx : Buffer.Fetches none c (f, { b with next := b.next + f.width }))
    (hy : Buffer.Fetches (some (.failed message)) c (f, { b' with next := b'.next + f.width })) :
    Twin.Fetches message (f, { b with next := b.next + f.width })
      (f, { b' with next := b'.next + f.width }) := by
  cases hx with
  | stands _ ht hwidth =>
    cases hy with
    | stands _ ht' hwidth' =>
      refine ⟨⟨⟨_, ht, ht'⟩, h.endsLast, h.reader_eq, ?_⟩, hwidth, hwidth', .inl ⟨hf, rfl⟩⟩
      exact h.alike.imp_left fun ⟨hp, hsame⟩ => ⟨hp, by rw [hsame]⟩
    | fails => cases hf
  | fails => cases hf

/-- Both take the same from the bytes that they hold. -/
theorem Twin.take (h : b.Twin message b') (hw : b.wantsMore = false) (hw' : b'.wantsMore = false) :
    Twin.Fetches message b.take b'.take := by
  obtain ⟨c, ⟨before, held, ahead, hb⟩, ⟨before', held', ahead', hb'⟩⟩ := h.tracks
  -- What is held in both is handed out alike, so they only differ once it is used up.
  by_cases hn : b.next < b.stop ∧ b'.next < b'.stop
  · have hfst := (hb.take_fst hw hn.1).trans (hb'.take_fst hw' hn.2).symm
    have hfound : b.take.1.found := by
      rw [hb.take_fst hw hn.1]
      cases c.bytes.utf8DecodeChar? c.offset <;> rfl
    have hx : b.take = (b.take.1, { b with next := b.next + b.take.1.width }) :=
      Prod.ext rfl (take_snd hn.1)
    have hy : b'.take = (b.take.1, { b' with next := b'.next + b.take.1.width }) :=
      Prod.ext hfst.symm (hfst ▸ take_snd hn.2)
    have htake := hb.take hw
    have htake' := hb'.take hw'
    rw [hx] at htake
    rw [hy] at htake'
    rw [hx, hy]
    exact h.step hfound htake htake'
  · -- Only behind all events is there nothing left in a buffer that needs no filling.
    have hnil : b.pending? = some .endOfInput ∧ b.reader.events = [] := by
      refine h.alike.resolve_left fun ⟨hp, hsame⟩ => ?_
      have hnext : b.next = b.stop := by
        have hle := hb.next_le
        subst hsame
        dsimp only at hn
        omega
      have hend := (hb.ahead_eq_empty hw hnext).2
      rw [hp] at hend
      cases hend
    obtain rfl := hb.ahead_eq_empty_of_nil hnil.2
    obtain rfl := hb'.ahead_eq_empty_of_nil (by rw [h.reader_eq]; exact hnil.2)
    rw [hb.next_lt_iff, hb'.next_lt_iff, and_self] at hn
    have hend : ¬b.next < b.stop := fun hlt => hn (hb.next_lt_iff.mp hlt)
    have hend' : ¬b'.next < b'.stop := fun hlt => hn (hb'.next_lt_iff.mp hlt)
    have hpending := (hb'.ahead_eq_empty hw' (by have := hb'.next_le; omega)).2
    have hhands : b'.reader.Hands .empty (some (.failed message)) := by
      rw [h.reader_eq]
      exact Reader.hands_failing_of_nil hnil.2
    have hx : b.take = (.finished none, b) := by
      unfold Buffer.take
      rw [if_neg hend, hnil.1]
    have hy : b'.take = (.finished (some (.failed message)), { b' with pending? := none }) := by
      unfold Buffer.take
      rw [if_neg hend', hpending]
      rfl
    rw [hx, hy]
    refine ⟨⟨⟨c, ⟨_, _, _, hb⟩, ⟨_, _, _, { hb' with input := .inl ⟨rfl, hhands⟩ }⟩⟩, h.endsLast,
      h.reader_eq, .inr hnil⟩, Nat.zero_le _, Nat.zero_le _, .inr ⟨rfl, rfl⟩⟩

/-- A plain look finds the same in both. -/
theorem Twin.plain?_eq (h : b.Twin message b') : b'.plain? = b.plain? := by
  obtain ⟨c, ⟨before, held, ahead, hb⟩, ⟨before', held', ahead', hb'⟩⟩ := h.tracks
  rcases h.alike with ⟨-, rfl⟩ | ⟨-, hnil⟩
  · rfl
  · obtain rfl := hb.ahead_eq_empty_of_nil hnil
    obtain rfl := hb'.ahead_eq_empty_of_nil (by rw [h.reader_eq]; exact hnil)
    rw [hb.plain?_eq, hb'.plain?_eq]

/-- Both fetch the same, up to the end of the input, where the failure is told instead. -/
theorem Twin.fetch (h : b.Twin message b') : Twin.Fetches message b.fetch b'.fetch := by
  obtain ⟨c, ht, ht'⟩ := h.tracks
  -- A plain byte is fetched without reading; otherwise the buffers are filled up first, where the failure may
  -- be met.
  cases hp : b.plain? with
  | some found =>
    have hone : found.width = 1 := by
      obtain ⟨before, held, ahead, hb⟩ := ht
      exact (hb.plain hp).2.1
    have hx : b.fetch = (found, { b with next := b.next + found.width }) := by
      unfold Buffer.fetch
      rw [hp, hone]
    have hy : b'.fetch = (found, { b' with next := b'.next + found.width }) := by
      unfold Buffer.fetch
      rw [h.plain?_eq, hp, hone]
    have hfetch := ht.fetches
    have hfetch' := ht'.fetches
    rw [hx] at hfetch
    rw [hy] at hfetch'
    rw [hx, hy]
    exact h.step (Fetched.found_of_width_ne (by rw [hone]; exact Nat.one_ne_zero)) hfetch hfetch'
  | none =>
    have hx : b.fetch = b.replenish.take := by
      unfold Buffer.fetch
      rw [hp]
    have hy : b'.fetch = b'.replenish.take := by
      unfold Buffer.fetch
      rw [h.plain?_eq, hp]
    rw [hx, hy]
    exact h.replenish.take ht.replenish.2 ht'.replenish.2

/-! ### Marks -/

/-- Both set the mark. -/
theorem Twin.setMark (h : b.Twin message b') {back : Nat} (hb : back ≤ b.next) (hb' : back ≤ b'.next) :
    (ByteWindow.setMark back b).Twin message (ByteWindow.setMark back b') := by
  obtain ⟨⟨c, ht, ht'⟩, hends, hreader, halike⟩ := h
  refine ⟨⟨_, ht.setMark hb, ht'.setMark hb'⟩, hends, hreader, halike.imp_left ?_⟩
  rintro ⟨hp, rfl⟩
  exact ⟨hp, rfl⟩

/-- Both give up the mark. -/
theorem Twin.clearMark (h : b.Twin message b') :
    (ByteWindow.clearMark b).Twin message (ByteWindow.clearMark b') := by
  obtain ⟨⟨c, ht, ht'⟩, hends, hreader, halike⟩ := h
  refine ⟨⟨_, ht.clearMark, ht'.clearMark⟩, hends, hreader, halike.imp_left ?_⟩
  rintro ⟨hp, rfl⟩
  exact ⟨hp, rfl⟩

/-- Both go back to their marks. -/
theorem Twin.rewind (h : b.Twin message b') :
    (ByteWindow.rewind b).Twin message (ByteWindow.rewind b') := by
  obtain ⟨⟨c, ht, ht'⟩, hends, hreader, halike⟩ := h
  refine ⟨⟨_, ht.rewind, ht'.rewind⟩, hends, hreader, halike.imp_left ?_⟩
  rintro ⟨hp, rfl⟩
  exact ⟨hp, rfl⟩

end Buffer

end FrontEnd
