import FrontEnd.Proofs.Bases.Spanning
import FrontEnd.Proofs.Gaps.Calls

/-!
# The order of the queue

What a scanner tells, it tells in the order in which it is to be followed. A comment that may be a directive
comes after all that is wrong up to its end and before all that is told of what is behind it
(`Legs.ordered`). Each lexeme comes with what is told up to it: a comment that comes with a lexeme ends
before it, unless it takes in a newline and is the lexeme itself, and one that comes later ends behind its
start (`Legs.early`, `Legs.late`).

A `Leg` is what one call of `next` goes over and tells, and `Legs` are those of all calls.
-/

namespace FrontEnd

/-- A comment that is told of stands where it starts, and takes something in. -/
def Remark.Opens (bytes : ByteArray) : Remark → Prop
  | error .. => True
  | directive start stop _ => bytes.utf8DecodeChar? start = some '/' ∧ start < stop

/-- The comment from one offset up to another is no directive, wherever it is. -/
def IsInert (bytes : ByteArray) (span : Nat × Nat) : Prop :=
  ∀ place, LineDirective.candidate? place (Utf8.decodeLossy (bytes.extract span.1 span.2)) = none

/-- What is about bytes up to some offset may be told before what is about others behind it. -/
theorem Remark.Within.precedes_of_le {bytes : ByteArray} {i k : Nat} {x y : Remark} (h : x.Within i k)
    (hy : k ≤ y.offset) (hopens : y.Opens bytes) : x.Precedes y := by
  cases x with
  | directive => exact Nat.le_trans h.2.2 hy
  | error =>
    cases y with
    | error => exact trivial
    | directive => exact Nat.lt_of_le_of_lt (Nat.le_trans h.2 hy) hopens.2

/-- Errors may be told in any order. -/
theorem Remark.InToken.precedes {x y : Remark} (hx : x.InToken) (hy : y.InToken) : x.Precedes y := by
  cases x with
  | directive => cases hx.2.1
  | error =>
    cases y with
    | error => exact trivial
    | directive => cases hy.2.1

/-- What is told of a token opens no comment. -/
theorem Remark.InToken.opens {bytes : ByteArray} {x : Remark} (hx : x.InToken) : x.Opens bytes := by
  cases x with
  | error => exact trivial
  | directive => cases hx.2.1

section

variable {r : Reader} {bytes : ByteArray} {i k : Nat} {ps : List Crossing}

/-- The first character of a crossing stands where it starts. -/
theorem Crossings.decode_of_mem (h : Crossings r bytes i ps k) {p : Crossing} (hp : p ∈ ps) :
    bytes.utf8DecodeChar? p.start = p.passage.chars.head? := by
  induction h with
  | nil => cases hp
  | cons hhead _ _ _ ih =>
    rcases List.mem_cons.mp hp with rfl | hp
    · exact hhead
    · exact ih hp

/-- A crossing is made up of items. -/
theorem Crossings.decodes_of_mem (h : Crossings r bytes i ps k) {p : Crossing} (hp : p ∈ ps) :
    ∃ fs, Decodes r bytes p.start fs p.stop ∧ heard fs = p.passage.chars := by
  induction h with
  | nil => cases hp
  | cons _ hdecodes hheard _ ih =>
    rcases List.mem_cons.mp hp with rfl | hp
    · exact ⟨_, hdecodes, hheard⟩
    · exact ih hp

/-- A crossing that may be a directive is so from its start to its stop. -/
theorem Crossing.span?_eq_some {p : Crossing} {span : Nat × Nat} (h : p.span? = some span) :
    p.passage.mayDirect ∧ span = (p.start, p.stop) := by
  unfold Crossing.span? at h
  split at h
  · next hp => exact ⟨hp, (Option.some.inj h).symm⟩
  · cases h

/-- A single crossing is between its own offsets. -/
theorem Crossings.bounds_eq {p : Crossing} (h : Crossings r bytes i [p] k) : p.start = i ∧ p.stop = k := by
  cases h with
  | cons _ _ _ hrest =>
    cases hrest
    exact ⟨rfl, rfl⟩

/-- A comment that takes in a newline is no directive. -/
theorem Crossings.isInert {p : Crossing} {next? : Option Char} (h : Crossings r bytes i [p] k)
    (hfits : p.passage.Fits next?) (hline : '\n' ∈ p.passage.chars) {span : Nat × Nat}
    (hspan : p.span? = some span) : IsInert bytes span := by
  obtain ⟨hmay, rfl⟩ := Crossing.span?_eq_some hspan
  intro place
  cases hp : p.passage with
  | blockComment text => exact Crossing.candidate?_eq_none h hp hline place
  | lineComment text =>
    rw [hp] at hfits hline
    refine absurd ?_ hfits.1
    simpa [Passage.chars] using hline
  | blank | stray | openComment =>
    rw [hp] at hmay
    cases hmay

end

/-- What is told of on the way is told where it is, and a comment stands where it starts. -/
theorem CharStream.Passing.opens {r : Reader} {bytes : ByteArray} {exact : Prop}
    {s t : CharStream Buffer} {ps : List Crossing} {told : List Remark}
    (h : Passing r bytes exact s t ps told) {x : Remark} (hx : x ∈ told) : x.Opens bytes := by
  obtain ⟨fs, hstretch, -⟩ := h.stretch
  have hwithin := hstretch.account.within x hx
  cases x with
  | error => exact trivial
  | directive start stop place =>
    have hspan : (start, stop) ∈ told.filterMap Remark.span? := List.mem_filterMap.mpr ⟨_, hx, rfl⟩
    rw [h.spans_eq] at hspan
    obtain ⟨p, hp, he⟩ := List.mem_filterMap.mp hspan
    -- A directive comes from a passage that may direct, which is a comment and begins with a slash.
    obtain ⟨hmay, he⟩ := Crossing.span?_eq_some he
    cases he
    refine ⟨?_, hwithin.2.1⟩
    rw [h.crossings.decode_of_mem hp]
    cases hpassage : p.passage with
    | lineComment | blockComment => rfl
    | blank | stray | openComment =>
      rw [hpassage] at hmay
      cases hmay

namespace Scanner

/-- The crossings stand in the gap before the lexeme that `next` finds, up to where it starts. If the lexeme
is a separator that stands for a comment, that is the last of them. -/
def Crosses (r : Reader) (bytes : ByteArray) (s : Scanner Buffer) (ps : List Crossing) : Prop :=
  ∃ j, Crossings r bytes (s.stream.offset r.bytesLeft) ps j ∧
    Gap (ps.map Crossing.passage) (bytes.utf8DecodeChar? j) ∧
    (j = s.start.offset r.bytesLeft ∨
      j = s.next.stream.offset r.bytesLeft ∧ s.next.lexeme.token = .semi ∧
        ∃ qs p, ps = qs ++ [p] ∧ p.start = s.start.offset r.bytesLeft ∧ '\n' ∈ p.passage.chars)

/-- From offset `i` on, a call of `next` goes over the crossings to a lexeme, and tells `told`. As far as
`exact` goes, the places of all that are right. -/
structure Leg (r : Reader) (bytes : ByteArray) (exact : Prop) (i : Nat) (s : Scanner Buffer)
    (ps : List Crossing) (told : List Remark) : Prop where
  crosses : s.Crosses r bytes ps
  place_eq : exact → s.next.lexeme.place = .ofOffset bytes (s.start.offset r.bytesLeft)
  le_start : i ≤ s.start.offset r.bytesLeft
  start_le : s.start.offset r.bytesLeft ≤ s.next.stream.offset r.bytesLeft
  next_le : s.next.stream.offset r.bytesLeft ≤ bytes.size
  spans_eq : told.filterMap Remark.span? = ps.filterMap Crossing.span?
  unclosed_eq : told.filterMap Remark.unclosed? = ps.filterMap Crossing.unclosed?
  located : exact → ∀ x ∈ told, x.place = .ofOffset bytes x.offset
  bounds : ∀ x ∈ told, i ≤ x.offset ∧ x.offset ≤ bytes.size
  /-- Nothing is told of what comes later, or out of order, unless the second of two dots is looked at
  again. -/
  ascending : ¬s.start.AtDotsApart r.bytesLeft →
    (∀ x ∈ told, x.offset ≤ s.next.stream.offset r.bytesLeft) ∧ told.Pairwise Remark.Ascends
  opens : ∀ x ∈ told, x.Opens bytes
  ordered : told.Pairwise Remark.Precedes
  /-- What is told may be told before all that is behind the lexeme. -/
  later : ∀ x ∈ told, ∀ y : Remark, s.next.stream.offset r.bytesLeft ≤ y.offset → y.Opens bytes →
    x.Precedes y
  /-- Comments end before the lexeme, or are no directives. -/
  early : ∀ x ∈ told, ∀ span, x.span? = some span →
    span.2 ≤ s.start.offset r.bytesLeft ∨ IsInert bytes span

variable {r : Reader} {bytes : ByteArray} {exact exact' : Prop} {mark? : Option Nat} {s : Scanner Buffer}

/-- A leg is one where less is asked of the places. -/
theorem Leg.mono {i : Nat} {ps : List Crossing} {told : List Remark} (h : Leg r bytes exact i s ps told)
    (hexact : exact' → exact) : Leg r bytes exact' i s ps told :=
  { h with
    place_eq := fun he => h.place_eq (hexact he)
    located := fun he => h.located (hexact he) }

/-- The lexeme has the place where it starts. -/
theorem place_next (h : s.stream.Sited r bytes exact mark?) : s.next.lexeme.place = s.start.place := by
  obtain ⟨c, hsited, -⟩ := h
  exact (hsited.placed.find _ _).place_eq

open CharStream in
/-- Behind the gap a token is taken in. -/
theorem Leg.of_taking {ps : List Crossing} {told told' : List Remark} {fs : List Fetched}
    {again : List (Nat × LexFault)} (hs : s.stream.Sited r bytes exact mark?)
    (happroach : Approach r bytes exact s.lexeme.endsStatement s.stream s.start ps told)
    (htaking : Taking r bytes exact' s.start s.next.stream fs told' again) (hexact : exact' → exact)
    (hascending : ¬s.start.AtDotsApart r.bytesLeft →
      (∀ x ∈ told', x.offset ≤ s.next.stream.offset r.bytesLeft) ∧ told'.Pairwise Remark.Ascends) :
    Leg r bytes exact' (s.stream.offset r.bytesLeft) s ps (told ++ told') := by
  -- The first part of the remarks is made on the way to the token, the second while it is taken.
  obtain ⟨gs, hstretch, -⟩ := happroach.passing.stretch
  have haccount := hstretch.account
  have hle := haccount.decodes.le
  have hle' := htaking.decodes.le
  have hnone (x) (hx : x ∈ told') : x.span? = none := (htaking.inToken x hx).2.1
  have hclosed (x) (hx : x ∈ told') : x.unclosed? = none := (htaking.inToken x hx).2.2
  have hopens (x) (hx : x ∈ told') : x.Opens bytes := (htaking.inToken x hx).opens
  constructor
  case crosses =>
    refine ⟨_, happroach.passing.crossings, ?_, .inl rfl⟩
    rw [happroach.sited.utf8DecodeChar?_eq]
    exact happroach.passing.gap
  case place_eq => exact fun he => by rw [place_next hs, happroach.sited.place_eq (hexact he)]
  case le_start => exact hle
  case start_le => exact hle'
  case next_le => exact htaking.decodes.le_size
  case spans_eq =>
    rw [List.filterMap_append, happroach.passing.spans_eq, List.filterMap_eq_nil_iff.mpr hnone,
      List.append_nil]
  case unclosed_eq =>
    rw [List.filterMap_append, happroach.passing.unclosed_eq, List.filterMap_eq_nil_iff.mpr hclosed,
      List.append_nil]
  case located =>
    exact fun he => List.forall_mem_append.mpr ⟨haccount.located (hexact he), htaking.located he⟩
  case bounds =>
    refine List.forall_mem_append.mpr ⟨fun x hx => ?_, fun x hx => ?_⟩
    · have hwithin := haccount.within x hx
      exact ⟨hwithin.le_offset, Nat.le_trans hwithin.offset_le haccount.decodes.le_size⟩
    · exact ⟨Nat.le_trans hle (htaking.le_offset x hx), htaking.offset_le_size x hx⟩
  case ascending =>
    intro hnot
    obtain ⟨hoffset, hpairs⟩ := hascending hnot
    have hfirst (x) (hx : x ∈ told) : x.offset ≤ s.start.offset r.bytesLeft :=
      (haccount.within x hx).offset_le
    refine ⟨List.forall_mem_append.mpr ⟨fun x hx => Nat.le_trans (hfirst x hx) hle', hoffset⟩, ?_⟩
    refine List.pairwise_append.mpr ⟨haccount.ascending, hpairs, fun x hx y hy _ => ?_⟩
    exact Nat.le_trans (hfirst x hx) (htaking.le_offset y hy)
  case opens =>
    exact List.forall_mem_append.mpr
      ⟨fun _ => happroach.passing.opens, hopens⟩
  case ordered =>
    refine List.pairwise_append.mpr ⟨haccount.ordered, ?_, fun x hx y hy => ?_⟩
    · exact List.pairwise_of_forall_mem_list fun x hx y hy =>
        (htaking.inToken x hx).precedes (htaking.inToken y hy)
    · exact (haccount.within x hx).precedes_of_le (htaking.le_offset y hy) (hopens y hy)
  case later =>
    refine List.forall_mem_append.mpr ⟨fun x hx y hy hopens => ?_, fun x hx y hy hopens => ?_⟩
    · exact (haccount.within x hx).precedes_of_le (Nat.le_trans hle' hy) hopens
    · have hinToken := htaking.inToken x hx
      cases x with
      | directive => cases hinToken.2.1
      | error =>
        cases y with
        | error => exact trivial
        | directive =>
          -- What has been looked at beyond the token holds no slash.
          exact Nat.lt_of_le_of_lt (htaking.offset_le _ hx _ hy hopens.1) hopens.2
  case early =>
    refine List.forall_mem_append.mpr ⟨fun x hx span hspan => ?_, fun x hx span hspan => ?_⟩
    · have hwithin := haccount.within x hx
      cases x with
      | error => cases hspan
      | directive =>
        cases hspan
        exact .inl hwithin.2.2
    · rw [hnone x hx] at hspan
      cases hspan

open CharStream in
/-- A comment behind the gap stands for the separator. -/
theorem Leg.of_comment {ps : List Crossing} {p : Crossing} {told told' : List Remark}
    (hs : s.stream.Sited r bytes exact mark?)
    (happroach : Approach r bytes exact s.lexeme.endsStatement s.stream s.start ps told)
    (hsemi : s.next.lexeme.token = .semi) {mark' : Option Nat}
    (hnext : s.next.stream.Sited r bytes exact mark')
    (hcomment : Passing r bytes exact s.start s.next.stream [p] told')
    (hline : '\n' ∈ Crossing.charsOf [p]) :
    Leg r bytes exact (s.stream.offset r.bytesLeft) s (ps ++ [p]) (told ++ told') := by
  -- The way to the comment, the comment, and the two together, each with the remarks made on it.
  obtain ⟨gs, hstretch, -⟩ := happroach.passing.stretch
  obtain ⟨gs', hstretch', -⟩ := hcomment.stretch
  have hwhole := happroach.passing.trans hcomment
  obtain ⟨us, hall, -⟩ := hwhole.stretch
  have haccount := hall.account
  have hle := hstretch.account.decodes.le
  have hle' := hstretch'.account.decodes.le
  -- It is the newline inside the comment that ends the statement.
  have hline' : '\n' ∈ p.passage.chars := by simpa [Crossing.charsOf] using hline
  constructor
  case crosses =>
    refine ⟨_, hwhole.crossings, ?_, .inr ⟨rfl, hsemi, ps, p, rfl, hcomment.crossings.bounds_eq.1, hline'⟩⟩
    rw [hnext.utf8DecodeChar?_eq]
    exact hwhole.gap
  case place_eq => exact fun he => by rw [place_next hs, happroach.sited.place_eq he]
  case le_start => exact hle
  case start_le => exact hle'
  case next_le => exact haccount.decodes.le_size
  case spans_eq => exact hwhole.spans_eq
  case unclosed_eq => exact hwhole.unclosed_eq
  case located => exact haccount.located
  case bounds =>
    intro x hx
    have hwithin := haccount.within x hx
    exact ⟨hwithin.le_offset, Nat.le_trans hwithin.offset_le haccount.decodes.le_size⟩
  case ascending => exact fun _ => ⟨fun x hx => (haccount.within x hx).offset_le, haccount.ascending⟩
  case opens => exact fun _ => hwhole.opens
  case ordered => exact haccount.ordered
  case later => exact fun x hx y => (haccount.within x hx).precedes_of_le
  -- A span heard before the token starts is of a directive in the approach, or of the comment itself, which
  -- directs nothing.
  case early =>
    refine List.forall_mem_append.mpr ⟨fun x hx span hspan => ?_, fun x hx span hspan => ?_⟩
    · have hwithin := hstretch.account.within x hx
      cases x with
      | error => cases hspan
      | directive =>
        cases hspan
        exact .inl hwithin.2.2
    · have hmem : span ∈ told'.filterMap Remark.span? := List.mem_filterMap.mpr ⟨x, hx, hspan⟩
      rw [hcomment.spans_eq] at hmem
      obtain ⟨q, hq, hspan⟩ := List.mem_filterMap.mp hmem
      cases List.mem_singleton.mp hq
      exact .inr (hcomment.crossings.isInert hcomment.gap.1 hline' hspan)

/-- A call of `next` is a leg. Its places are right, if no newline stands behind two dots where it finds a
token. -/
theorem exists_leg (hs : s.stream.Sited r bytes exact mark?) :
    ∃ ps told, s.next.reports = s.reports ++ told.map (Remark.report bytes) ∧
      Leg r bytes (exact ∧ ¬s.start.AtDotsAndNewline) (s.stream.offset r.bytesLeft) s ps told := by
  obtain ⟨ps, told, happroach, hfinds⟩ := call hs
  obtain ⟨gs, hstretch, -⟩ := happroach.passing.stretch
  rcases hfinds.taken happroach.sited rfl with
    ⟨fs, told', again, -, htaking, -, hascending⟩ | ⟨hsemi, p, told', mark', hnext, -, hcomment, hline⟩
  · refine ⟨ps, told ++ told', ?_, .of_taking hs happroach htaking And.left hascending⟩
    exact htaking.reports_eq.trans (by rw [hstretch.reports_eq, List.map_append, List.append_assoc]; rfl)
  · obtain ⟨gs', hstretch', -⟩ := hcomment.stretch
    have hleg := Leg.of_comment hs happroach hsemi hnext hcomment hline
    refine ⟨ps ++ [p], told ++ told', ?_, hleg.mono And.left⟩
    exact hstretch'.reports_eq.trans (by rw [hstretch.reports_eq, List.map_append, List.append_assoc]; rfl)

/-- The calls of `next` from `s` on are legs, the first of which starts at offset `i`. Each goes over one of
the `gaps` to one of the lexemes, and tells what has been reported up to it. -/
inductive Legs (r : Reader) (bytes : ByteArray) (exact : Prop) :
    Nat → Scanner Buffer → List Scan → List (List Crossing) → List (List Remark) → Prop
  | nil {i s} : Legs r bytes exact i s [] [] []
  | cons {i s scan ps told scans gaps tolds} : Leg r bytes exact i s ps told → scan.lexeme = s.next.lexeme →
      scan.reports = told.map (Remark.report bytes) →
      Legs r bytes exact (s.next.stream.offset r.bytesLeft) s.next.dropReports scans gaps tolds →
      Legs r bytes exact i s (scan :: scans) (ps :: gaps) (told :: tolds)

namespace Legs

variable {i n : Nat} {scan : Scan} {scans : List Scan} {gaps : List (List Crossing)}
  {tolds : List (List Remark)}

/-- Each scan has its gap. -/
theorem length_gaps (h : Legs r bytes exact i s scans gaps tolds) : gaps.length = scans.length := by
  induction h with
  | nil => rfl
  | cons _ _ _ _ ih => rw [List.length_cons, List.length_cons, ih]

/-- The first legs are legs. -/
theorem take (h : Legs r bytes exact i s scans gaps tolds) (n : Nat) :
    Legs r bytes exact i s (scans.take n) (gaps.take n) (tolds.take n) := by
  induction h generalizing n with
  | nil =>
    rw [List.take_nil, List.take_nil, List.take_nil]
    exact .nil
  | cons hleg hlexeme hreports _ ih =>
    cases n with
    | zero => exact .nil
    | succ n => exact .cons hleg hlexeme hreports (ih n)

/-- What is reported is what is told on all legs. -/
theorem reports_eq (h : Legs r bytes exact i s scans gaps tolds) :
    scans.flatMap Scan.reports = tolds.flatten.map (Remark.report bytes) := by
  induction h with
  | nil => rfl
  | cons _ _ hreports _ ih => rw [List.flatMap_cons, List.flatten_cons, List.map_append, hreports, ih]

/-- The comments that are told of are those that have been crossed. -/
theorem spans_eq (h : Legs r bytes exact i s scans gaps tolds) :
    tolds.flatten.filterMap Remark.span? = gaps.flatten.filterMap Crossing.span? := by
  induction h with
  | nil => rfl
  | cons hleg _ _ _ ih =>
    rw [List.flatten_cons, List.flatten_cons, List.filterMap_append, List.filterMap_append, hleg.spans_eq, ih]

/-- A leg goes over the crossings of its gap. -/
theorem crosses (h : Legs r bytes exact i s scans gaps tolds) {ps : List Crossing} (hn : gaps[n]? = some ps) :
    (s.after n).Crosses r bytes ps := by
  induction h generalizing n with
  | nil => cases hn
  | cons hleg _ _ _ ih =>
    cases n with
    | zero => exact Option.some.inj hn ▸ hleg.crosses
    | succ n => exact ih hn

/-- The place of a lexeme is that of the offset at which it starts. -/
theorem place_eq (h : Legs r bytes exact i s scans gaps tolds) (he : exact) (hn : scans[n]? = some scan) :
    scan.lexeme.place = .ofOffset bytes ((s.after n).start.offset r.bytesLeft) := by
  induction h generalizing n with
  | nil => cases hn
  | cons hleg hlexeme _ _ ih =>
    cases n with
    | zero => exact Option.some.inj hn ▸ hlexeme ▸ hleg.place_eq he
    | succ n => exact ih hn

/-- A lexeme starts where its leg does or behind it. -/
theorem le_start (h : Legs r bytes exact i s scans gaps tolds) (hn : scans[n]? = some scan) :
    i ≤ (s.after n).start.offset r.bytesLeft := by
  induction h generalizing n with
  | nil => cases hn
  | cons hleg _ _ _ ih =>
    cases n with
    | zero => exact hleg.le_start
    | succ n => exact Nat.le_trans (Nat.le_trans hleg.le_start hleg.start_le) (ih hn)

/-- The legs follow each other: each starts where those before it have ended. -/
theorem exists_leg (h : Legs r bytes exact i s scans gaps tolds) (hn : scans[n]? = some scan) :
    ∃ o ps told, Leg r bytes exact o (s.after n) ps told ∧ scan.reports = told.map (Remark.report bytes) ∧
      i ≤ o ∧ ∀ j < n, (s.after j).next.stream.offset r.bytesLeft ≤ o := by
  induction h generalizing n with
  | nil => cases hn
  | @cons i s _ ps told _ _ _ hleg _ hreports _ ih =>
    cases n with
    | zero => exact ⟨i, ps, told, hleg, Option.some.inj hn ▸ hreports, Nat.le_refl i, nofun⟩
    | succ n =>
      obtain ⟨o, ps', told', hleg', hreports', hle, hearlier⟩ := ih hn
      refine ⟨o, ps', told', hleg', hreports', Nat.le_trans (Nat.le_trans hleg.le_start hleg.start_le) hle,
        fun j hj => ?_⟩
      cases j with
      | zero => exact hle
      | succ j => exact hearlier j (Nat.lt_of_succ_lt_succ hj)

/-- What is told has the place of the offset that it is about. -/
theorem located (h : Legs r bytes exact i s scans gaps tolds) (he : exact) :
    ∀ x ∈ tolds.flatten, x.place = .ofOffset bytes x.offset := by
  induction h with
  | nil => exact fun _ hx => (List.not_mem_nil hx).elim
  | cons hleg _ _ _ ih => exact List.forall_mem_append.mpr ⟨hleg.located he, ih⟩

/-- A comment that is told of stands where it starts. -/
theorem opens (h : Legs r bytes exact i s scans gaps tolds) : ∀ x ∈ tolds.flatten, x.Opens bytes := by
  induction h with
  | nil => exact fun _ hx => (List.not_mem_nil hx).elim
  | cons hleg _ _ _ ih => exact List.forall_mem_append.mpr ⟨hleg.opens, ih⟩

/-- What is told is about an offset in the input. -/
theorem bounds (h : Legs r bytes exact i s scans gaps tolds) :
    ∀ x ∈ tolds.flatten, i ≤ x.offset ∧ x.offset ≤ bytes.size := by
  induction h with
  | nil => exact fun _ hx => (List.not_mem_nil hx).elim
  | cons hleg _ _ _ ih =>
    refine List.forall_mem_append.mpr ⟨hleg.bounds, fun x hx => ?_⟩
    exact ⟨Nat.le_trans (Nat.le_trans hleg.le_start hleg.start_le) (ih x hx).1, (ih x hx).2⟩

/-- A lexeme starts within the input. -/
theorem start_le_size (h : Legs r bytes exact i s scans gaps tolds) (hn : scans[n]? = some scan) :
    (s.after n).start.offset r.bytesLeft ≤ bytes.size := by
  induction h generalizing n with
  | nil => cases hn
  | cons hleg _ _ _ ih =>
    cases n with
    | zero => exact Nat.le_trans hleg.start_le hleg.next_le
    | succ n => exact ih hn

/-- All is told in order. -/
theorem ordered (h : Legs r bytes exact i s scans gaps tolds) : tolds.flatten.Pairwise Remark.Precedes := by
  induction h with
  | nil => exact .nil
  | cons hleg _ _ hrest ih =>
    refine List.pairwise_append.mpr ⟨hleg.ordered, ih, fun x hx y hy => ?_⟩
    exact hleg.later x hx y (hrest.bounds y hy).1 (hrest.opens y hy)

/-- Comments that are told of by the time that a lexeme is found end before it, or are no directives. -/
theorem early (h : Legs r bytes exact i s scans gaps tolds) (hn : scans[n]? = some scan) :
    ∀ x ∈ (tolds.take (n + 1)).flatten, ∀ span, x.span? = some span →
      span.2 ≤ (s.after n).start.offset r.bytesLeft ∨ IsInert bytes span := by
  induction h generalizing n with
  | nil => cases hn
  | cons hleg _ _ hrest ih =>
    rw [List.take_succ_cons, List.flatten_cons]
    refine List.forall_mem_append.mpr ⟨fun x hx span hspan => ?_, ?_⟩
    · refine (hleg.early x hx span hspan).imp_left fun hle => ?_
      cases n with
      | zero => exact hle
      | succ n => exact Nat.le_trans (Nat.le_trans hle hleg.start_le) (hrest.le_start hn)
    · cases n with
      | zero => exact fun _ hx => (List.not_mem_nil hx).elim
      | succ n => exact ih hn

/-- Comments that are told of later end behind the lexeme's first byte. -/
theorem late (h : Legs r bytes exact i s scans gaps tolds) :
    ∀ x ∈ (tolds.drop (n + 1)).flatten, ∀ span, x.span? = some span →
      (s.after n).start.offset r.bytesLeft < span.2 := by
  induction h generalizing n with
  | nil =>
    rw [List.drop_nil]
    exact fun _ hx => (List.not_mem_nil hx).elim
  | cons hleg _ _ hrest ih =>
    cases n with
    | zero =>
      intro x hx span hspan
      have hx : x ∈ List.flatten _ := hx
      cases x with
      | error => cases hspan
      | directive =>
        cases hspan
        exact Nat.lt_of_le_of_lt (Nat.le_trans hleg.start_le (hrest.bounds _ hx).1) (hrest.opens _ hx).2
    | succ n => exact ih

end Legs

/-- What has been told on the way to `s` may be told with the first leg from there. -/
theorem Leg.earlier {i j : Nat} {fs : List Fetched} {ps : List Crossing} {before told : List Remark}
    (h : Leg r bytes exact j s ps told) (hbefore : Account r bytes exact i fs before j)
    (hplain : Plain before) : Leg r bytes exact i s ps (before ++ told) := by
  have hle := hbefore.decodes.le
  -- What was remarked before `j` lies before everything that the leg remarks from `j` on.
  have hopens (x) (hx : x ∈ before) : x.Opens bytes := (hplain.inToken hx).opens
  have hprecedes (x) (hx : x ∈ before) (y : Remark) (hy : j ≤ y.offset) (hopens : y.Opens bytes) :
      x.Precedes y := (hbefore.within x hx).precedes_of_le hy hopens
  constructor
  case crosses => exact h.crosses
  case place_eq => exact h.place_eq
  case le_start => exact Nat.le_trans hle h.le_start
  case start_le => exact h.start_le
  case next_le => exact h.next_le
  case spans_eq => rw [List.filterMap_append, hplain.span_eq_nil, h.spans_eq, List.nil_append]
  case unclosed_eq => rw [List.filterMap_append, hplain.unclosed_eq_nil, h.unclosed_eq, List.nil_append]
  case located => exact fun he => List.forall_mem_append.mpr ⟨hbefore.located he, h.located he⟩
  case bounds =>
    refine List.forall_mem_append.mpr ⟨fun x hx => ?_, fun x hx => ?_⟩
    · have hwithin := hbefore.within x hx
      exact ⟨hwithin.le_offset, Nat.le_trans hwithin.offset_le hbefore.decodes.le_size⟩
    · exact ⟨Nat.le_trans hle (h.bounds x hx).1, (h.bounds x hx).2⟩
  -- Each part ascends by itself; between them stands the boundary `j`.
  case ascending =>
    intro hnot
    obtain ⟨hoffset, hpairs⟩ := h.ascending hnot
    have hfirst (x) (hx : x ∈ before) : x.offset ≤ j := (hbefore.within x hx).offset_le
    refine ⟨List.forall_mem_append.mpr ⟨fun x hx => ?_, hoffset⟩, ?_⟩
    · exact Nat.le_trans (hfirst x hx) (Nat.le_trans h.le_start h.start_le)
    · exact List.pairwise_append.mpr ⟨hbefore.ascending, hpairs, fun x hx y hy _ =>
        Nat.le_trans (hfirst x hx) (h.bounds y hy).1⟩
  case opens => exact List.forall_mem_append.mpr ⟨hopens, h.opens⟩
  case ordered =>
    refine List.pairwise_append.mpr ⟨hbefore.ordered, h.ordered, fun x hx y hy => ?_⟩
    exact hprecedes x hx y (h.bounds y hy).1 (h.opens y hy)
  case later =>
    refine List.forall_mem_append.mpr ⟨fun x hx y hy => ?_, h.later⟩
    exact hprecedes x hx y (Nat.le_trans (Nat.le_trans h.le_start h.start_le) hy)
  case early =>
    refine List.forall_mem_append.mpr ⟨fun x hx span hspan => ?_, h.early⟩
    rw [(hplain.inToken hx).2.1] at hspan
    cases hspan

/-- Up to the end of the input, every call is a leg. The places are right as far as no newline stands behind
two dots. -/
theorem exists_legs {i m : Nat} {fs : List Fetched} {before : List Remark}
    (hs : s.stream.Sited r bytes exact mark?)
    (hbefore : Account r bytes exact i fs before (s.stream.offset r.bytesLeft)) (hplain : Plain before)
    (hreports : s.reports = before.map (Remark.report bytes))
    (hexact : exact' → exact ∧ s.Unshifted (s.scanUpTo m).length) :
    ∃ gaps tolds, Legs r bytes exact' i s (s.scanUpTo m) gaps tolds := by
  -- By the number of scans asked for; the remarks still waiting are charged to the first leg, after which none
  -- wait.
  induction m generalizing s exact mark? i fs before with
  | zero => exact ⟨[], [], .nil⟩
  | succ m ih =>
    unfold scanUpTo at hexact ⊢
    dsimp only at hexact ⊢
    have hfirst (he : exact') : exact ∧ ¬s.start.AtDotsAndNewline :=
      ⟨(hexact he).1, (hexact he).2 0 (by split <;> exact Nat.succ_pos _)⟩
    obtain ⟨ps, told, htold, hleg⟩ := exists_leg hs
    have hscan : s.next.reports = (before ++ told).map (Remark.report bytes) := by
      rw [htold, hreports, List.map_append]
    have hleg := (hleg.earlier (hbefore.mono And.left) hplain).mono hfirst
    -- The end of the input closes the run of legs; at any other token the rest comes from the stream that the
    -- leg left.
    split
    · exact ⟨_, _, .cons hleg rfl hscan .nil⟩
    · next heof =>
      rw [if_neg heof] at hexact
      obtain ⟨mark', hnext⟩ := sited_next hs
      obtain ⟨gaps, tolds, hlegs⟩ := ih (s := s.next.dropReports) hnext.dropReports
        (.nil hnext.offset_le) plain_nil rfl fun he => ⟨hfirst he, (unshifted_succ.mp (hexact he).2).2⟩
      exact ⟨_, _, .cons hleg rfl hscan hlegs⟩

end Scanner

end FrontEnd
