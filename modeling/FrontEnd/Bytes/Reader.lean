/-!
# Readers

A `Reader` is a source of bytes that answers one request at a time, and not always with bytes. Its
behaviour is a finite list of events followed by an ending that repeats forever: no more input, or
the same failure again and again. A request names the room there is for an answer; a delivery never
exceeds it, nor the reader's own limit for one delivery. As with any such interface, a delivery of
no bytes is how the end of the input is told.

`bytesLeft` counts the bytes that are still to come. What a request delivers and what is left after it
make up what there was (`totalBytes_answer`), which is what bounds the loops that read.
-/

namespace FrontEnd

/-- What a reader answers to the next requests. -/
inductive ReadEvent where
  /-- bytes, handed out in as many requests as it takes -/
  | data (bytes : ByteArray)
  /-- one request that has to be repeated -/
  | stall
  /-- one request that fails -/
  | failure (message : String)
  /-- one request that is told the end of the input -/
  | endOfInput
deriving Inhabited

/-- What a reader does once its events are used up. -/
inductive ReadEnding where
  | finished
  | failing (message : String)
deriving Inhabited

/-- A source of bytes. -/
structure Reader where
  events : List ReadEvent
  /-- the most bytes of one delivery, if there is a limit -/
  limit? : Option Nat
  ending : ReadEnding
deriving Inhabited

/-- The answer to one request. -/
inductive ReadAnswer where
  /-- some bytes, or none at the end of the input -/
  | delivered (bytes : ByteArray)
  | stalled
  | failed (message : String)
deriving Inhabited

namespace Reader

/-- The reader that delivers `bytes` as they are asked for. -/
def ofBytes (bytes : ByteArray) : Reader := ⟨[.data bytes], none, .finished⟩

/-- The reader whose every request fails. -/
def broken (message : String) : Reader := ⟨[], none, .failing message⟩

/-- How many of `available` bytes one delivery brings into `space`. -/
def quota (limit? : Option Nat) (space available : Nat) : Nat :=
  min (min space available) (limit?.getD available)

/-- The answer that the events give to a request for up to `space` bytes, and the events after it.
Empty pieces of data are passed over. -/
def answer (limit? : Option Nat) (ending : ReadEnding) (space : Nat) :
    List ReadEvent → ReadAnswer × List ReadEvent
  | [] =>
    match ending with
    | .finished => (.delivered .empty, [])
    | .failing message => (.failed message, [])
  | .data bytes :: rest =>
    if bytes.size = 0 then answer limit? ending space rest
    else
      -- What does not fit now stays in front of the later events.
      let n := quota limit? space bytes.size
      if n = bytes.size then (.delivered bytes, rest)
      else (.delivered (bytes.extract 0 n), .data (bytes.extract n bytes.size) :: rest)
  | .stall :: rest => (.stalled, rest)
  | .failure message :: rest => (.failed message, rest)
  | .endOfInput :: rest => (.delivered .empty, rest)

/-- One request for up to `space` bytes. -/
def read (r : Reader) (space : Nat) : ReadAnswer × Reader :=
  let (a, events) := answer r.limit? r.ending space r.events
  (a, { r with events })

/-- The bytes that an event holds. -/
def eventBytes : ReadEvent → Nat
  | .data bytes => bytes.size
  | _ => 0

/-- The number of bytes that events hold together. -/
def totalBytes : List ReadEvent → Nat
  | [] => 0
  | e :: rest => eventBytes e + totalBytes rest

/-- The number of bytes that are still to come. -/
def bytesLeft (r : Reader) : Nat := totalBytes r.events

/-- A delivery brings no more than there is. -/
theorem quota_le (limit? : Option Nat) (space available : Nat) :
    quota limit? space available ≤ available :=
  Nat.le_trans (Nat.min_le_left ..) (Nat.min_le_right ..)

/-- The number of bytes in an answer. -/
def answerBytes : ReadAnswer → Nat
  | .delivered bytes => bytes.size
  | _ => 0

/-- What is delivered and what is left make up what there was. -/
theorem totalBytes_answer (limit? : Option Nat) (ending : ReadEnding) (space : Nat)
    (events : List ReadEvent) :
    answerBytes (answer limit? ending space events).1 +
        totalBytes (answer limit? ending space events).2 =
      totalBytes events := by
  induction events with
  | nil => cases ending <;> rfl
  | cons e rest ih =>
    cases e with
    | data bytes =>
      unfold answer
      by_cases h : bytes.size = 0
      · simpa [h, totalBytes, eventBytes] using ih
      · -- A piece beyond the quota is handed over in part; the rest goes back in front of the events.
        have := quota_le limit? space bytes.size
        by_cases hq : quota limit? space bytes.size = bytes.size
        · simp [h, hq, answerBytes, totalBytes, eventBytes]
        · simp only [h, hq, if_false, answerBytes, totalBytes, eventBytes, ByteArray.size_extract]
          omega
    | stall => simp [answer, totalBytes, eventBytes, answerBytes]
    | failure message => simp [answer, totalBytes, eventBytes, answerBytes]
    | endOfInput => simp [answer, totalBytes, eventBytes, answerBytes]

end Reader

end FrontEnd
