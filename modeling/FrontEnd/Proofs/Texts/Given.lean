import FrontEnd.Proofs.Lockstep
import FrontEnd.Proofs.Words.Coming

/-!
# What a stream gives

The characters that become current one after another, from one state of a stream to a later one, are what it
gives on the way (`CharStream.Gives`). It may be told on the way that something is wrong; that has no
influence on what comes. All that a scanner does to take a token, but for two dots, gives some characters
(`CharStream.onward_gives`).
-/

namespace FrontEnd

namespace CharStream

variable {ω : Type}

/-! ## What is told has no influence -/

/-- The streams are the same but for what they have to tell. -/
def Same (s t : CharStream ω) : Prop := s.dropReports = t.dropReports

variable {s t u : CharStream ω}

namespace Same

/-- What is still to come is the same. -/
theorem window_eq (h : s.Same t) : s.window = t.window :=
  show s.dropReports.window = t.dropReports.window from congrArg CharStream.window h

/-- The current character is the same. -/
theorem char?_eq (h : s.Same t) : s.char? = t.char? :=
  show s.dropReports.char? = t.dropReports.char? from congrArg CharStream.char? h

/-- Both count the character. -/
theorem passChar (h : s.Same t) : s.passChar.Same t.passChar := by
  have hpass (s : CharStream ω) : s.passChar.dropReports = s.dropReports.passChar := by
    unfold CharStream.passChar
    rw [show s.dropReports.char? = s.char? from rfl]
    split <;> rfl
  unfold Same at *
  rw [hpass, h, ← hpass]

/-- Both receive the same. -/
theorem receive (h : s.Same t) (fetched : Fetched × ω) : (s.receive fetched).Same (t.receive fetched) := by
  have hreceive (s : CharStream ω) :
      (s.receive fetched).dropReports = (s.dropReports.receive fetched).dropReports := by
    unfold CharStream.receive
    rw [show s.dropReports.fault? fetched.1 = s.fault? fetched.1 from rfl]
    rcases fetched with ⟨_ | _ | _ | _, _⟩ <;> dsimp only <;> split <;> rfl
  unfold Same at *
  rw [hreceive, h, ← hreceive]

/-- Both go on to the same character. -/
theorem advance [ByteWindow ω] (h : s.Same t) : s.advance.Same t.advance := by
  refine seek_of_fetch (N := Same) (R := Same) (fun {s t} h => ?_) passChar h.passChar
  rw [h.window_eq]
  exact ⟨rfl, h.receive _⟩

/-- There is as much to come. -/
theorem remaining_eq [ByteWindow ω] (h : s.Same t) : s.remaining = t.remaining := by
  unfold CharStream.remaining
  rw [h.window_eq, h.char?_eq]

end Same

/-! ## Giving -/

variable [ByteWindow ω] {cs ds : List Char} {c : Char}

/-- The characters come next in the stream, and behind them it is the other one but for what has been told. -/
def Gives (s : CharStream ω) (cs : List Char) (t : CharStream ω) : Prop :=
  ∃ u, s.Comes cs u ∧ u.Same t

/-- Behind some characters there is no more to come. -/
theorem Comes.remaining_le (h : s.Comes cs t) : t.remaining ≤ s.remaining := by
  induction cs generalizing s with
  | nil => exact Nat.le_of_eq (congrArg remaining (show t = s from h))
  | cons c cs ih => exact Nat.le_trans (ih h.2) s.remaining_advance_le

/-- What comes next is given. -/
theorem Comes.gives (h : s.Comes cs t) : s.Gives cs t := ⟨t, h, rfl⟩

namespace Gives

/-- A stream that has not gone on has given nothing. -/
theorem refl (s : CharStream ω) : s.Gives [] s := Comes.gives rfl

/-- The current character is given when the stream goes on. -/
theorem advance (h : s.Gives cs t) (hc : t.char? = some c) : s.Gives (cs ++ [c]) t.advance := by
  obtain ⟨u, hu, hsame⟩ := h
  have huc : u.char? = some c := hsame.char?_eq.trans hc
  exact ⟨u.advance, comes_concat.mpr ⟨u, hu, huc, rfl⟩, hsame.advance⟩

/-- A complaint gives nothing. -/
theorem complainAt (h : s.Gives cs t) (place : Place) (fault : LexFault) :
    s.Gives cs (t.complainAt place fault) := h

/-- What is given uses the stream up, so no more than that is given up to the same place. -/
theorem unique (h : s.Gives cs t) (h' : s.Gives ds t) : cs = ds := by
  obtain ⟨u, hu, hut⟩ := h
  obtain ⟨v, hv, hvt⟩ := h'
  have hsame : u.remaining = v.remaining := hut.remaining_eq.trans hvt.remaining_eq.symm
  -- Both are what stands between the same two points; of two runs the longer one leaves less.
  induction cs generalizing s ds with
  | nil =>
    obtain rfl : u = s := hu
    cases ds with
    | nil => rfl
    | cons d ds =>
      have hlt := remaining_advance_lt _ (Option.isSome_of_eq_some hv.1)
      have hle := hv.2.remaining_le
      omega
  | cons c cs ih =>
    cases ds with
    | nil =>
      obtain rfl : v = s := hv
      have hlt := remaining_advance_lt _ (Option.isSome_of_eq_some hu.1)
      have hle := hu.2.remaining_le
      omega
    | cons d ds =>
      rw [Option.some.inj (hu.1.symm.trans hv.1), ih hu.2 hv.2]

end Gives

/-- What comes next and what is given behind it. -/
theorem Comes.gives_append (h : s.Comes cs t) (h' : t.Gives ds u) : s.Gives (cs ++ ds) u := by
  obtain ⟨v, hv, hsame⟩ := h'
  exact ⟨v, comes_append.mpr ⟨t, h, hv⟩, hsame⟩

/-- Going on gives some characters, whatever is told. -/
theorem onward_gives (s : CharStream ω) (start : Place) :
    Onward start fun t u : CharStream ω => t = u ∧ ∃ cs, s.Gives cs t := by
  refine .of_invariant start ?_ (fun _ h => h) (fun _ h => h)
  rintro t hc ⟨cs, h⟩
  obtain ⟨c, hc⟩ := Option.isSome_iff_exists.mp hc
  exact ⟨_, h.advance hc⟩

end CharStream

end FrontEnd
