/-!
# Growth of a buffer

A buffer that runs out of room jumps to a least size, doubles while it is small, and grows by a
constant amount from there on.
-/

namespace FrontEnd.Growth

/-- The least size of a buffer. -/
def least : Nat := 4096

/-- The largest size that still doubles, and the step above it. -/
def largestDoubled : Nat := 1024 * 1024

/-- The size after `size`, for a least size `least` and a largest doubled size `step`. -/
def grow (size least step : Nat) : Nat :=
  if size < least then least
  else if size ≤ step then 2 * size
  else size + step

/-- The size after `size` of a source buffer. -/
def nextSize (size : Nat) : Nat :=
  grow size least largestDoubled

/-- A buffer becomes larger when it grows. -/
theorem lt_nextSize (size : Nat) : size < nextSize size := by
  unfold nextSize grow
  split
  · assumption
  · split <;> simp only [least, largestDoubled] at * <;> omega

/-- Whole pages grow to whole pages. -/
theorem least_dvd_nextSize {size : Nat} (h : least ∣ size) : least ∣ nextSize size := by
  unfold nextSize grow
  split
  · exact Nat.dvd_refl _
  · split
    · exact Nat.dvd_mul_left_of_dvd h 2
    · exact Nat.dvd_add h ⟨256, rfl⟩

end FrontEnd.Growth
