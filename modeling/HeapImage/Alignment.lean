/-!
# Alignment of addresses and offsets

Rounding to a multiple of an alignment, which everywhere in the library is a power of two. The
operations clear or test the low bits, so they stay total for any alignment.

* `alignDown v a`: the part of `v` above the low bits that `a` leaves free.
* `alignUp v a`: the same for the last value before the next boundary.
* `isAligned v a`: no such low bit of `v` is set.
-/

namespace HeapImage

/-- Bytes in a heap word. -/
def wordSize : Nat := 8

/-- The low bits of `v` that stay below the alignment `a`. -/
def alignRest (v a : Nat) : Nat := v &&& (a - 1)

/-- `v` rounded down to a multiple of the power of two `a`. -/
def alignDown (v a : Nat) : Nat := v - alignRest v a

/-- `v` rounded up to a multiple of the power of two `a`. -/
def alignUp (v a : Nat) : Nat := alignDown (v + (a - 1)) a

/-- `v` is a multiple of the power of two `a`. -/
def isAligned (v a : Nat) : Bool := alignRest v a == 0

/-! ### Bounds -/

/-- Rounding down never exceeds the number. -/
theorem alignDown_le (v a : Nat) : alignDown v a ≤ v := Nat.sub_le _ _

/-- Rounding up never falls short of the number. -/
theorem le_alignUp (v a : Nat) : v ≤ alignUp v a := by
  have h : alignRest (v + (a - 1)) a ≤ a - 1 := Nat.and_le_right
  simp only [alignUp, alignDown]
  omega

end HeapImage
