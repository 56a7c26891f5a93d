/-!
# Accesses outside a buffer

Code that keeps its own invariants never asks for a bit or a byte that is not there, nor for a
buffer that no memory could hold. A request that does is refused on the spot, and what was done
before it stays done.

* `BoundsFault`: what was asked for, and the size of what it was asked of.
* `BoundsFault.checkBytes`: whether a range of bytes lies in a buffer.
* `maxBuffer`: the most bytes of a buffer.
-/

namespace HeapImage

/-- The most bytes of a buffer: a distance inside it fits a signed heap word. -/
def maxBuffer : Nat := 0x7fffffffffffffff

/-- An access to something that is not there. -/
inductive BoundsFault where
  /-- A bit at or beyond the size of its map. -/
  | bit (i size : Nat)
  /-- Element `i` of an array that has only `size` elements. -/
  | element (i size : Nat)
  /-- The bytes `[start, stop)` of a buffer that ends before `stop`. -/
  | bytes (start stop size : Nat)
  /-- The slots of a buffer, each without bytes. -/
  | emptySlots
  /-- A buffer of more bytes than any can have. -/
  | tooLarge
  deriving DecidableEq, Repr

namespace BoundsFault

/-- The wording of a fault. Bytes are refused for their first offset if it lies outside already. -/
def message : BoundsFault → String
  | bit i size => "bit " ++ toString i ++ " out of range " ++ toString size
  | element i size =>
    "index out of bounds: the len is " ++ toString size ++ " but the index is " ++ toString i
  | bytes start stop size =>
    let (which, offset) := if size < start then ("start", start) else ("end", stop)
    "range " ++ which ++ " index " ++ toString offset ++ " out of range for slice of length " ++
      toString size
  | emptySlots => "attempt to divide by zero"
  | tooLarge => "capacity overflow"

/-- Refuses the `n` bytes at offset `i` unless a buffer of `size` bytes has them. -/
def checkBytes (size i n : Nat) : Except BoundsFault Unit :=
  if i + n ≤ size then .ok () else .error (bytes i (i + n) size)

/-- The check passes exactly if the bytes lie inside. -/
theorem checkBytes_eq_ok_iff {size i n : Nat} : checkBytes size i n = .ok () ↔ i + n ≤ size := by
  unfold checkBytes
  split <;> simp [*]

end BoundsFault

end HeapImage
