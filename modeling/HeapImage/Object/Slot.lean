import HeapImage.Bounds
import HeapImage.Bytes

/-!
# Reference slots

A reference slot is half a heap word or a whole one. Slots of any other size are laid out at that
size, but what is read from them and written to them is a heap word.

* `slotWidth`: the bytes of a slot that hold its number.
* `readSlot`: the number in the slot at an offset.
-/

namespace HeapImage

/-- Bytes that hold the number in a slot of `size` bytes. -/
def slotWidth (size : Nat) : Nat := if size = 4 then 4 else wordSize

@[simp] theorem slotWidth_four : slotWidth 4 = 4 := rfl

@[simp] theorem slotWidth_eight : slotWidth 8 = 8 := rfl

/-- The number in the slot of `size` bytes at an offset. -/
def readSlot (b : ByteArray) (i size : Nat) : Except BoundsFault Nat :=
  (BoundsFault.checkBytes b.size i (slotWidth size)).map fun _ =>
    Bytes.valueAt b i (slotWidth size)

end HeapImage
