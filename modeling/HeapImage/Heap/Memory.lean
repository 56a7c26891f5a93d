import HeapImage.Error
import HeapImage.Extent

/-!
# Heap memory

What a load needs of a heap, so that any heap that offers it can be loaded into.

* `Memory`: byte access at addresses, where one access stays inside one contiguous extent.
* `Destination`: memory that allocates objects and takes over extents of loaded ones.
* `MappingHost`: a keeper of address ranges for images that are mapped as a whole.
* `Memory.readWord?`, `Memory.readValue?`, `Memory.writeValue`: numbers at addresses.
* `Memory.readSlot?`, `Memory.tryWriteSlot`: numbers in reference slots of any size.
-/

namespace HeapImage

/-- Byte access to a heap. -/
class Memory (μ : Type) where
  /-- The `len` bytes at an address, if they lie in one extent. -/
  read? : μ → (address : Nat) → (len : Nat) → Option ByteArray
  /-- The `len` bytes at an address can be written. -/
  canWrite : μ → (address : Nat) → (len : Nat) → Bool
  /-- Replaces the bytes at an address, which has to be writable for as many. -/
  write : μ → (address : Nat) → (bytes : ByteArray) → μ
  /-- A bound on the number of addresses at which a byte can be read. -/
  extent : μ → Nat

/-- An object that a heap is asked to make room for. -/
structure AllocationRequest where
  shape : Shape
  typeIndex : TypeIndex
  /-- Field or element count. -/
  length : UInt32
  /-- Bytes, header included. -/
  size : Nat
  deriving DecidableEq, Repr

/-- A heap that objects can be copied to. -/
class Destination (μ : Type) extends Memory μ where
  /-- Zeroed memory for one object. -/
  allocate : μ → AllocationRequest → Except AllocationError Nat × μ
  /-- Takes over an extent of finished objects. -/
  completeLoaded : μ → Extent → μ

/-- A keeper of address ranges. -/
class MappingHost (μ : Type) where
  /-- Sets a range of `len` addresses aside, at the requested base or elsewhere. -/
  reserve : μ → (requested : Nat) → (len : Nat) → Option Nat × μ
  /-- Gives a range back. -/
  release : μ → (base : Nat) → (len : Nat) → μ
  /-- Takes over a region of a mapped image. -/
  completeMapped : μ → Extent → μ

namespace Memory

variable {μ : Type} [Memory μ]

/-- The number in the `len` bytes at an address. -/
def readValue? (heap : μ) (a : Nat) (len : Nat) : Option Nat :=
  (read? heap a len).map fun b => Bytes.valueAt b 0 len

/-- The heap word at an address. -/
def readWord? (heap : μ) (a : Nat) : Option UInt64 :=
  (readValue? heap a wordSize).map UInt64.ofNat

/-- Writes a number into the `len` bytes at an address. -/
def writeValue (heap : μ) (a : Nat) (len value : Nat) : μ :=
  write heap a (Bytes.ofList (Bytes.ofNat len value))

/-- Writes a number if the bytes at the address can be written; says whether they could. -/
def tryWriteValue (heap : μ) (a : Nat) (len value : Nat) : Bool × μ :=
  if canWrite heap a len then (true, writeValue heap a len value) else (false, heap)

/-- The number in the reference slot of `size` bytes at an address, if all of them can be read. They
have to hold the number. -/
def readSlot? (heap : μ) (a : Nat) (size : Nat) : Except BoundsFault (Option Nat) :=
  match read? heap a size with
  | none => .ok none
  | some b => (readSlot b 0 size).map some

/-- Writes a number into the reference slot of `size` bytes at an address if all of them can be
written; says whether they could. They have to hold the number. -/
def tryWriteSlot (heap : μ) (a : Nat) (size value : Nat) : Except BoundsFault (Bool × μ) :=
  if canWrite heap a size then
    (BoundsFault.checkBytes size 0 (slotWidth size)).map fun _ =>
      (true, writeValue heap a (slotWidth size) value)
  else .ok (false, heap)

/-- Writes bytes if the bytes at the address can be written; says whether they could. -/
def tryWrite (heap : μ) (a : Nat) (bytes : ByteArray) : Bool × μ :=
  if canWrite heap a bytes.size then (true, write heap a bytes) else (false, heap)

end Memory

end HeapImage
