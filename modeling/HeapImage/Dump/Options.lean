import HeapImage.Region.Maps

/-!
# Dump options

* `DumpOptions`: where a dump expects its heap and its native image to be, and its limits.
* `DumpOptions.check`: the options are usable.
-/

namespace HeapImage

/-- `n` is a power of two. -/
def isPowerOfTwo (n : Nat) : Bool := n != 0 && alignRest n n == 0

/-- How a heap is dumped. -/
structure DumpOptions where
  /-- Regions start at multiples of this power of two, and no object crosses one. -/
  alignment : Nat
  /-- The closed region ends below this address. -/
  heapEnd : Nat
  /-- How references are stored. -/
  encoding : ReferenceEncoding
  /-- The requested addresses of the native image. -/
  native : Extent
  /-- The most bytes that may be staged. -/
  capacity : Nat
  deriving DecidableEq, Repr

namespace DumpOptions

/-- One mebibyte regions below 32 GiB, with the native image above. -/
def standard : DumpOptions where
  alignment := 1024 * 1024
  heapEnd := 0x800000000
  encoding := default
  native := ⟨0x800000000, 0x840000000⟩
  capacity := 256 * 1024 * 1024

instance : Inhabited DumpOptions := ⟨standard⟩

/-- Refuses options that no dump can work with. Identities are stored in reference slots while an
object waits in the staging buffer, so narrow slots limit the buffer. -/
def check (o : DumpOptions) : Except ArchiveError Unit := do
  if !isPowerOfTwo o.alignment || o.alignment < headerSize then
    throw (.options (.alignment o.alignment))
  if o.heapEnd < o.alignment then throw (.options (.heapEnd o.heapEnd))
  if o.native.top < o.native.bottom then throw (.options .reversedNativeRange)
  if o.encoding.isNarrow && ReferenceEncoding.maxNarrow ≤ o.capacity / wordSize then
    throw (.options (.capacity o.capacity))
  o.encoding.check

end DumpOptions

end HeapImage
