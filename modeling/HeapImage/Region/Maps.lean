import HeapImage.BitMap
import HeapImage.Extent
import HeapImage.Region.Walk

/-!
# Maps of a region

An archive says where a load has to adjust a region. One map has a bit for every reference slot and
marks the reference fields, null or not; the other has a bit for every heap word and marks the
native pointers into the dumped native image.

* `RegionMaps`, `RegionMaps.derive`: the two maps, and what they have to be for given bytes.
* `crossCheck`: whether a derived map agrees with bits recorded elsewhere.
-/

namespace HeapImage

/-- Where references and native pointers are in a region. -/
structure RegionMaps where
  /-- One bit per reference slot. -/
  references : BitMap
  /-- One bit per heap word. -/
  natives : BitMap

namespace RegionMaps

/-- The maps of a region without bytes. -/
def empty : RegionMaps := ⟨BitMap.empty 0, BitMap.empty 0⟩

instance : BEq RegionMaps := ⟨fun a b => a.references == b.references && a.natives == b.natives⟩

/-- Marks the reference slots and the native pointers of an object. Slots that are larger than a
heap word can have numbers beyond the last whole slot of the region, and those have no bit. -/
def mark (b : ByteArray) (slot : Nat) (native : Extent) :
    RegionMaps → ObjectSpan → Except BoundsFault RegionMaps
  | ⟨references, natives⟩, o => do
    let references ← (o.references slot).foldlM (fun m i => m.set? (i / slot)) references
    let natives ← (o.natives slot).foldlM
      (fun m i =>
        if native.contains (Bytes.valueAt b i wordSize) then m.set? (i / wordSize) else .ok m)
      natives
    return ⟨references, natives⟩

/-- Maps with no bit set for a region of `size` bytes. -/
def blank (size slot : Nat) : RegionMaps :=
  ⟨BitMap.empty (size / slot), BitMap.empty (size / wordSize)⟩

/-- The maps of the region that consists of the given bytes, for a native image at the given
addresses. -/
def derive (b : ByteArray) (r : TypeRegistry) (slot : Nat) (native : Extent) :
    Except ArchiveError RegionMaps := do
  if slot = 0 then throw (.bounds .emptySlots)
  -- The objects in front of a fault are marked before the fault is met.
  let (objects, fault) := ObjectSpan.scan b r slot 0 b.size
  let maps ← (objects.foldlM (mark b slot native) (blank b.size slot)).mapError .bounds
  match fault with
  | some fault => throw (ObjectSpan.walkError fault)
  | none => return maps

end RegionMaps

/-- Bit `i` of a derived map is bit `first + i` of the recorded one, for all its bits. -/
def crossCheck (derived recorded : BitMap) (first : Nat) (region : Region) :
    Except ArchiveError Unit :=
  if recorded.size < first + derived.size then
    .error (.mapMismatch region (recorded.size - first))
  else
    match (List.range derived.size).find? fun i =>
        derived.contains i != recorded.contains (first + i) with
    | some bit => .error (.mapMismatch region bit)
    | none => .ok ()

end HeapImage
