import HeapImage.Archive.Basic
import HeapImage.Checked.Basic

/-!
# Checked walks

The walk through a region and the maps that come out of it, with every access checked. The headers,
the lengths and the types of the objects are whatever a file says.

* `Checked.scan`: the objects from an offset to a region's end.
* `Checked.derive`, `Checked.crossCheck`: the maps of a region, and whether two maps agree.
* `Checked.checkMaps`: whether the maps of an archive are those that its objects call for.
-/

namespace HeapImage.Checked

/-! ### Objects -/

/-- Appends the objects in `[offset, stop)` to those found before. Each is looked for in the bytes
from its offset to the end of the region. -/
def scanFrom (b : ByteArray) (r : TypeRegistry) (slot stop offset : Nat)
    (found : Array ObjectSpan) : Checked (Array ObjectSpan × Option (Nat × StreamFault)) :=
  if offset < stop then
    match within b.size offset (stop - offset) with
    | .error fault => .error fault
    | .ok () =>
      match _h : ObjectSpan.at? b r slot offset stop with
      | .error fault => .ok (found, some (offset, fault))
      | .ok o => scanFrom b r slot stop (offset + o.size) (found.push o)
  else .ok (found, none)
termination_by stop - offset
decreasing_by
  have := ObjectSpan.size_pos_of_at? _h
  omega

/-- The objects that stand back to back from `start` on, and what stands in the way of tiling
`[start, stop)` with them. -/
def scan (b : ByteArray) (r : TypeRegistry) (slot start stop : Nat) :
    Checked (List ObjectSpan × Option (Nat × StreamFault)) :=
  (scanFrom b r slot stop start #[]).map fun (found, fault) => (found.toList, fault)

/-! ### Maps -/

/-- Marks the reference slots and the native pointers of an object. -/
def mark (b : ByteArray) (slot : Nat) (native : Extent) (maps : RegionMaps) (o : ObjectSpan) :
    Checked RegionMaps := do
  let references ← (o.references slot).foldlM (fun m i => insert m (i / slot)) maps.references
  let natives ← (o.natives slot).foldlM
    (fun m i => do
      let value ← valueAt b i wordSize
      if native.contains value then insert m (i / wordSize) else return m)
    maps.natives
  return ⟨references, natives⟩

/-- The maps of the region that consists of the given bytes. -/
def derive (b : ByteArray) (r : TypeRegistry) (slot : Nat) (native : Extent) :
    Checked (Except ArchiveError RegionMaps) := do
  if slot = 0 then throw (.bounds .emptySlots)
  let (objects, fault) ← scan b r slot 0 b.size
  let maps ← objects.foldlM (mark b slot native) (RegionMaps.blank b.size slot)
  match fault with
  | some fault => return .error (ObjectSpan.walkError fault)
  | none => return .ok maps

/-- The first of some bits of a derived map that is not the bit of the recorded one. -/
def difference? (derived recorded : BitMap) (first : Nat) : List Nat → Checked (Option Nat)
  | [] => .ok none
  | i :: rest => do
    let x ← contains derived i
    let y ← contains recorded (first + i)
    if x != y then return some i else difference? derived recorded first rest

/-- Bit `i` of a derived map is bit `first + i` of the recorded one, for all its bits. -/
def crossCheck (derived recorded : BitMap) (first : Nat) (region : Region) :
    Checked (Except ArchiveError Unit) := do
  if recorded.size < first + derived.size then
    return .error (.mapMismatch region (recorded.size - first))
  else
    match ← difference? derived recorded first (List.range derived.size) with
    | some bit => return .error (.mapMismatch region bit)
    | none => return .ok ()

/-! ### Archives -/

/-- The maps of one region are those that its objects call for. -/
def checkRegionMaps (a : Archive) (region : Region) : Checked (Except ArchiveError Unit) := do
  let e := a.header.range region
  let bytes ← slice a.image e.bottom (← sub e.top e.bottom)
  match ← derive bytes a.types a.header.refSize.toNat a.header.native with
  | .error e => return .error e
  | .ok derived =>
    match ← crossCheck derived.references (a.maps region).references 0 region with
    | .error e => return .error e
    | .ok () => crossCheck derived.natives (a.maps region).natives 0 region

/-- The maps of both regions are those that the objects of the image call for. -/
def checkMaps (a : Archive) : Checked (Except ArchiveError Unit) := do
  match ← checkRegionMaps a .opened with
  | .error e => return .error e
  | .ok () => checkRegionMaps a .closed

end HeapImage.Checked
