import HeapImage.Error

/-!
# Walking the objects of a region

The objects of a region stand back to back from its first byte to its last.

* `ObjectSpan`: an object found at an offset, with its header, its type and its size.
* `ObjectSpan.at?`: the object at an offset, or what keeps it from being one.
* `ObjectSpan.scan`: the objects from an offset to a region's end.
-/

namespace HeapImage

/-- An object of a region. -/
structure ObjectSpan where
  /-- Where the object starts. -/
  offset : Nat
  /-- Its header. -/
  header : ObjectHeader
  /-- Its type. -/
  type : TypeInfo
  /-- Its size in bytes. -/
  size : Nat
  deriving DecidableEq, Repr

namespace ObjectSpan

/-- The first byte after the object. -/
def stop (o : ObjectSpan) : Nat := o.offset + o.size

/-- Offsets of the object's reference slots, from where the offsets of objects are counted. -/
def references (o : ObjectSpan) (slot : Nat) : List Nat :=
  (o.type.kind.referenceOffsets o.header.length slot).map (o.offset + ·)

/-- Offsets of the object's native pointers, from where the offsets of objects are counted. -/
def natives (o : ObjectSpan) (slot : Nat) : List Nat :=
  (o.type.kind.nativeOffsets slot).map (o.offset + ·)

/-- The object at `offset` in a region that ends at `stop`. -/
def at? (b : ByteArray) (r : TypeRegistry) (slot offset stop : Nat) :
    Except StreamFault ObjectSpan :=
  if stop < offset + headerSize then .error .truncatedHeader
  else
    match ObjectHeader.read? b offset with
    | none => .error .truncatedHeader
    | some header =>
      match r.get? header.typeIndex with
      | none => .error (.unknownType header.typeIndex)
      | some type =>
        if type.kind.acceptsLength header.length then
          let size := type.kind.objectSize header.length slot
          if stop < offset + size then .error (.overrun type.name)
          else .ok ⟨offset, header, type, size⟩
        else .error (.badLength type.name header.length)

/-- A walk always moves on: an object that it finds takes up memory. -/
theorem size_pos_of_at? {b : ByteArray} {r : TypeRegistry} {slot offset stop : Nat}
    {o : ObjectSpan} (h : at? b r slot offset stop = .ok o) : 0 < o.size := by
  unfold at? at h
  split at h
  · cases h
  · split at h
    · cases h
    · split at h
      · cases h
      · rename_i type _
        split at h
        · simp only [] at h
          split at h
          · cases h
          · cases h
            exact Nat.lt_of_lt_of_le (by decide) (TypeKind.headerSize_le_objectSize ..)
        · cases h

/-- Appends the objects in `[offset, stop)` to those found before, up to the first place where
there is none. The offset that a fault comes with is that place. -/
def scanFrom (b : ByteArray) (r : TypeRegistry) (slot stop offset : Nat)
    (found : Array ObjectSpan) : Array ObjectSpan × Option (Nat × StreamFault) :=
  if offset < stop then
    match _h : at? b r slot offset stop with
    | .error fault => (found, some (offset, fault))
    | .ok o => scanFrom b r slot stop (offset + o.size) (found.push o)
  else (found, none)
termination_by stop - offset
decreasing_by
  have := size_pos_of_at? _h
  omega

/-- The objects that stand back to back from `start` on, and what stands in the way of tiling
`[start, stop)` with them. -/
def scan (b : ByteArray) (r : TypeRegistry) (slot start stop : Nat) :
    List ObjectSpan × Option (Nat × StreamFault) :=
  let (found, fault) := scanFrom b r slot stop start #[]
  (found.toList, fault)

/-- A fault of a walk over an archive's region as an error. -/
def walkError : Nat × StreamFault → ArchiveError
  | (offset, .truncatedHeader) => .format (.corrupt (.truncatedObject offset))
  | (_, .unknownType t) => .unknownType t
  | (offset, .badLength name n) => .format (.corrupt (.objectLength name offset n.toNat))
  | (offset, .overrun name) => .format (.corrupt (.objectOverrun name offset))

end ObjectSpan

end HeapImage
