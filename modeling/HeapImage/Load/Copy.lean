import HeapImage.Load.Patch

/-!
# Copying an image

An image that cannot be used where it stands is copied object by object into memory of a destination
heap. The first pass copies, and leaves each object's new address in place of its mark word in the
image. The second pass follows these addresses to replace the references in the copies.

* `Block`: an extent of copies that is contiguous in the heap and in the image.
* `CopyState`, `CopyStep`: a copy under way, and a step of it.
* `CopyStep.materialize`, `CopyStep.relocate`: the two passes.
* `resolve?`: the new address of the object at an image offset.
* `copyImage`: both passes, after which the blocks are handed over.
-/

namespace HeapImage

/-- Copied objects that are neighbours both in the heap and in the image. -/
structure Block where
  /-- Their addresses. -/
  dest : Extent
  /-- The region they come from. -/
  region : Region
  /-- The image offset of the first of them. -/
  streamOffset : Nat
  deriving DecidableEq, Repr

/-- The image offset behind the last object. -/
def Block.streamTop (b : Block) : Nat := b.streamOffset + b.dest.length

/-- Copied objects with what is needed to use them. -/
structure CopiedObjects where
  /-- The address of the root array. -/
  root : Nat
  /-- The extents of the copies, in image order. -/
  blocks : Array Block
  /-- Number of copies. -/
  objects : Nat
  types : TypeRegistry
  encoding : ReferenceEncoding
  counts : LoadCounts

/-- The extents of the copies. -/
def CopiedObjects.extents (c : CopiedObjects) : List Extent := c.blocks.toList.map Block.dest

/-- A copy under way into a heap. -/
structure CopyState (μ : Type) where
  heap : μ
  /-- The image, with new addresses in place of the mark words of copied objects. -/
  image : ByteArray
  /-- The heap words of the image at which copied objects start. -/
  starts : BitMap
  blocks : Array Block
  objects : Nat
  counts : LoadCounts

/-- A step of a copy: it gives a value or fails, and the state goes on from where it got to. -/
abbrev CopyStep (μ α : Type) := ExceptT ArchiveError (StateM (CopyState μ)) α

/-- What stays the same during a copy. -/
structure CopyPlan where
  header : ArchiveHeader
  types : TypeRegistry
  opened : RegionMaps
  closed : RegionMaps
  runtime : ReferenceEncoding
  /-- The distance to add to native pointers. -/
  delta : UInt64

namespace CopyPlan

/-- Bytes of a reference slot. -/
def slotSize (p : CopyPlan) : Nat := p.runtime.slotSize

/-- The maps of a region. -/
def maps (p : CopyPlan) : Region → RegionMaps
  | .opened => p.opened
  | .closed => p.closed

/-- The image offset at which a region starts. -/
def bottom (p : CopyPlan) (region : Region) : Nat := (p.header.range region).bottom

end CopyPlan

/-- The new address of the object that starts at an image offset. -/
def resolve? (image : ByteArray) (starts : BitMap) (offset : Nat) : Option Nat :=
  if offset % wordSize = 0 ∧ starts.contains (offset / wordSize) = true then
    some (Bytes.valueAt image offset wordSize)
  else none

namespace CopyStep

variable {μ : Type} [Destination μ]

/-- Asks the heap for memory. -/
def allocate (request : AllocationRequest) : CopyStep μ Nat := do
  let result ← modifyGet fun s =>
    match Destination.allocate s.heap request with
    | (result, heap) => (result, { s with heap := heap })
  match result with
  | .ok a => return a
  | .error e => throw (.ofAllocation e)

/-- Writes bytes to the heap; says whether the heap takes them. -/
def write (a : Nat) (bytes : ByteArray) : CopyStep μ Bool :=
  modifyGet fun s =>
    match Memory.tryWrite s.heap a bytes with
    | (done, heap) => (done, { s with heap := heap })

/-- Writes a number to the heap; says whether the heap takes it. -/
def writeValue (a len value : Nat) : CopyStep μ Bool :=
  write a (Bytes.ofList (Bytes.ofNat len value))

/-! ### The first pass -/

/-- Adds the distance to the native pointer at an address. -/
def rebaseNative (delta : UInt64) (a : Nat) : CopyStep μ Unit := do
  match Memory.readWord? (← get).heap a with
  | none => throw (.load (.unreadableNative a))
  | some value =>
    if ← writeValue a wordSize (value + delta).toNat then
      modify fun s => { s with counts := { s.counts with natives := s.counts.natives + 1 } }
    else throw (.load (.unwritableNative a))

/-- Adds the distance to the native pointers of an object that was copied to `dest`. -/
def rebaseNatives (p : CopyPlan) (region : Region) (o : ObjectSpan) (dest : Nat) :
    CopyStep μ Unit :=
  -- Bits are counted from the start of the region.
  let first := (o.offset - p.bottom region) / wordSize
  let bits := (p.maps region).natives.ones first (first + o.size / wordSize)
  bits.forM fun bit => rebaseNative p.delta (dest + (bit - first) * wordSize)

/-- The blocks with one more object, which extends the last block if it is a neighbour in the heap
and in the image. -/
def extendBlocks (blocks : Array Block) (region : Region) (o : ObjectSpan) (dest : Nat) :
    Array Block :=
  let fresh : Block := ⟨⟨dest, dest + o.size⟩, region, o.offset⟩
  match blocks.back? with
  | none => blocks.push fresh
  | some last =>
    if last.region = region ∧ last.dest.top = dest ∧ last.streamTop = o.offset then
      blocks.pop.push { last with dest := ⟨last.dest.bottom, dest + o.size⟩ }
    else blocks.push fresh

/-- Copies one object. -/
def copyObject (p : CopyPlan) (region : Region) (o : ObjectSpan) : CopyStep μ Unit := do
  let dest ← allocate ⟨o.type.kind.shape, o.header.typeIndex, o.header.length, o.size⟩
  let bytes := (← get).image.extract o.offset o.stop
  if !(← write dest bytes) then throw (.load (.unusableMemory dest))
  if p.delta ≠ 0 then rebaseNatives p region o dest
  -- The copy keeps its mark word; only the image gives its own up for the new address.
  modify fun s =>
    { s with
      blocks := extendBlocks s.blocks region o dest
      starts := s.starts.insert (o.offset / wordSize)
      image := Bytes.setWord s.image o.offset (UInt64.ofNat dest)
      objects := s.objects + 1 }

/-- Copies the objects of a region up to the first place where there is none. -/
def materializeRegion (p : CopyPlan) (region : Region) : CopyStep μ Unit := do
  let e := p.header.range region
  let (objects, fault) := ObjectSpan.scan (← get).image p.types p.slotSize e.bottom e.top
  -- What stands in front of a fault is copied before the fault is reported.
  objects.forM (copyObject p region)
  match fault with
  | none => pure ()
  | some (offset, fault) => throw (.load (.stream offset fault))

/-- Copies the objects of both regions. -/
def materialize (p : CopyPlan) : CopyStep μ Unit := Region.all.forM (materializeRegion p)

/-! ### The second pass -/

/-- The new value of a reference in a copy at an address. -/
def rebased (p : CopyPlan) (s : CopyState μ) (a value : Nat) : Except ArchiveError Nat :=
  let target := p.header.encoding.decode value
  let requested := p.header.requestedBase.toNat
  if target < requested then .error (.load (.unresolvedReference value a))
  else
    match resolve? s.image s.starts (target - requested) with
    | none => .error (.load (.unresolvedReference value a))
    | some dest =>
      match p.runtime.encode dest with
      | .ok value => .ok value
      | .error fault => .error (.load (.unencodable dest a fault))

/-- Replaces the reference in the slot at an address. -/
def relocateSlot (p : CopyPlan) (a : Nat) : CopyStep μ Unit := do
  let s ← get
  match Memory.readValue? s.heap a p.slotSize with
  | none => throw (.load (.unreadableReference a))
  | some value =>
    if value = 0 then
      modify fun s => { s with counts := { s.counts with nulls := s.counts.nulls + 1 } }
    else
      let value ← MonadExcept.ofExcept (rebased p s a value)
      if ← writeValue a p.slotSize value then
        modify fun s => { s with counts := { s.counts with references := s.counts.references + 1 } }
      else throw (.load (.unwritableReference a))

/-- Replaces the references in a block. -/
def relocateBlock (p : CopyPlan) (b : Block) : CopyStep μ Unit :=
  let bottom := p.bottom b.region
  let first := (b.streamOffset - bottom) / p.slotSize
  let stop := (b.streamTop - bottom) / p.slotSize
  ((p.maps b.region).references.ones first stop).forM fun bit =>
    relocateSlot p (b.dest.bottom + (bottom + bit * p.slotSize - b.streamOffset))

/-- Replaces the references in all blocks. -/
def relocate (p : CopyPlan) : CopyStep μ Unit := do
  (← get).blocks.toList.forM (relocateBlock p)

/-- Hands the blocks over to the heap. -/
def complete : CopyStep μ Unit :=
  modify fun s =>
    { s with heap := s.blocks.foldl (fun h b => Destination.completeLoaded h b.dest) s.heap }

/-- Both passes, after which the blocks are handed over and the root array is looked up. -/
def load (p : CopyPlan) : CopyStep μ Nat := do
  materialize p
  relocate p
  complete
  let s ← get
  let offset := p.header.rootOffset.toNat
  match resolve? s.image s.starts offset with
  | some root => return root
  | none => throw (.load (.noObjectStart offset))

end CopyStep

/-- Copies an image into a heap. -/
def copyImage {μ : Type} [Destination μ] (a : Archive) (heap : μ) (runtime : ReferenceEncoding)
    (delta : UInt64) : Except ArchiveError CopiedObjects × μ :=
  match checkEncodings a.encoding runtime with
  | .error e => (.error e, heap)
  | .ok () =>
    let p : CopyPlan := ⟨a.header, a.types, a.opened, a.closed, runtime, delta⟩
    let start : CopyState μ := {
      heap := heap
      image := a.image
      starts := BitMap.empty (a.image.size / wordSize)
      blocks := #[]
      objects := 0
      counts := .zero }
    match (CopyStep.load p).run start with
    | (.error e, s) => (.error e, s.heap)
    | (.ok root, s) =>
      (.ok {
        root := root
        blocks := s.blocks
        objects := s.objects
        types := a.types
        encoding := runtime
        counts := s.counts }, s.heap)

end HeapImage
