import HeapImage.Checked.Maps
import HeapImage.Checked.Patch
import HeapImage.Load.Copy

/-!
# Checked copying

A load that copies objects, with every access to the image and to the maps, every place in a copy
and every sum of addresses checked.

* `CheckedStep`: a step of a copy that may come to a fault.
* `CheckedStep.materialize`, `CheckedStep.relocate`: the two passes.
* `Checked.copyImage`: both passes, after which the blocks are handed over.
-/

namespace HeapImage

namespace Checked

/-- The new address of the object that starts at an image offset. -/
def resolve? (image : ByteArray) (starts : BitMap) (offset : Nat) : Checked (Option Nat) := do
  if offset % wordSize = 0 ∧ offset / wordSize < starts.size then
    if ← contains starts (offset / wordSize) then
      return some (← valueAt image offset wordSize)
    else return none
  else return none

end Checked

/-- A step of a copy that may come to a fault. This ends the copy and leaves the heap as it is. -/
abbrev CheckedStep (μ α : Type) := ExceptT ArchiveError (StateT (CopyState μ) (CheckedRun μ)) α

namespace CheckedStep

variable {μ : Type}

/-- A step in which nothing has to be checked. -/
def plain {α : Type} (f : CopyStep μ α) : CheckedStep μ α :=
  ExceptT.mk fun s => .ok (f.run s)

/-- The result of an operation that might have none. -/
def check {α : Type} (c : Checked α) : CheckedStep μ α :=
  ExceptT.mk fun s => (c.inState s.heap).map fun x => (.ok x, s)

variable [Destination μ] [HeapSums μ] (space : AddressSpace)

/-- Asks the heap for memory. -/
def allocate (request : AllocationRequest) : CheckedStep μ Nat := do
  let s ← plain get
  check (space.check (HeapSums.allocation s.heap request))
  plain (CopyStep.allocate request)

/-! ### The first pass -/

/-- Adds the distance to the native pointers of an object that was copied to `dest`. -/
def rebaseNatives (p : CopyPlan) (region : Region) (o : ObjectSpan) (dest : Nat) :
    CheckedStep μ Unit := do
  let first := (← check (Checked.sub o.offset (p.bottom region))) / wordSize
  let bits ← check (Checked.ones (p.maps region).natives first (first + o.size / wordSize))
  bits.forM fun bit => do
    let offset := (← check (Checked.sub bit first)) * wordSize
    check (Checked.within o.size offset wordSize)
    plain (CopyStep.rebaseNative p.delta (← check (space.add dest offset)))

omit [Destination μ] [HeapSums μ] in
/-- Notes in the blocks, in the map of starts and in the image that an object has been copied. -/
def recordObject (region : Region) (o : ObjectSpan) (dest : Nat) : CheckedStep μ Unit := do
  check (space.check [dest + o.size])
  let s ← plain get
  let starts ← check (Checked.insert s.starts (o.offset / wordSize))
  let image ← check (Checked.setWord s.image o.offset (UInt64.ofNat dest))
  plain <| set { s with
    blocks := CopyStep.extendBlocks s.blocks region o dest
    starts := starts
    image := image
    objects := s.objects + 1 }

/-- Copies one object. -/
def copyObject (p : CopyPlan) (region : Region) (o : ObjectSpan) : CheckedStep μ Unit := do
  let dest ← allocate space ⟨o.type.kind.shape, o.header.typeIndex, o.header.length, o.size⟩
  let bytes ← check (Checked.slice (← plain get).image o.offset o.size)
  if !(← plain (CopyStep.write dest bytes)) then throw (.load (.unusableMemory dest))
  if p.delta ≠ 0 then rebaseNatives space p region o dest
  recordObject space region o dest

/-- Copies the objects of a region up to the first place where there is none. -/
def materializeRegion (p : CopyPlan) (region : Region) : CheckedStep μ Unit := do
  let e := p.header.range region
  let s ← plain get
  let (objects, fault) ← check (Checked.scan s.image p.types p.slotSize e.bottom e.top)
  objects.forM (copyObject space p region)
  match fault with
  | none => pure ()
  | some (offset, fault) => throw (.load (.stream offset fault))

/-- Copies the objects of both regions. -/
def materialize (p : CopyPlan) : CheckedStep μ Unit :=
  Region.all.forM (materializeRegion space p)

/-! ### The second pass -/

/-- The new value of a reference in a copy at an address. -/
def rebased (p : CopyPlan) (s : CopyState μ) (a value : Nat) :
    Checked (Except ArchiveError Nat) := do
  let target ← Checked.decode space p.header.encoding value
  let requested := p.header.requestedBase.toNat
  if target < requested then return .error (.load (.unresolvedReference value a))
  else
    match ← Checked.resolve? s.image s.starts (target - requested) with
    | none => return .error (.load (.unresolvedReference value a))
    | some dest =>
      match p.runtime.encode dest with
      | .ok value => return .ok value
      | .error fault => return .error (.load (.unencodable dest a fault))

/-- Replaces the reference in the slot at an address. -/
def relocateSlot (p : CopyPlan) (a : Nat) : CheckedStep μ Unit := do
  let s ← plain get
  match Memory.readValue? s.heap a p.slotSize with
  | none => throw (.load (.unreadableReference a))
  | some value =>
    if value = 0 then
      plain (modify fun s => { s with counts := { s.counts with nulls := s.counts.nulls + 1 } })
    else
      let value ← plain (MonadExcept.ofExcept (← check (rebased space p s a value)))
      if ← plain (CopyStep.writeValue a p.slotSize value) then
        plain (modify fun s =>
          { s with counts := { s.counts with references := s.counts.references + 1 } })
      else throw (.load (.unwritableReference a))

/-- Replaces the references in a block. -/
def relocateBlock (p : CopyPlan) (b : Block) : CheckedStep μ Unit := do
  let bottom := p.bottom b.region
  let length ← check (Checked.sub b.dest.top b.dest.bottom)
  let first := (← check (Checked.sub b.streamOffset bottom)) / p.slotSize
  let stop := (← check (Checked.sub (b.streamOffset + length) bottom)) / p.slotSize
  let bits ← check (Checked.ones (p.maps b.region).references first stop)
  bits.forM fun bit => do
    let offset ← check (Checked.sub (bottom + bit * p.slotSize) b.streamOffset)
    check (Checked.within length offset p.slotSize)
    relocateSlot space p (← check (space.add b.dest.bottom offset))

/-- Replaces the references in all blocks. -/
def relocate (p : CopyPlan) : CheckedStep μ Unit := do
  let s ← plain get
  s.blocks.toList.forM (relocateBlock space p)

/-- Both passes, after which the blocks are handed over and the root array is looked up. -/
def load (p : CopyPlan) : CheckedStep μ Nat := do
  materialize space p
  relocate space p
  plain CopyStep.complete
  let s ← plain get
  let offset := p.header.rootOffset.toNat
  match ← check (Checked.resolve? s.image s.starts offset) with
  | some root => pure root
  | none => throw (.load (.noObjectStart offset))

end CheckedStep

/-- Copies an image into a heap. -/
def Checked.copyImage {μ : Type} [Destination μ] [HeapSums μ] (space : AddressSpace) (a : Archive)
    (heap : μ) (runtime : ReferenceEncoding) (delta : UInt64) :
    CheckedRun μ (Except ArchiveError CopiedObjects × μ) :=
  match checkEncodings a.encoding runtime with
  | .error e => .ok (.error e, heap)
  | .ok () => do
    let p : CopyPlan := ⟨a.header, a.types, a.opened, a.closed, runtime, delta⟩
    let start : CopyState μ := {
      heap := heap
      image := a.image
      starts := BitMap.empty (a.image.size / wordSize)
      blocks := #[]
      objects := 0
      counts := .zero }
    match ← (CheckedStep.load space p).run start with
    | (.error e, s) => return (.error e, s.heap)
    | (.ok root, s) =>
      return (.ok {
        root := root
        blocks := s.blocks
        objects := s.objects
        types := a.types
        encoding := runtime
        counts := s.counts }, s.heap)

end HeapImage
