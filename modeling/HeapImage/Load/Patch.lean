import HeapImage.Archive.File
import HeapImage.Heap.Memory

/-!
# Mapping an image

An image can be used where it stands: an address range is set aside for it, and every reference and
native pointer in it is adjusted in place.

* `Rebasing`: how a stored reference turns into one for the new place.
* `Rebasing.value`: the new value of a stored reference.
* `patchImage`: the image with all references and native pointers adjusted.
* `MappedHeap`, `MappedImage`: the image as heap memory, and the result of a load.
* `mapImage`: reserves a range, patches the image and hands its regions over.
* `mappingAssertion?`: a slot for which the two ways to adjust a reference disagree.
-/

namespace HeapImage

/-- What a load has adjusted. -/
structure LoadCounts where
  references : Nat
  nulls : Nat
  natives : Nat
  deriving DecidableEq, Repr

/-- The counts before anything was adjusted. -/
def LoadCounts.zero : LoadCounts := ⟨0, 0, 0⟩

/-- Fails unless references of an archive and of the running heap have the same width and both are
of a supported encoding. -/
def checkEncodings (dump runtime : ReferenceEncoding) : Except ArchiveError Unit := do
  if dump.slotSize ≠ runtime.slotSize then throw (.encoding (.widthMismatch dump runtime))
  dump.check
  runtime.check

/-! ### References -/

/-- How references move with an image of `length` bytes from one base address to another. -/
structure Rebasing where
  dump : ReferenceEncoding
  runtime : ReferenceEncoding
  requested : Nat
  actual : Nat
  length : Nat
  deriving DecidableEq, Repr

namespace Rebasing

/-- Bytes of a reference slot. -/
def slotSize (m : Rebasing) : Nat := m.runtime.slotSize

/-- The distance between the bases as a signed heap word. -/
def delta (m : Rebasing) : Int := Int.bmod ((m.actual : Int) - m.requested) 0x10000000000000000

/-- The number to add to every stored value, if one number does for all. -/
def constant? (m : Rebasing) : Option Int := m.dump.shiftConstant? m.runtime m.delta

/-- The new value of a stored reference found by way of the address it stands for, which has to lie
in the image. The offset of the slot goes into the error. -/
def general (m : Rebasing) (offset value : Nat) : Except ArchiveError Nat :=
  let target := m.dump.decode value
  if target < m.requested ∨ m.requested + m.length ≤ target then
    .error (.undecodable offset value)
  else
    match m.runtime.encode (m.actual + (target - m.requested)) with
    | .ok value => .ok value
    | .error _ => .error (.undecodable offset value)

/-- A stored value with a constant added, in the width of a slot. -/
def shifted (m : Rebasing) (constant : Int) (value : Nat) : Nat :=
  (((value : Int) + constant) % (1 <<< (8 * m.slotSize) : Nat)).toNat

/-- The new value of the stored reference in the slot at an offset. -/
def value (m : Rebasing) (offset value : Nat) : Except ArchiveError Nat :=
  match m.constant? with
  -- Where the reference leads is not looked at on this way.
  | some c => .ok (m.shifted c value)
  | none => m.general offset value

/-- Both ends of the image can be referred to under the running heap's encoding. -/
def checkEdges (m : Rebasing) : Except ArchiveError Unit :=
  [m.actual, m.actual + (m.length - wordSize)].forM fun edge =>
    match m.runtime.encode edge with
    | .ok _ => .ok ()
    | .error fault => .error (.encoding (.imageUnreachable edge fault))

end Rebasing

/-! ### Patching -/

/-- An image that is being patched. -/
structure Patching where
  image : ByteArray
  counts : LoadCounts

namespace Patching

/-- Adjusts the reference slots at some offsets. -/
def references (m : Rebasing) : List Nat → Patching → Except ArchiveError Patching
  | [], p => .ok p
  | offset :: rest, ⟨image, counts⟩ =>
    let value := Bytes.valueAt image offset m.slotSize
    if value = 0 then references m rest ⟨image, { counts with nulls := counts.nulls + 1 }⟩
    else
      match m.value offset value with
      | .error e => .error e
      | .ok value =>
        references m rest ⟨Bytes.setValue image offset m.slotSize value,
          { counts with references := counts.references + 1 }⟩

/-- Adds a distance to the heap words at some offsets. -/
def natives (delta : UInt64) : List Nat → Patching → Patching
  | [], p => p
  | offset :: rest, ⟨image, counts⟩ =>
    let value := UInt64.ofNat (Bytes.valueAt image offset wordSize)
    natives delta rest ⟨Bytes.setWord image offset (value + delta),
      { counts with natives := counts.natives + 1 }⟩

/-- Adjusts one region that starts at an offset of the image. -/
def region (m : Rebasing) (delta : UInt64) (start : Nat) (maps : RegionMaps) (p : Patching) :
    Except ArchiveError Patching := do
  let slots := maps.references.toList.map fun bit => start + bit * m.slotSize
  let p ← references m slots p
  if delta = 0 then return p
  else return natives delta (maps.natives.toList.map fun bit => start + bit * wordSize) p

end Patching

/-- The image of an archive with its references adjusted to a new base and a distance added to its
native pointers. -/
def patchImage (a : Archive) (m : Rebasing) (delta : UInt64) : Except ArchiveError Patching := do
  let g := a.header.regionAlignment.toNat
  if !isAligned m.actual g then throw (.mapping (.misaligned m.actual g))
  -- The edges have to be within reach even if only padding stands there.
  m.checkEdges
  let p ← Patching.region m delta (a.header.range .opened).bottom a.opened ⟨a.image, .zero⟩
  Patching.region m delta (a.header.range .closed).bottom a.closed p

/-! ### Mapped images -/

/-- An image as heap memory. -/
structure MappedHeap where
  /-- The address of the first byte. -/
  base : Nat
  image : ByteArray

instance : Memory MappedHeap where
  read? h a len := if a < h.base then none else Bytes.slice? h.image (a - h.base) len
  canWrite h a len := h.base ≤ a && a - h.base + len ≤ h.image.size
  write h a bytes := { h with image := Bytes.overwrite h.image (a - h.base) bytes }
  extent h := h.image.size

/-- An image in its new place. -/
structure MappedImage where
  heap : MappedHeap
  /-- The address of the root array. -/
  root : Nat
  types : TypeRegistry
  encoding : ReferenceEncoding
  /-- The addresses of the regions that are not empty. -/
  regions : List Extent
  /-- One constant was added to all references. -/
  byConstant : Bool
  counts : LoadCounts

/-- Puts an image to use in an address range granted by a host. The range is given back if the
image cannot be patched. -/
def mapImage {μ : Type} [MappingHost μ] (a : Archive) (host : μ) (runtime : ReferenceEncoding)
    (delta : UInt64) : Except ArchiveError MappedImage × μ :=
  match checkEncodings a.encoding runtime with
  | .error e => (.error e, host)
  | .ok () =>
    let requested := a.header.requestedBase.toNat
    let length := a.image.size
    match MappingHost.reserve host requested length with
    | (none, host) => (.error (.mapping (.refused length requested)), host)
    | (some actual, host) =>
      let m : Rebasing := ⟨a.encoding, runtime, requested, actual, length⟩
      let byConstant := m.constant?.isSome
      let regions := (Region.all.map a.header.range).filter fun e => !e.isEmpty
      let regions := regions.map fun e => e.shift actual
      let root := actual + a.header.rootOffset.toNat
      let types := a.types
      -- The archive is not looked at again, so the image is patched without a copy.
      match patchImage a m delta with
      | .error e => (.error e, MappingHost.release host actual length)
      | .ok p =>
        (.ok {
          heap := ⟨actual, p.image⟩
          root := root
          types := types
          encoding := runtime
          regions := regions
          byConstant := byConstant
          counts := p.counts }, regions.foldl MappingHost.completeMapped host)

/-! ### Assertions

The constant is added to a stored value without a look at the address that the value stands for. A
build with assertions finds that address too and stops where the two ways disagree; a build without
them goes on with the constant. -/

/-- A slot for which the two ways to adjust a reference disagree. -/
structure Disagreement where
  /-- The image offset of the slot. -/
  offset : Nat
  /-- The stored value with the constant added. -/
  shifted : Nat
  /-- What the address that the stored value stands for calls for, if it lies in the image. -/
  general : Option Nat
  deriving DecidableEq, Repr

/-- The wording of the failed assertion. -/
def Disagreement.message (d : Disagreement) : String :=
  let general := match d.general with
    | some value => "Some(" ++ toString value ++ ")"
    | none => "None"
  "assertion \x60left == right\x60 failed: quick path disagrees at image offset " ++
    hexNumeral d.offset ++ "\n  left: Some(" ++ toString d.shifted ++ ")\n right: " ++ general

/-- How the constant, if there is one, and the general way disagree about the value stored in the
slot at an offset. -/
def Rebasing.disagreement? (m : Rebasing) (offset value : Nat) : Option Disagreement :=
  match m.constant? with
  | none => none
  | some c =>
    let general := (m.general offset value).toOption
    if general = some (m.shifted c value) then none
    else some ⟨offset, m.shifted c value, general⟩

/-- The first marked slot of an image that holds a reference about which the two ways disagree. -/
def Archive.disagreement? (a : Archive) (m : Rebasing) : Option Disagreement :=
  Region.all.findSome? fun region =>
    let start := (a.header.range region).bottom
    (a.maps region).references.toList.findSome? fun bit =>
      let offset := start + bit * m.slotSize
      let value := Bytes.valueAt a.image offset m.slotSize
      if value = 0 then none else m.disagreement? offset value

/-- The assertion that fails while an image is mapped, if one does: the range has been granted, and
its base has passed the checks. -/
def mappingAssertion? {μ : Type} [MappingHost μ] (a : Archive) (host : μ)
    (runtime : ReferenceEncoding) : Option Disagreement :=
  match checkEncodings a.encoding runtime,
      (MappingHost.reserve host a.header.requestedBase.toNat a.image.size).1 with
  | .ok (), some actual =>
    let m : Rebasing :=
      ⟨a.encoding, runtime, a.header.requestedBase.toNat, actual, a.image.size⟩
    if isAligned actual a.header.regionAlignment.toNat && m.checkEdges.isOk then
      a.disagreement? m
    else none
  | _, _ => none

end HeapImage
