import HeapImage.Dump.Options
import HeapImage.Dump.Staging

/-!
# Dump sessions

A dump goes through phases. Objects are staged and linked, copied to the output region by region,
given requested addresses, and relocated; then the output is the image of an archive.

* `DumpSession`, `DumpPhase`: everything a dump knows, and how far it has come.
* `DumpStep`: a step of a session, which may fail and keeps the state it has reached.
* `DumpSession.allocate`, `allocateRoots`, `link`, `copy`, `finalize`, `relocate`: the steps.
* `DumpSession.maps`: the maps of both regions, checked against the relocated slots.
-/

namespace HeapImage

/-- How far a dump has come. -/
inductive DumpPhase where
  | staging
  | linked
  | openCopied
  | copied
  | finalized
  | relocated
  deriving DecidableEq, Repr

/-- The requested addresses of both regions. -/
structure RequestedRegions where
  opened : Extent
  closed : Extent
  deriving DecidableEq, Repr

/-- The requested address of an output offset. -/
def RequestedRegions.addressOf (q : RequestedRegions) (offset : Nat) : Nat :=
  q.opened.bottom + offset

/-- An object in the output. -/
structure Placement where
  /-- Its offset in the output. -/
  offset : Nat
  /-- Its size in bytes. -/
  size : Nat
  deriving DecidableEq, Repr

/-- A dump under way. -/
structure DumpSession where
  registry : TypeRegistry
  options : DumpOptions
  staging : StagingBuffer
  /-- The image assembled so far. -/
  output : ByteArray
  /-- Output offsets of copied objects, by their offset in the staging buffer. -/
  offsets : Std.TreeMap Nat Nat
  /-- Copied objects in output order. -/
  placements : Array Placement
  openTop : Nat
  closedBottom : Nat
  closedTop : Nat
  rootOffset : Nat
  requested : Option RequestedRegions
  /-- The reference slots met by relocation, one bit per slot of the output. -/
  recorded : Option BitMap
  phase : DumpPhase

/-- A step of a dump: it gives a value or fails, and the state goes on from where it got to. -/
abbrev DumpStep (α : Type) := ExceptT ArchiveError (StateM DumpSession) α

namespace DumpSession

/-- A session with nothing staged. -/
def start (registry : TypeRegistry) (options : DumpOptions) : DumpSession where
  registry := registry
  options := options
  staging := .empty options.capacity options.encoding.slotSize options.alignment
  output := ByteArray.empty
  offsets := ∅
  placements := #[]
  openTop := 0
  closedBottom := 0
  closedTop := 0
  rootOffset := 0
  requested := none
  recorded := none
  phase := .staging

/-- A new session, if the options are usable. -/
def start? (registry : TypeRegistry) (options : DumpOptions) : Except ArchiveError DumpSession := do
  options.check
  return start registry options

/-- Bytes of a reference slot. -/
def slotSize (s : DumpSession) : Nat := s.options.encoding.slotSize

/-- The output range of a region. -/
def range (s : DumpSession) : Region → Extent
  | .opened => ⟨0, s.openTop⟩
  | .closed => ⟨s.closedBottom, s.closedTop⟩

/-- The output offset of a staged object, once copied. -/
def offsetOf? (s : DumpSession) (id : ObjectId) : Option Nat := do
  let slot ← s.staging.slotOf? id
  s.offsets[slot]?

/-- Fails unless the session is in a phase. -/
def expect (phase : DumpPhase) (fault : OrderFault) : DumpStep Unit := do
  if (← get).phase ≠ phase then throw (.outOfOrder fault)

/-- A decision as a step that leaves the state alone. -/
def attempt {α : Type} (r : Except ArchiveError α) : DumpStep α := MonadExcept.ofExcept r

/-! ### Staging -/

/-- Stages an object of the graph for a region; gives its offset in the staging buffer. -/
def allocate (g : ObjectGraph) (id : ObjectId) (region : Region) : DumpStep Nat := do
  expect .staging .stagingOver
  let s ← get
  let slot := s.staging.size
  let object ← attempt (s.staging.prepare g s.registry id)
  modify fun s => { s with staging := s.staging.push id region object }
  return slot

/-- Stages the root array; gives its offset in the staging buffer. -/
def pushRoots (roots : List ObjectId) : DumpStep Nat := do
  let s ← get
  let slot := s.staging.size
  let array ← attempt (s.staging.prepareRoots roots)
  modify fun s => { s with staging := s.staging.pushRoots roots array }
  return slot

/-- Stages the root array before linking. -/
def allocateRoots (roots : List ObjectId) : DumpStep Nat := do
  expect .staging .rootStagingOver
  pushRoots roots

/-- Replaces references by identities. A root array without elements is staged first if none is
there. -/
def link (g : ObjectGraph) : DumpStep Unit := do
  expect .staging .linkedTwice
  if (← get).staging.roots.isNone then discard (pushRoots [])
  let s ← get
  let links ← attempt (s.staging.links g s.registry)
  -- What was written before a link that fails stays written, and so does a root array staged here.
  let (result, staging) := s.staging.applyLinks links
  modify fun s => { s with staging := staging }
  attempt result
  modify fun s => { s with phase := .linked }

/-! ### Copying -/

/-- Fails if an object of `size` bytes at an output offset would cross a region boundary. -/
def checkBoundary (alignment offset size : Nat) : Except ArchiveError Unit :=
  if alignDown offset alignment ≠ alignDown (offset + size - 1) alignment then
    .error (.straddlesBoundary offset size alignment)
  else .ok ()

/-- The session with `size` bytes from offset `slot` of the staging buffer appended. -/
def append (s : DumpSession) (slot size : Nat) : DumpSession :=
  let offset := s.output.size
  { s with
    output := s.output ++ s.staging.bytes.extract slot (slot + size)
    offsets := s.offsets.insert slot offset
    placements := s.placements.push ⟨offset, size⟩ }

/-- Copies one staged object to the output. -/
def copyOne (slot size : Nat) : DumpStep Unit := do
  let s ← get
  attempt (checkBoundary s.options.alignment s.output.size size)
  modify fun s => s.append slot size

/-- Copies the staged objects of a region, in order. -/
def copyObjects (region : Region) : DumpStep Unit := do
  let staged := (← get).staging.objects.toList.filter fun o => o.region = region
  staged.forM fun o => copyOne o.slot o.size

/-- Copies the root array, which ends the open region, and fills up to the next boundary. -/
def copyRoots : DumpStep Unit := do
  let s ← get
  match s.staging.roots with
  | none => throw (.outOfOrder .rootsMissing)
  | some roots =>
    let offset := s.output.size
    copyOne roots.slot roots.size
    let top := (← get).output.size
    let bottom := alignUp top s.options.alignment
    -- The bounds of the regions are noted even if the output cannot grow that far; only the phase
    -- waits.
    modify fun s => { s with rootOffset := offset, openTop := top, closedBottom := bottom }
    if maxBuffer < bottom then throw (.bounds .tooLarge)
    modify fun s => { s with output := Bytes.resize s.output bottom, phase := .openCopied }

/-- Copies a region to the output: first the open one, which the root array follows, then the closed
one. -/
def copy : Region → DumpStep Unit
  | .opened => do
    expect .linked .openNotFirst
    copyObjects .opened
    copyRoots
  | .closed => do
    expect .openCopied .closedNotSecond
    copyObjects .closed
    modify fun s => { s with closedTop := s.output.size, phase := .copied }

/-! ### Requested addresses -/

/-- The highest addresses below the heap end that keep both regions at their distance in the output
and at multiples of the alignment. The open region may not start at address zero. -/
def plan (s : DumpSession) : Except ArchiveError RequestedRegions := do
  let g := s.options.alignment
  let heapEnd := alignDown s.options.heapEnd g
  let closedSize := s.closedTop - s.closedBottom
  if heapEnd < closedSize then throw (.regions (.closedTooLarge closedSize heapEnd))
  let closedBottom := alignDown (heapEnd - closedSize) g
  -- With equality the open region would start at address zero, which stands for null.
  if closedBottom ≤ s.closedBottom then throw (.regions (.noRoom s.closedTop heapEnd))
  let openBottom := closedBottom - s.closedBottom
  if closedBottom < openBottom + s.openTop then throw (.regions .overlap)
  return {
    opened := ⟨openBottom, openBottom + s.openTop⟩
    closed := ⟨closedBottom, closedBottom + closedSize⟩ }

/-- Fails if some object's requested address cannot be stored. -/
def checkAddresses (s : DumpSession) (requested : RequestedRegions) : Except ArchiveError Unit :=
  s.placements.toList.forM fun p =>
    discard (s.options.encoding.require (requested.addressOf p.offset))

/-- Bytes of the image: both regions, up to a multiple of the alignment. -/
def imageSize (s : DumpSession) : Nat :=
  alignUp (max s.closedTop s.closedBottom) s.options.alignment

/-- Chooses the requested addresses and fills the output up to the image size. -/
def finalize : DumpStep RequestedRegions := do
  expect .copied .notCopied
  let s ← get
  let requested ← attempt s.plan
  attempt (s.checkAddresses requested)
  modify fun s =>
    { s with
      output := Bytes.resize s.output s.imageSize
      requested := some requested
      phase := .finalized }
  return requested

/-! ### Relocation -/

/-- An output whose references are being replaced, and the slots met so far. -/
structure Relocation where
  output : ByteArray
  recorded : BitMap

/-- A part of a relocation, which may fail and keeps what was replaced before. -/
abbrev RelocationStep := ExceptT ArchiveError (StateM Relocation)

/-- The stored form of the requested address of the object that an identity at an output offset
stands for. -/
def encodeIdentity (s : DumpSession) (requested : RequestedRegions) (offset identity : Nat) :
    Except ArchiveError Nat :=
  match slotOfIdentity? identity with
  | none => .error (.graph (.danglingIdentity identity offset))
  | some slot =>
    match s.offsets[slot]? with
    | none => .error (.graph (.danglingIdentity identity offset))
    | some target => s.options.encoding.require (requested.addressOf target)

/-- Records the reference slot at an output offset, which has to lie inside the output. -/
def recordSlot (slot offset : Nat) : RelocationStep Unit := do
  let bit := offset / slot
  let size := (← get).recorded.size
  if size ≤ bit then throw (.bounds (.bit bit size))
  modify fun t => { t with recorded := t.recorded.insert bit }

/-- Records the reference slot at an output offset and replaces the identity in it. -/
def relocateSlot (s : DumpSession) (requested : RequestedRegions) (offset : Nat) :
    RelocationStep Unit := do
  recordSlot s.slotSize offset
  let identity := Bytes.valueAt (← get).output offset s.slotSize
  if identity ≠ 0 then
    let value ← MonadExcept.ofExcept (s.encodeIdentity requested offset identity)
    modify fun t => { t with output := Bytes.setValue t.output offset s.slotSize value }

/-- Replaces the identities in all reference slots of a copied object. -/
def relocateObject (s : DumpSession) (requested : RequestedRegions) (p : Placement) :
    RelocationStep Unit := do
  match ObjectHeader.read? (← get).output p.offset with
  | none => throw (.graph (.missingHeader p.offset))
  | some header =>
    let type ← MonadExcept.ofExcept (s.registry.require header.typeIndex)
    (type.kind.referenceOffsets header.length s.slotSize).forM fun field =>
      relocateSlot s requested (p.offset + field)

/-- Replaces identities by stored requested addresses in the whole output. -/
def relocate : DumpStep Unit := do
  expect .finalized .notFinalized
  let s ← get
  match s.requested with
  | none => throw (.outOfOrder .notFinalized)
  | some requested =>
    -- The output leaves the session while its slots are replaced, so that nobody else holds it.
    let table := { s with output := ByteArray.empty }
    let output ← modifyGet fun s => (s.output, { s with output := ByteArray.empty })
    let blank := BitMap.empty (output.size / table.slotSize)
    let (result, done) :=
      (table.placements.toList.forM (relocateObject table requested)).run ⟨output, blank⟩
    -- A failure leaves the slots replaced before it as they are.
    modify fun s => { s with output := done.output }
    attempt result
    modify fun s => { s with recorded := some done.recorded, phase := .relocated }

/-! ### Maps -/

/-- The maps of a region of the output, whose reference slots have to be those that relocation
met. -/
def regionMaps (s : DumpSession) (recorded : BitMap) (region : Region) :
    Except ArchiveError RegionMaps := do
  let e := s.range region
  let maps ←
    RegionMaps.derive (s.output.extract e.bottom e.top) s.registry s.slotSize s.options.native
  crossCheck maps.references recorded (e.bottom / s.slotSize) region
  return maps

/-- The maps of the open and the closed region. -/
def maps (s : DumpSession) : Except ArchiveError (RegionMaps × RegionMaps) := do
  if s.phase ≠ .relocated then throw (.outOfOrder .notRelocated)
  match s.recorded with
  | none => throw (.outOfOrder .notRelocated)
  | some recorded =>
    let opened ← s.regionMaps recorded .opened
    let closed ← s.regionMaps recorded .closed
    return (opened, closed)

end DumpSession

end HeapImage
