import HeapImage.Graph.Check
import Std.Data.TreeMap

/-!
# Staging

A dump first collects the selected objects in a bounded buffer. Headers, scalars and native pointers
are written at once. References are filled in when every object has its place: each then holds the
identity of the referent, one more than the number of the heap word where that object starts, so
that zero stays free for null.

* `StagingBuffer`: the bytes collected so far and the objects in them.
* `StagingBuffer.allocate?`, `StagingBuffer.allocateRoots?`: one more object, or the root array.
* `StagingBuffer.link`: all identities, or none if a referent is missing.
* `identityOf`, `slotOfIdentity?`: between places in the buffer and identities.
-/

namespace HeapImage

/-- The identity of the object that starts at an offset of the staging buffer. -/
def identityOf (slot : Nat) : Nat := slot / wordSize + 1

/-- The offset that an identity stands for; zero stands for none. -/
def slotOfIdentity? (identity : Nat) : Option Nat :=
  if identity = 0 then none else some ((identity - 1) * wordSize)

/-- An object in the staging buffer. -/
structure StagedObject where
  /-- The object of the graph. -/
  source : ObjectId
  /-- The region it is to be copied to. -/
  region : Region
  /-- Its offset in the buffer. -/
  slot : Nat
  /-- Its size in bytes. -/
  size : Nat
  deriving DecidableEq, Repr

/-- The root array in the staging buffer. -/
structure StagedRoots where
  /-- Its offset in the buffer. -/
  slot : Nat
  /-- Its size in bytes. -/
  size : Nat
  /-- The objects it lists. -/
  roots : List ObjectId
  deriving DecidableEq, Repr

/-- Selected objects on their way into an image. -/
structure StagingBuffer where
  /-- The most bytes the buffer may have. -/
  capacity : Nat
  /-- Bytes of a reference slot. -/
  slotSize : Nat
  /-- The most bytes an object may have. -/
  alignment : Nat
  /-- The staged objects, back to back. -/
  bytes : ByteArray
  /-- The staged objects in order. -/
  objects : Array StagedObject
  /-- Offsets of the staged objects, by their position in the graph. -/
  slots : Std.TreeMap Nat Nat
  /-- The root array, once staged. -/
  roots : Option StagedRoots

/-! ### The bytes of one object -/

namespace SourceObject

/-- Writes scalars and native pointers at the offsets of a layout; references stay null. -/
def writeFields (b : ByteArray) (values : List FieldValue) (offsets : List Nat) : ByteArray :=
  (values.zip offsets).foldl
    (fun b (value, offset) =>
      match value with
      | .scalar v | .native v => Bytes.setWord b offset v
      | .reference _ => b)
    b

/-- Writes scalar elements of `size` bytes behind the header. -/
def writeElements (b : ByteArray) (values : List UInt64) (size : Nat) : ByteArray :=
  (values.zipIdx).foldl
    (fun b (value, i) => Bytes.setValue b (headerSize + i * size) size value.toNat) b

/-- The object's bytes with all references null. -/
def toBytes (o : SourceObject) (kind : TypeKind) (length : UInt32) (slot : Nat) : ByteArray :=
  let blank := Bytes.zeros (kind.objectSize length slot)
  let b := ObjectHeader.write ⟨o.mark, o.typeIndex, length⟩ blank 0
  match kind, o.payload with
  | .record _, .fields values =>
    match kind.layout? slot with
    | some layout => writeFields b values layout.offsets
    | none => b
  | .scalarArray size, .scalars values => writeElements b values size
  | _, _ => b

end SourceObject

namespace StagingBuffer

/-- The buffer without objects. -/
def empty (capacity slotSize alignment : Nat) : StagingBuffer where
  capacity := capacity
  slotSize := slotSize
  alignment := alignment
  bytes := ByteArray.empty
  objects := #[]
  slots := ∅
  roots := none

/-- Number of bytes in the buffer. -/
def size (s : StagingBuffer) : Nat := s.bytes.size

/-- The offset of a staged object. -/
def slotOf? (s : StagingBuffer) (id : ObjectId) : Option Nat := s.slots[id.key]?

/-! ### Staging objects -/

/-- The buffer has room for `size` more bytes. -/
def checkRoom (s : StagingBuffer) (size : Nat) : Except ArchiveError Unit :=
  if s.capacity < s.size + size then .error (.stagingExhausted (s.size + size) s.capacity)
  else .ok ()

/-- The bytes of an object of the graph, which has to be new, to fit its type and to fit the
buffer. -/
def prepare (s : StagingBuffer) (g : ObjectGraph) (r : TypeRegistry) (id : ObjectId) :
    Except ArchiveError ByteArray := do
  if (s.slotOf? id).isSome then throw (.graph (.selectedTwice id))
  let (o, type) ← g.check r id
  if 0x100000000 ≤ o.payload.length then throw (.graph (.tooLong id))
  let length := UInt32.ofNat o.payload.length
  let size := type.kind.objectSize length s.slotSize
  if s.alignment < size then throw (.objectTooLarge id size s.alignment)
  s.checkRoom size
  return o.toBytes type.kind length s.slotSize

/-- Appends the bytes of an object. -/
def push (s : StagingBuffer) (id : ObjectId) (region : Region) (object : ByteArray) :
    StagingBuffer :=
  let slot := s.size
  { s with
    bytes := s.bytes ++ object
    objects := s.objects.push ⟨id, region, slot, object.size⟩
    slots := s.slots.insert id.key slot }

/-- Stages an object of the graph; gives its offset. -/
def allocate? (s : StagingBuffer) (g : ObjectGraph) (r : TypeRegistry) (id : ObjectId)
    (region : Region) : Except ArchiveError (Nat × StagingBuffer) := do
  let object ← s.prepare g r id
  return (s.size, s.push id region object)

/-- The bytes of the root array with all references null. It is staged once, and has to fit the
buffer. -/
def prepareRoots (s : StagingBuffer) (roots : List ObjectId) : Except ArchiveError ByteArray := do
  if s.roots.isSome then throw (.outOfOrder .rootsStagedTwice)
  if 0x100000000 ≤ roots.length then throw (.graph .tooManyRoots)
  let length := UInt32.ofNat roots.length
  let size := TypeInfo.rootArray.kind.objectSize length s.slotSize
  if s.alignment < size then throw (.regions (.rootArrayTooLarge size s.alignment))
  s.checkRoom size
  return ObjectHeader.write ⟨0, TypeRegistry.rootIndex, length⟩ (Bytes.zeros size) 0

/-- Appends the bytes of the root array. -/
def pushRoots (s : StagingBuffer) (roots : List ObjectId) (array : ByteArray) : StagingBuffer :=
  let slot := s.size
  { s with bytes := s.bytes ++ array, roots := some ⟨slot, array.size, roots⟩ }

/-- Stages the root array; gives its offset. -/
def allocateRoots? (s : StagingBuffer) (roots : List ObjectId) :
    Except ArchiveError (Nat × StagingBuffer) := do
  let array ← s.prepareRoots roots
  return (s.size, s.pushRoots roots array)

/-! ### Linking -/

/-- An identity to be written at an offset of the buffer. -/
structure Link where
  offset : Nat
  identity : Nat
  deriving DecidableEq, Repr

/-- The link from an offset of the object `referrer` to a referent, if it refers to one. -/
def linkTo (s : StagingBuffer) (referrer : ObjectId) (offset : Nat) :
    Option ObjectId → Except ArchiveError (Option Link)
  | none => .ok none
  | some referent =>
    match s.slotOf? referent with
    | some slot => .ok (some ⟨offset, identityOf slot⟩)
    | none => .error (.unarchivedReferent referrer referent)

/-- The reference a field holds; other fields hold none. -/
def referenceOf : FieldValue → Option ObjectId
  | .reference target => target
  | _ => none

/-- The references that the graph has for an object, with their offsets from the object's start. -/
def referencesOf (o : SourceObject) (type : TypeInfo) (slot : Nat) :
    List (Nat × Option ObjectId) :=
  match o.payload with
  | .fields values =>
    match type.kind.layout? slot with
    | some layout => layout.offsets.zip (values.map referenceOf)
    | none => []
  | .references targets =>
    targets.zipIdx.map fun (target, i) => (headerSize + i * slot, target)
  | .scalars _ => []

/-- The links of a staged object. -/
def linksOf (s : StagingBuffer) (g : ObjectGraph) (r : TypeRegistry) (staged : StagedObject) :
    Except ArchiveError (List Link) := do
  let (o, type) ← g.resolve r staged.source
  let links ← (referencesOf o type s.slotSize).mapM fun (offset, target) =>
    s.linkTo staged.source (staged.slot + offset) target
  return links.filterMap id

/-- The links of the root array. -/
def rootLinks (s : StagingBuffer) (roots : StagedRoots) : Except ArchiveError (List Link) :=
  roots.roots.zipIdx.mapM fun (root, i) =>
    match s.slotOf? root with
    | some slot => .ok ⟨roots.slot + headerSize + i * s.slotSize, identityOf slot⟩
    | none => .error (.graph (.unarchivedRoot root))

/-- The links of everything in the buffer. -/
def links (s : StagingBuffer) (g : ObjectGraph) (r : TypeRegistry) :
    Except ArchiveError (List Link) := do
  -- All links are known before any is written, so a missing referent leaves the buffer alone.
  let objects ← s.objects.toList.mapM (s.linksOf g r)
  let roots ← match s.roots with
    | some roots => s.rootLinks roots
    | none => pure []
  return objects.flatten ++ roots

/-- Writes links into slots of the given size, up to the first link that lies outside the bytes. A
graph that has grown since its objects were staged has such links. -/
def writeLinks (slot : Nat) (b : ByteArray) : List Link → Except BoundsFault Unit × ByteArray
  | [] => (.ok (), b)
  | l :: links =>
    match BoundsFault.checkBytes b.size l.offset (slotWidth slot) with
    | .error fault => (.error fault, b)
    | .ok () => writeLinks slot (Bytes.setValue b l.offset (slotWidth slot) l.identity) links

/-- Writes links into the buffer. -/
def applyLinks (s : StagingBuffer) (links : List Link) :
    Except ArchiveError Unit × StagingBuffer :=
  let (result, bytes) := writeLinks s.slotSize s.bytes links
  (result.mapError .bounds, { s with bytes := bytes })

/-- Fills every reference with the identity of its referent. The buffer that comes with a failure
holds what was filled before. -/
def link (s : StagingBuffer) (g : ObjectGraph) (r : TypeRegistry) :
    Except ArchiveError Unit × StagingBuffer :=
  match s.links g r with
  | .ok links => s.applyLinks links
  | .error e => (.error e, s)

end StagingBuffer

end HeapImage
