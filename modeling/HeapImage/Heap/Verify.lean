import HeapImage.Heap.Memory
import Std.Data.TreeSet

/-!
# Verifying a loaded heap

* `VerifiedObject.walk`: the objects that tile an extent of heap memory.
* `VerifyReport`: numbers of objects, references and nulls.
* `verifyHeap`: every extent is tiled by objects, and every reference in them names one of them.
-/

namespace HeapImage

/-- What a successful verification has seen. -/
structure VerifyReport where
  objects : Nat
  references : Nat
  nulls : Nat
  deriving DecidableEq, Repr

/-- An object met in an extent. -/
structure VerifiedObject where
  address : Nat
  header : ObjectHeader
  type : TypeInfo
  deriving DecidableEq, Repr

namespace VerifiedObject

variable {μ : Type} [Memory μ]

/-- Bytes of the object. -/
def size (o : VerifiedObject) (slot : Nat) : Nat := o.type.kind.objectSize o.header.length slot

/-- Every object takes up memory. -/
theorem size_pos (o : VerifiedObject) (slot : Nat) : 0 < o.size slot :=
  Nat.lt_of_lt_of_le (by decide) (TypeKind.headerSize_le_objectSize ..)

/-- The object at an address. -/
def at? (heap : μ) (types : TypeRegistry) (a : Nat) : Except VerifyFault VerifiedObject :=
  match (Memory.read? heap a headerSize).bind fun b => ObjectHeader.read? b 0 with
  | none => .error (.unreadableHeader a)
  | some header =>
    match types.get? header.typeIndex with
    | none => .error (.unknownType header.typeIndex a)
    | some type =>
      if type.kind.acceptsLength header.length then .ok ⟨a, header, type⟩
      else .error (.badLength type.name a header.length)

/-- Appends the objects from `a` up to the end of an extent to those found before; the last one has
to end there. -/
def walkFrom (heap : μ) (types : TypeRegistry) (slot : Nat) (e : Extent) (a : Nat)
    (found : Array VerifiedObject) : Except VerifyFault (Array VerifiedObject) :=
  if a < e.top then
    match at? heap types a with
    | .error fault => .error fault
    | .ok o => walkFrom heap types slot e (a + o.size slot) (found.push o)
  else if a = e.top then .ok found
  else .error (.overrun e.bottom e.top)
termination_by e.top - a
decreasing_by
  have := o.size_pos slot
  omega

/-- The objects of all extents, in order. -/
def walkAll (heap : μ) (types : TypeRegistry) (slot : Nat) (extents : List Extent) :
    Except VerifyFault (Array VerifiedObject) :=
  extents.foldlM (fun found e => walkFrom heap types slot e e.bottom found) #[]

/-- Checks the reference slot at an offset of an object and counts it. -/
def checkSlot (heap : μ) (encoding : ReferenceEncoding) (starts : Std.TreeSet Nat)
    (o : VerifiedObject) (report : VerifyReport) (offset : Nat) :
    Except VerifyFault VerifyReport :=
  let place := o.address + offset
  match Memory.readValue? heap place encoding.slotSize with
  | none => .error (.unreadableReference place)
  | some value =>
    if value = 0 then .ok { report with nulls := report.nulls + 1 }
    else
      let target := encoding.decode value
      if starts.contains target then .ok { report with references := report.references + 1 }
      else .error (.strayReference o.type.name place target)

/-- Checks all reference slots of an object and counts them. -/
def checkReferences (heap : μ) (encoding : ReferenceEncoding) (starts : Std.TreeSet Nat)
    (report : VerifyReport) (o : VerifiedObject) : Except VerifyFault VerifyReport :=
  o.type.kind.foldReferences o.header.length encoding.slotSize
    (o.checkSlot heap encoding starts) report

end VerifiedObject

/-- Checks that objects tile the extents and that their references name objects among them. -/
def checkExtents {μ : Type} [Memory μ] (heap : μ) (types : TypeRegistry)
    (encoding : ReferenceEncoding) (extents : List Extent) :
    Except VerifyFault VerifyReport := do
  -- A reference may lead to any of the extents, so all starts are needed before the first check.
  let objects ← VerifiedObject.walkAll heap types encoding.slotSize extents
  let starts : Std.TreeSet Nat := objects.foldl (fun s o => s.insert o.address) ∅
  objects.toList.foldlM (VerifiedObject.checkReferences heap encoding starts) ⟨objects.size, 0, 0⟩

/-- Verifies the objects in the given extents of a heap. -/
def verifyHeap {μ : Type} [Memory μ] (heap : μ) (types : TypeRegistry)
    (encoding : ReferenceEncoding) (extents : List Extent) :
    Except ArchiveError VerifyReport := do
  encoding.check
  match checkExtents heap types encoding extents with
  | .ok report => return report
  | .error fault => throw (.load (.verification fault))

end HeapImage
