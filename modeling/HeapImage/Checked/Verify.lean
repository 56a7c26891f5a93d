import HeapImage.Checked.Patch
import HeapImage.Heap.Verify
import HeapImage.Snapshot

/-!
# Checked reads of a loaded heap

Verification goes from object to object and a walk from reference to reference. Both add sizes and
offsets to addresses, and both work out the address that a stored value stands for, whatever it is.
Here these sums have to be addresses.

* `Checked.verifyHeap`: every extent is tiled by objects, and every reference names one of them.
* `Checked.ofHeap`: the snapshot of what can be reached from an address.
-/

namespace HeapImage.Checked

variable {μ : Type} [Memory μ] (space : AddressSpace) (heap : μ) (types : TypeRegistry)
variable (encoding : ReferenceEncoding)

/-! ### Verifying -/

/-- Appends the objects from `a` up to the end of an extent to those found before; the last one has
to end there. -/
def walkFrom (slot : Nat) (e : Extent) (a : Nat) (found : Array VerifiedObject) :
    Except (Stop VerifyFault) (Array VerifiedObject) :=
  if a < e.top then
    match VerifiedObject.at? heap types a with
    | .error fault => .error (.error fault)
    | .ok o =>
      match _h : space.add a (o.size slot) with
      | .error fault => .error (.fault fault)
      | .ok next => walkFrom slot e next (found.push o)
  else if a = e.top then .ok found
  else .error (.error (.overrun e.bottom e.top))
termination_by e.top - a
decreasing_by
  have := o.size_pos slot
  have := AddressSpace.eq_of_add_eq_ok _h
  omega

/-- The objects of all extents, in order. -/
def walkAll (slot : Nat) (extents : List Extent) :
    Except (Stop VerifyFault) (Array VerifiedObject) :=
  extents.foldlM (fun found e => walkFrom space heap types slot e e.bottom found) #[]

/-- Checks the reference slot at an offset of an object and counts it. -/
def checkSlot (starts : Std.TreeSet Nat) (o : VerifiedObject) (report : VerifyReport)
    (offset : Nat) : Except (Stop VerifyFault) VerifyReport := do
  let place ← (space.add o.address offset).orStop
  match Memory.readValue? heap place encoding.slotSize with
  | none => throw (.error (.unreadableReference place))
  | some value =>
    if value = 0 then return { report with nulls := report.nulls + 1 }
    else
      let target ← (decode space encoding value).orStop
      if starts.contains target then return { report with references := report.references + 1 }
      else throw (.error (.strayReference o.type.name place target))

/-- Checks all reference slots of an object and counts them. -/
def checkReferences (starts : Std.TreeSet Nat) (report : VerifyReport) (o : VerifiedObject) :
    Except (Stop VerifyFault) VerifyReport :=
  o.type.kind.foldReferences o.header.length encoding.slotSize
    (checkSlot space heap encoding starts o) report

/-- Checks that objects tile the extents and that their references name objects among them. -/
def checkExtents (extents : List Extent) : Except (Stop VerifyFault) VerifyReport := do
  let objects ← walkAll space heap types encoding.slotSize extents
  let starts : Std.TreeSet Nat := objects.foldl (fun s o => s.insert o.address) ∅
  objects.toList.foldlM (checkReferences space heap encoding starts) ⟨objects.size, 0, 0⟩

/-- Verifies the objects in the given extents of a heap. -/
def verifyHeap (extents : List Extent) : Checked (Except ArchiveError VerifyReport) :=
  match encoding.check with
  | .error e => .ok (.error e)
  | .ok () => do
    match ← Stop.settle (checkExtents space heap types encoding extents) with
    | .ok report => return .ok report
    | .error fault => return .error (.load (.verification fault))

/-! ### Snapshots -/

/-- The reference in the slot at an address. -/
def referenceAt (a : Nat) : Except (Stop ArchiveError) ViewValue := do
  let value ← (ObjectView.valueAt heap a encoding.slotSize).mapError .error
  if value = 0 then return .reference none
  else return .reference (some (← (decode space encoding value).orStop))

/-- The field of a kind at an offset of an object. -/
def fieldAt (v : ObjectView) (kind : FieldKind) (offset : Nat) :
    Except (Stop ArchiveError) ViewValue := do
  let a ← (space.add v.address offset).orStop
  match kind with
  | .reference => referenceAt space heap encoding a
  | .scalar | .native => (ObjectView.fieldAt heap encoding kind a).mapError .error

/-- Field `i` of a record or element `i` of an array. -/
def field (v : ObjectView) (i : Nat) : Except (Stop ArchiveError) ViewValue :=
  if v.length ≤ i then .error (.error (.load (.noField v.type.name v.address i)))
  else
    match v.type.kind with
    | .record kinds =>
      let layout := RecordLayout.compute kinds encoding.slotSize
      match kinds[i]?, layout.offsets[i]? with
      | some kind, some offset => fieldAt space heap encoding v kind offset
      | _, _ => .error (.error (.load (.noField v.type.name v.address i)))
    | .scalarArray size => do
      let a ← (space.add v.address (headerSize + i * size)).orStop
      let value ← (ObjectView.valueAt heap a size).mapError .error
      return .scalar (UInt64.ofNat value)
    | .referenceArray =>
      fieldAt space heap encoding v .reference (headerSize + i * encoding.slotSize)

/-- Reads and numbers the `n` values of an object from value `i` on. -/
def readValues (v : ObjectView) : (n i : Nat) → Array SnapshotValue → Numbering →
    Except (Stop ArchiveError) (Array SnapshotValue × Numbering)
  | 0, _, values, keys => .ok (values, keys)
  | n + 1, i, values, keys =>
    match field space heap encoding v i with
    | .error stop => .error stop
    | .ok (.scalar x) => readValues v n (i + 1) (values.push (.scalar x)) keys
    | .ok (.native x) => readValues v n (i + 1) (values.push (.native x)) keys
    | .ok (.reference target) =>
      let (number, keys) := keys.numberOptional target
      readValues v n (i + 1) (values.push (.reference number)) keys

/-- The node at an address of a heap. -/
def readAddress (a : Nat) (keys : Numbering) :
    Except (Stop ArchiveError) (SnapshotNode × Numbering) := do
  let v ← (ObjectView.atAddress heap types a).mapError .error
  let (values, keys) ← readValues space heap encoding v v.length 0 #[] keys
  return (⟨v.header.typeIndex, v.header.mark, values⟩, keys)

/-- The snapshot of what can be reached from an address of a heap. -/
def ofHeap (root : Nat) : Checked (Except ArchiveError Snapshot) := Stop.settle do
  let nodes ← Snapshot.explore (readAddress space heap types encoding) (Memory.extent heap + 1)
    (.start root) #[]
  return ⟨nodes⟩

end HeapImage.Checked
