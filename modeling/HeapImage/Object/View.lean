import HeapImage.Heap.Memory

/-!
# Objects in heap memory

* `ObjectView.atAddress`: the object at an address, or what keeps it from being read.
* `ObjectView.field`, `ObjectView.reference`, `ObjectView.scalar`: its fields or elements.
* `ViewValue`: what a field holds, references decoded to addresses.
-/

namespace HeapImage

/-- What a field or an element holds. -/
inductive ViewValue where
  | scalar (value : UInt64)
  | native (value : UInt64)
  /-- A reference; null names no address. -/
  | reference (target : Option Nat)
  deriving DecidableEq, Repr

/-- An object found at an address. -/
structure ObjectView where
  address : Nat
  header : ObjectHeader
  type : TypeInfo
  deriving DecidableEq, Repr

namespace ObjectView

variable {μ : Type} [Memory μ]

/-- The object at an address. -/
def atAddress (heap : μ) (types : TypeRegistry) (a : Nat) : Except ArchiveError ObjectView :=
  match (Memory.read? heap a headerSize).bind fun b => ObjectHeader.read? b 0 with
  | none => .error (.load (.unreadableObject a))
  | some header => do
    let type ← types.require header.typeIndex
    if type.kind.acceptsLength header.length then return ⟨a, header, type⟩
    else throw (.load (.objectLength type.name a header.length))

/-- Number of fields or elements. -/
def length (v : ObjectView) : Nat := v.header.length.toNat

/-- The number in the `len` bytes at an address, which have to be readable. -/
def valueAt (heap : μ) (a : Nat) (len : Nat) : Except ArchiveError Nat :=
  match Memory.readValue? heap a len with
  | some value => .ok value
  | none => .error (.load (.unreadableObject a))

/-- The reference in the slot at an address. -/
def referenceAt (heap : μ) (encoding : ReferenceEncoding) (a : Nat) :
    Except ArchiveError ViewValue := do
  let value ← valueAt heap a encoding.slotSize
  return .reference (if value = 0 then none else some (encoding.decode value))

/-- The field of a kind at an address. -/
def fieldAt (heap : μ) (encoding : ReferenceEncoding) (kind : FieldKind) (a : Nat) :
    Except ArchiveError ViewValue :=
  match kind with
  | .scalar => return .scalar (UInt64.ofNat (← valueAt heap a wordSize))
  | .native => return .native (UInt64.ofNat (← valueAt heap a wordSize))
  | .reference => referenceAt heap encoding a

/-- Field `i` of a record or element `i` of an array. -/
def field (v : ObjectView) (heap : μ) (encoding : ReferenceEncoding) (i : Nat) :
    Except ArchiveError ViewValue :=
  if v.length ≤ i then .error (.load (.noField v.type.name v.address i))
  else
    match v.type.kind with
    | .record kinds =>
      let layout := RecordLayout.compute kinds encoding.slotSize
      match kinds[i]?, layout.offsets[i]? with
      | some kind, some offset => fieldAt heap encoding kind (v.address + offset)
      | _, _ => .error (.load (.noField v.type.name v.address i))
    | .scalarArray size => do
      let value ← valueAt heap (v.address + (headerSize + i * size)) size
      return .scalar (UInt64.ofNat value)
    | .referenceArray =>
      referenceAt heap encoding (v.address + (headerSize + i * encoding.slotSize))

/-- The target of reference `i`. -/
def reference (v : ObjectView) (heap : μ) (encoding : ReferenceEncoding) (i : Nat) :
    Except ArchiveError (Option Nat) := do
  match ← v.field heap encoding i with
  | .reference target => return target
  | _ => throw (.load (.notReference i v.type.name))

/-- The value of scalar or native pointer `i`. -/
def scalar (v : ObjectView) (heap : μ) (encoding : ReferenceEncoding) (i : Nat) :
    Except ArchiveError UInt64 := do
  match ← v.field heap encoding i with
  | .scalar value | .native value => return value
  | .reference _ => throw (.load (.notScalar i v.type.name))

end ObjectView

end HeapImage
