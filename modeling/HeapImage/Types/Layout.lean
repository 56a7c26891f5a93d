import HeapImage.Object.Header
import HeapImage.Object.Slot

/-!
# Layout of records

The fields of a record follow its header in declaration order. Each field is aligned to its own
width, so two narrow references can share a heap word.

* `FieldKind`, `TypeKind`: what a field holds and what an object is made of.
* `RecordLayout.compute`: offsets of the fields and size of the record for one slot width.
* `TypeKind.objectSize`, `TypeKind.referenceOffsets`, `TypeKind.nativeOffsets`: the extent of an
  object and the places in it that a load has to adjust.
-/

namespace HeapImage

/-- What a field of a record holds. -/
inductive FieldKind where
  /-- A plain heap word. -/
  | scalar
  /-- A reference slot. -/
  | reference
  /-- A heap word that points outside the heap. -/
  | native
  deriving DecidableEq, Repr

namespace FieldKind

/-- Bytes of a field, given the bytes of a reference slot. -/
def width (slot : Nat) : FieldKind → Nat
  | reference => slot
  | scalar | native => wordSize

/-- The byte that stands for a field kind in a type table. -/
def tag : FieldKind → UInt8
  | scalar => 0
  | reference => 1
  | native => 2

/-- The field kind that a byte stands for. -/
def ofTag? (t : UInt8) : Option FieldKind :=
  if t = 0 then some scalar
  else if t = 1 then some reference
  else if t = 2 then some native
  else none

/-- A kind of field is read back from its tag. -/
@[simp] theorem ofTag?_tag (k : FieldKind) : ofTag? k.tag = some k := by cases k <;> rfl

end FieldKind

/-- The three shapes of an object, as an allocator tells them apart. -/
inductive Shape where
  | record
  | scalarArray
  | referenceArray
  deriving DecidableEq, Repr

/-- What objects of a type are made of. -/
inductive TypeKind where
  /-- Fields in declaration order. -/
  | record (fields : List FieldKind)
  /-- Scalars of one size in bytes. -/
  | scalarArray (elementSize : Nat)
  /-- References. -/
  | referenceArray
  deriving DecidableEq, Repr

/-! ### Records -/

/-- Where the fields of a record are and how many bytes it has. -/
structure RecordLayout where
  /-- The offset of each field from the start of the object. -/
  offsets : List Nat
  /-- Bytes of the whole object, header included. -/
  size : Nat
  deriving DecidableEq, Repr

namespace RecordLayout

/-- Offsets of fields laid out from `start` on. -/
def fieldOffsets (slot : Nat) : (start : Nat) → List FieldKind → List Nat
  | _, [] => []
  | start, k :: ks =>
    let offset := alignUp start (k.width slot)
    offset :: fieldOffsets slot (offset + k.width slot) ks

/-- The end of the last of the fields laid out from `start` on. -/
def fieldsEnd (slot : Nat) : (start : Nat) → List FieldKind → Nat
  | start, [] => start
  | start, k :: ks => fieldsEnd slot (alignUp start (k.width slot) + k.width slot) ks

/-- The layout of a record whose reference slots have `slot` bytes. -/
def compute (fields : List FieldKind) (slot : Nat) : RecordLayout where
  offsets := fieldOffsets slot headerSize fields
  size := alignUp (fieldsEnd slot headerSize fields) wordSize

/-- There is an offset for each field. -/
@[simp] theorem length_fieldOffsets (slot start : Nat) (fields : List FieldKind) :
    (fieldOffsets slot start fields).length = fields.length := by
  induction fields generalizing start with
  | nil => rfl
  | cons k ks ih => simp [fieldOffsets, ih]

/-- Fields end no earlier than they start. -/
theorem le_fieldsEnd (slot start : Nat) (fields : List FieldKind) :
    start ≤ fieldsEnd slot start fields := by
  induction fields generalizing start with
  | nil => exact Nat.le_refl _
  | cons k ks ih =>
    have h := ih (alignUp start (k.width slot) + k.width slot)
    have hu := le_alignUp start (k.width slot)
    simp only [fieldsEnd]
    omega

/-- The listing form of a layout. -/
def describe (l : RecordLayout) : String :=
  toString l.size ++ " bytes, fields at " ++ bracketed l.offsets

/-- Offsets of the fields of one kind. -/
def offsetsOf (l : RecordLayout) (fields : List FieldKind) (kind : FieldKind) : List Nat :=
  (fields.zip l.offsets).filterMap fun (k, offset) => if k = kind then some offset else none

end RecordLayout

/-! ### Objects -/

namespace TypeKind

/-- The shape of objects of a kind. -/
def shape : TypeKind → Shape
  | record _ => .record
  | scalarArray _ => .scalarArray
  | referenceArray => .referenceArray

/-- The declared fields; arrays have none. -/
def fields : TypeKind → List FieldKind
  | record fs => fs
  | _ => []

/-- The layout of records; arrays have none. -/
def layout? (kind : TypeKind) (slot : Nat) : Option RecordLayout :=
  match kind with
  | record fs => some (RecordLayout.compute fs (slotWidth slot))
  | _ => none

/-- Bytes of an object with this length in its header. -/
def objectSize (kind : TypeKind) (length : UInt32) (slot : Nat) : Nat :=
  match kind with
  | record fs => (RecordLayout.compute fs (slotWidth slot)).size
  | scalarArray n => alignUp (headerSize + length.toNat * n) wordSize
  | referenceArray => alignUp (headerSize + length.toNat * slot) wordSize

/-- Every object has room for its header. -/
theorem headerSize_le_objectSize (kind : TypeKind) (length : UInt32) (slot : Nat) :
    headerSize ≤ kind.objectSize length slot := by
  cases kind with
  | record fs =>
    exact Nat.le_trans (RecordLayout.le_fieldsEnd ..) (le_alignUp ..)
  | scalarArray n => exact Nat.le_trans (Nat.le_add_right ..) (le_alignUp ..)
  | referenceArray => exact Nat.le_trans (Nat.le_add_right ..) (le_alignUp ..)

/-- The length in a record's header is the number of its fields; arrays have any length. -/
def acceptsLength (kind : TypeKind) (length : UInt32) : Bool :=
  match kind with
  | record fs => fs.length == length.toNat
  | _ => true

/-- Offsets of the reference slots of an object, in ascending order. -/
def referenceOffsets (kind : TypeKind) (length : UInt32) (slot : Nat) : List Nat :=
  match kind with
  | record fs => (RecordLayout.compute fs (slotWidth slot)).offsetsOf fs .reference
  | scalarArray _ => []
  | referenceArray => (List.range length.toNat).map fun i => headerSize + i * slot

/-- Runs through the elements `[i, i + n)` of a reference array until `f` fails. -/
def foldElements {σ ε : Type} (slot : Nat) (f : σ → Nat → Except ε σ) : (n i : Nat) → σ → Except ε σ
  | 0, _, s => .ok s
  | n + 1, i, s =>
    match f s (headerSize + i * slot) with
    | .ok s => foldElements slot f n (i + 1) s
    | .error e => .error e

/-- Runs through the offsets of the reference slots of an object until `f` fails. -/
def foldReferences {σ ε : Type} (kind : TypeKind) (length : UInt32) (slot : Nat)
    (f : σ → Nat → Except ε σ) (s : σ) : Except ε σ :=
  match kind with
  | referenceArray => foldElements slot f length.toNat 0 s
  | _ => (kind.referenceOffsets length slot).foldlM f s

/-- Offsets of the native pointers of an object, in ascending order. -/
def nativeOffsets (kind : TypeKind) (slot : Nat) : List Nat :=
  match kind with
  | record fs => (RecordLayout.compute fs (slotWidth slot)).offsetsOf fs .native
  | _ => []

end TypeKind

end HeapImage
