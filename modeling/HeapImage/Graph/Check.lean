import HeapImage.Error

/-!
# Objects that fit their types

* `ObjectGraph.check`: the object exists, its type is registered, and its payload has the form the
  type asks for.
-/

namespace HeapImage

/-- A scalar that an array element of `size` bytes can hold. -/
def fitsElement (value : UInt64) (size : Nat) : Bool := 8 ≤ size || value.toNat < 1 <<< (8 * size)

namespace ObjectGraph

/-- The payload of object `id` has the form that a type asks for. -/
def checkPayload (id : ObjectId) (payload : Payload) (type : TypeInfo) : Except GraphFault Unit :=
  match type.kind, payload with
  | .record kinds, .fields values =>
    if values.map FieldValue.kind = kinds then .ok () else .error (.kindMismatch id type.name)
  | .scalarArray size, .scalars values =>
    match values.find? fun v => !fitsElement v size with
    | some v => .error (.oversizedElement id v size)
    | none => .ok ()
  | .referenceArray, .references _ => .ok ()
  | _, _ => .error (.kindMismatch id type.name)

/-- Object `id` with its type, both of which have to exist. -/
def resolve (g : ObjectGraph) (r : TypeRegistry) (id : ObjectId) :
    Except ArchiveError (SourceObject × TypeInfo) :=
  match g.get? id with
  | none => .error (.graph (.noObject id))
  | some o => do
    let type ← r.require o.typeIndex
    .ok (o, type)

/-- Object `id` with its type, which its payload has to fit. -/
def check (g : ObjectGraph) (r : TypeRegistry) (id : ObjectId) :
    Except ArchiveError (SourceObject × TypeInfo) := do
  let (o, type) ← g.resolve r id
  match checkPayload id o.payload type with
  | .ok () => .ok (o, type)
  | .error fault => .error (.graph fault)

end ObjectGraph

end HeapImage
