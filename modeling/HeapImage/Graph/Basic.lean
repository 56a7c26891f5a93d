import HeapImage.Types.Registry
import HeapImage.Region

/-!
# Object graphs

The source of a dump is a list of objects that refer to each other by their position, so that cycles
and forward references need no pointers. Which objects to archive, where, and which of them are
roots, is a selection.

* `ObjectGraph`, `SourceObject`, `Payload`, `FieldValue`: objects and what they hold.
* `Payload.referents`: the objects that an object refers to.
* `Selection`: the objects to archive with their regions, and the roots.
* `GraphFault`: the ways in which a graph or a selection cannot be archived.
-/

namespace HeapImage

/-- Position of an object in a graph. -/
structure ObjectId where
  /-- The position. -/
  index : UInt32
  deriving DecidableEq, Repr

/-- The position as a number, which tables are keyed by. -/
def ObjectId.key (id : ObjectId) : Nat := id.index.toNat

/-- The object's name in messages. -/
def ObjectId.name (id : ObjectId) : String := "#" ++ toString id.key

/-- What one field of a record holds. -/
inductive FieldValue where
  | scalar (value : UInt64)
  | reference (target : Option ObjectId)
  | native (value : UInt64)
  deriving DecidableEq, Repr

/-- The field kind that a value fills. -/
def FieldValue.kind : FieldValue → FieldKind
  | scalar _ => .scalar
  | reference _ => .reference
  | native _ => .native

/-- What an object holds after its header. -/
inductive Payload where
  /-- The fields of a record in declaration order. -/
  | fields (values : List FieldValue)
  /-- The elements of a scalar array. -/
  | scalars (values : List UInt64)
  /-- The elements of a reference array. -/
  | references (targets : List (Option ObjectId))
  deriving DecidableEq, Repr

namespace Payload

/-- Number of fields or elements. -/
def length : Payload → Nat
  | fields vs => vs.length
  | scalars vs => vs.length
  | references ts => ts.length

/-- The objects referred to, in order and with repetitions; null refers to none. -/
def referents : Payload → List ObjectId
  | fields vs => vs.filterMap fun
    | .reference target => target
    | _ => none
  | references ts => ts.filterMap id
  | scalars _ => []

/-- The kinds of the fields of a record. -/
def fieldKinds : Payload → List FieldKind
  | fields vs => vs.map FieldValue.kind
  | _ => []

end Payload

/-- An object of a graph. -/
structure SourceObject where
  /-- The object's type. -/
  typeIndex : TypeIndex
  /-- The mark word, copied into the archive as it is. -/
  mark : UInt64
  /-- Fields or elements. -/
  payload : Payload
  deriving DecidableEq, Repr

/-- Objects addressed by their position. -/
structure ObjectGraph where
  /-- The objects in order. -/
  objects : Array SourceObject
  deriving DecidableEq, Repr

/-- Why a graph or a selection cannot be archived. -/
inductive GraphFault where
  | noObject (id : ObjectId)
  | noField (id : ObjectId) (field : Nat)
  | oversizedElement (id : ObjectId) (value : UInt64) (size : Nat)
  | kindMismatch (id : ObjectId) (typeName : String)
  | selectedTwice (id : ObjectId)
  | tooLong (id : ObjectId)
  | tooManyRoots
  | unarchivedRoot (id : ObjectId)
  | danglingIdentity (value offset : Nat)
  | missingHeader (offset : Nat)
  deriving DecidableEq, Repr

/-- The wording of a fault. -/
def GraphFault.message : GraphFault → String
  | noObject id => "no object " ++ id.name
  | noField id field => "object " ++ id.name ++ " has no field " ++ toString field
  | oversizedElement id value size =>
    "object " ++ id.name ++ " element " ++ hexNumeral value.toNat ++ " does not fit in " ++
      toString size ++ " bytes"
  | kindMismatch id typeName => "object " ++ id.name ++ " does not match type " ++ typeName
  | selectedTwice id => "object " ++ id.name ++ " selected twice"
  | tooLong id => "object " ++ id.name ++ " is too long"
  | tooManyRoots => "too many roots"
  | unarchivedRoot id => "root " ++ id.name ++ " is not archived"
  | danglingIdentity value offset =>
    "dangling staging reference " ++ hexNumeral value ++ " at @" ++ hexNumeral offset
  | missingHeader offset => "no header at @" ++ hexNumeral offset

namespace ObjectGraph

/-- The graph without objects. -/
def empty : ObjectGraph := ⟨#[]⟩

instance : Inhabited ObjectGraph := ⟨empty⟩

/-- Number of objects. -/
def size (g : ObjectGraph) : Nat := g.objects.size

/-- The object at a position. -/
def get? (g : ObjectGraph) (id : ObjectId) : Option SourceObject := g.objects[id.key]?

/-- The position of the next object to be added. -/
def nextId (g : ObjectGraph) : ObjectId := ⟨UInt32.ofNat g.size⟩

/-- Appends an object; its position is `nextId`. -/
def add (g : ObjectGraph) (o : SourceObject) : ObjectGraph := ⟨g.objects.push o⟩

/-- All positions in order. -/
def ids (g : ObjectGraph) : List ObjectId := (List.range g.size).map fun i => ⟨UInt32.ofNat i⟩

/-- Replaces one field of a record, for instance to close a cycle. -/
def setField (g : ObjectGraph) (id : ObjectId) (field : Nat) (value : FieldValue) :
    Except GraphFault ObjectGraph :=
  match g.get? id with
  | none => .error (.noObject id)
  | some o =>
    match o.payload with
    | .fields values =>
      if field < values.length then
        .ok ⟨g.objects.setIfInBounds id.key { o with payload := .fields (values.set field value) }⟩
      else .error (.noField id field)
    | _ => .error (.noField id field)

end ObjectGraph

/-! ### Selections -/

/-- What to archive. -/
structure Selection where
  /-- The archived objects with their regions, in archive order. -/
  entries : List (ObjectId × Region)
  /-- The elements of the root array. -/
  roots : List ObjectId
  deriving DecidableEq, Repr

namespace Selection

/-- The selection of nothing. -/
def empty : Selection := ⟨[], []⟩

/-- Archives one more object. -/
def withEntry (s : Selection) (id : ObjectId) (region : Region) : Selection :=
  { s with entries := s.entries ++ [(id, region)] }

/-- Lists one more root. -/
def withRoot (s : Selection) (id : ObjectId) : Selection := { s with roots := s.roots ++ [id] }

/-- Every object in the open region, and no root. -/
def allOpen (g : ObjectGraph) : Selection := ⟨g.ids.map fun id => (id, .opened), []⟩

/-- What is archived when nothing is said: all objects, open, with the first one as the root. -/
def default (g : ObjectGraph) : Selection :=
  if g.size = 0 then allOpen g else (allOpen g).withRoot ⟨0⟩

end Selection

end HeapImage
