import HeapImage.Graph.Json
import HeapImage.Json.Parser

/-!
# Graph files

A graph file describes in JSON what to dump: types, objects, and which of them to archive. Types are
numbered from one on, the root array being type zero.

Records may be given as arrays of their members in order. The members of a kind of type are the
exception: a text may give them so, but a value that has already been read has to name them.

* `GraphFile`: the contents of a graph file.
* `GraphFile.KindForm`: how the members of a kind of type may be given.
* `GraphFile.ofJson?`, `GraphFile.parse?`: the contents in a JSON value or a text, if it has the
  right form.
* `GraphFile.registry`, `GraphFile.selectionOrDefault`: what a dump needs.
-/

namespace HeapImage

/-- What a graph file describes. -/
structure GraphFile where
  types : List TypeInfo
  graph : ObjectGraph
  selection : Option Selection

namespace GraphFile

/-- A number of 32 bits. -/
def half? (value : Json) : Option UInt32 := (value.natural? 0x100000000).map UInt32.ofNat

/-- A number of 64 bits. -/
def word? (value : Json) : Option UInt64 := (value.natural? 0x10000000000000000).map UInt64.ofNat

/-- A list of numbers of 64 bits. -/
def words? (value : Json) : Option (List UInt64) := value.list? word?

/-! ### Types -/

/-- A kind of field. -/
def fieldKind? (value : Json) : Option FieldKind := do
  let (name, content) ← value.variant?
  guard (Json.isUnit content)
  [FieldKind.scalar, .reference, .native].find? fun kind => kind.name == name

/-- How the members of a kind of type may be given. -/
inductive KindForm where
  /-- By their names, as in a value. -/
  | named
  /-- By their names or in their order, as in a text. -/
  | namedOrOrdered
  deriving DecidableEq, Repr

/-- The members of a kind of type with the given names. -/
def KindForm.record? : KindForm → List String → Json → Option (List (Option Json))
  | .named => Json.members?
  | .namedOrOrdered => Json.record?

/-- The fields of a record kind. -/
def recordKind? (form : KindForm) (value : Json) : Option TypeKind := do
  match ← form.record? ["fields"] value with
  | [some fields] => return .record (← fields.list? fieldKind?)
  | _ => none

/-- The element size of a scalar array kind. -/
def scalarArrayKind? (form : KindForm) (value : Json) : Option TypeKind := do
  match ← form.record? ["element_size"] value with
  | [some size] => return .scalarArray (← size.natural? 256)
  | _ => none

/-- What objects of a type are made of. -/
def typeKind? (form : KindForm) (value : Json) : Option TypeKind := do
  match ← value.variant? with
  | ("instance", some content) => recordKind? form content
  | ("scalar_array", some content) => scalarArrayKind? form content
  | ("reference_array", content) => if Json.isUnit content then some .referenceArray else none
  | _ => none

/-- A type with its name. -/
def type? (form : KindForm) (value : Json) : Option TypeInfo := do
  match ← value.record? ["name", "kind"] with
  | [some name, some kind] => return ⟨← name.text?, ← typeKind? form kind⟩
  | _ => none

/-- A list of types in a value. -/
def types? (value : Json) : Option (List TypeInfo) := value.list? (type? .named)

/-! ### Objects -/

/-- The position of an object. -/
def objectId? (value : Json) : Option ObjectId := (half? value).map ObjectId.mk

/-- The value of a field. -/
def fieldValue? (value : Json) : Option FieldValue := do
  match ← value.variant? with
  | ("scalar", some content) => return .scalar (← word? content)
  | ("native", some content) => return .native (← word? content)
  | ("reference", some content) => return .reference (← Json.nullable? objectId? content)
  | _ => none

/-- Fields or elements. -/
def payload? (value : Json) : Option Payload := do
  match ← value.variant? with
  | ("fields", some content) => return .fields (← content.list? fieldValue?)
  | ("scalars", some content) => return .scalars (← words? content)
  | ("references", some content) =>
    return .references (← content.list? (Json.nullable? objectId?))
  | _ => none

/-- An object; without a mark word the mark is zero. -/
def object? (value : Json) : Option SourceObject := do
  match ← value.record? ["type_index", "mark", "payload"] with
  | [some typeIndex, mark, some payload] =>
    let mark ← match mark with
      | some mark => word? mark
      | none => some 0
    return ⟨← half? typeIndex, mark, ← payload? payload⟩
  | _ => none

/-- A graph. -/
def graph? (value : Json) : Option ObjectGraph := do
  match ← value.record? ["objects"] with
  | [some objects] => return ⟨(← objects.list? object?).toArray⟩
  | _ => none

/-! ### Selections -/

/-- A region by its name. -/
def region? (value : Json) : Option Region := do
  let (name, content) ← value.variant?
  guard (Json.isUnit content)
  Region.all.find? fun region => region.name == name

/-- An object with its region. -/
def entry? (value : Json) : Option (ObjectId × Region) := do
  match ← value.array? with
  | [id, region] => return (← objectId? id, ← region? region)
  | _ => none

/-- A selection. -/
def selection? (value : Json) : Option Selection := do
  match ← value.record? ["entries", "roots"] with
  | [some entries, some roots] => return ⟨← entries.list? entry?, ← roots.list? objectId?⟩
  | _ => none

/-! ### Files -/

/-- The contents of a graph file, whose kinds of types have a form. -/
def contents? (form : KindForm) (value : Json) : Option GraphFile := do
  match ← value.record? ["types", "graph", "selection"] with
  | [some types, some graph, selection] =>
    let selection ← match selection with
      | some selection => Json.nullable? selection? selection
      | none => some none
    return ⟨← types.list? (type? form), ← graph? graph, selection⟩
  | _ => none

/-- What a value describes. -/
def ofJson? (value : Json) : Option GraphFile := contents? .named value

/-- The contents of a graph file with the given text. -/
def parse? (text : String) : Option GraphFile :=
  (Json.parse? text).bind (contents? .namedOrOrdered)

/-- The types as a registry. -/
def registry (f : GraphFile) : Except TypeRejection TypeRegistry := TypeRegistry.ofList? f.types

/-- The selection, or the standard one if the file has none. -/
def selectionOrDefault (f : GraphFile) : Selection := f.selection.getD (.default f.graph)

end GraphFile

end HeapImage
