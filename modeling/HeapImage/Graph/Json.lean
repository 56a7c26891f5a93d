import HeapImage.Graph.Basic
import HeapImage.Json.Printer

/-!
# Graphs as JSON

The form in which graph files have types, objects and selections.

* `TypeKind.toJson`, `ObjectGraph.toJson`, `Selection.toJson`: the values that a graph file holds.
-/

namespace HeapImage

/-- The name of a field kind in a graph file. -/
def FieldKind.name : FieldKind → String
  | scalar => "scalar"
  | reference => "reference"
  | native => "native"

/-- The value of a kind. -/
def TypeKind.toJson : TypeKind → Json
  | record fields =>
    .record [("instance", .record [("fields", .list (fun k => .text k.name) fields)])]
  | scalarArray size => .record [("scalar_array", .record [("element_size", .natural size)])]
  | referenceArray => .text "reference_array"

/-- The value of a position. -/
def ObjectId.toJson (id : ObjectId) : Json := .natural id.key

/-- The value of a field. -/
def FieldValue.toJson (value : FieldValue) : Json :=
  let content : Json := match value with
    | scalar v => .natural v.toNat
    | native v => .natural v.toNat
    | reference target => .optional ObjectId.toJson target
  .record [(value.kind.name, content)]

/-- The value of fields or elements. -/
def Payload.toJson : Payload → Json
  | fields vs => .record [("fields", .list FieldValue.toJson vs)]
  | scalars vs => .record [("scalars", .list (fun v => .natural v.toNat) vs)]
  | references ts => .record [("references", .list (Json.optional ObjectId.toJson) ts)]

/-- The value of an object. -/
def SourceObject.toJson (o : SourceObject) : Json :=
  .record [("type_index", .natural o.typeIndex.toNat), ("mark", .natural o.mark.toNat),
    ("payload", o.payload.toJson)]

/-- The value of a graph. -/
def ObjectGraph.toJson (g : ObjectGraph) : Json :=
  .record [("objects", .list SourceObject.toJson g.objects.toList)]

/-- The value of a selection. -/
def Selection.toJson (s : Selection) : Json :=
  let entry (e : ObjectId × Region) : Json := .array [e.1.toJson, .text e.2.name]
  .record [("entries", .list entry s.entries), ("roots", .list ObjectId.toJson s.roots)]

end HeapImage
