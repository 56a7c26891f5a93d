import HeapImage.Types.Registry

/-!
# Type tables

A type table is the stored form of a type registry: the number of types, then for each type the
length of its name, the name in UTF-8, a tag and what the tag calls for. Numbers have four bytes.
The root array is stored like any other type and has to come first.

* `TypeTable.encode`, `TypeTable.decode`: writing a registry, reading one and the bytes after it.
* `TypeTable.encodedLength`: the number of bytes of a table, known before it is written.
* `TypeTableError`: the ways in which bytes are no type table.
-/

namespace HeapImage

/-- Why bytes are no type table. -/
inductive TypeTableError where
  | truncated
  | nameNotText
  | unknownFieldKind
  | unknownTypeKind
  | noRootArray
  | rejected (rejection : TypeRejection)
  deriving DecidableEq, Repr

/-- The wording of an error. -/
def TypeTableError.message : TypeTableError → String
  | truncated => "failed to fill whole buffer"
  | nameNotText => "type name is not UTF-8"
  | unknownFieldKind => "unknown field kind"
  | unknownTypeKind => "unknown type kind"
  | noRootArray => "type table does not start with the root array"
  | rejected e => e.message

namespace TypeTable

/-- Bytes of a number in a type table. -/
def numberSize : Nat := 4

/-! ### Writing -/

/-- The tag of a kind and what follows it. -/
def encodeKind : TypeKind → List UInt8
  | .record fields => 0 :: (Bytes.ofNat numberSize fields.length ++ fields.map FieldKind.tag)
  | .scalarArray n => [1, UInt8.ofNat n]
  | .referenceArray => [2]

/-- A name in UTF-8 behind its length. -/
def encodeName (name : String) : List UInt8 :=
  let text := Bytes.toList name.toUTF8
  Bytes.ofNat numberSize text.length ++ text

/-- One entry of a type table. -/
def encodeInfo (t : TypeInfo) : List UInt8 := encodeName t.name ++ encodeKind t.kind

/-- The stored form of a registry. -/
def encode (r : TypeRegistry) : List UInt8 :=
  Bytes.ofNat numberSize r.size ++ r.types.toList.flatMap encodeInfo

/-! ### Length -/

/-- Bytes of the tag of a kind and of what follows it. -/
def kindLength : TypeKind → Nat
  | .record fields => 1 + numberSize + fields.length
  | .scalarArray _ => 2
  | .referenceArray => 1

/-- Bytes of one entry. -/
def infoLength (t : TypeInfo) : Nat := numberSize + t.name.utf8ByteSize + kindLength t.kind

/-- Bytes of the stored form of a registry. -/
def encodedLength (r : TypeRegistry) : Nat :=
  r.types.foldl (fun n t => n + infoLength t) numberSize

/-- The length of an encoded kind. -/
@[simp] theorem length_encodeKind (k : TypeKind) : (encodeKind k).length = kindLength k := by
  cases k with
  | record fields =>
    simp only [encodeKind, kindLength, List.length_cons, List.length_append, Bytes.length_ofNat,
      List.length_map]
    omega
  | scalarArray n => rfl
  | referenceArray => rfl

/-- The length of an encoded name: its own bytes behind their number. -/
@[simp] theorem length_encodeName (name : String) :
    (encodeName name).length = numberSize + name.utf8ByteSize := by
  rw [encodeName, List.length_append, Bytes.length_ofNat]
  rfl

/-- The length of an encoded type. -/
@[simp] theorem length_encodeInfo (t : TypeInfo) : (encodeInfo t).length = infoLength t := by
  simp [encodeInfo, infoLength]

/-- A table has as many bytes as are counted. -/
theorem length_encode (r : TypeRegistry) : (encode r).length = encodedLength r := by
  have hentries : ∀ (ts : List TypeInfo) (n : Nat),
      ts.foldl (fun n t => n + infoLength t) n = n + (ts.flatMap encodeInfo).length := by
    intro ts
    induction ts with
    | nil => exact fun _ => rfl
    | cons t ts ih => simp [ih, Nat.add_assoc]
  rw [encodedLength, ← Array.foldl_toList, hentries]
  simp [encode]

/-! ### Reading -/

/-- Reads a number. -/
def decodeNumber (bs : List UInt8) : Except TypeTableError (Nat × List UInt8) :=
  match Bytes.takeNat? numberSize bs with
  | some r => .ok r
  | none => .error .truncated

/-- Reads the bytes of a name behind their length. -/
def decodeName (bs : List UInt8) : Except TypeTableError (String × List UInt8) := do
  let (length, bs) ← decodeNumber bs
  match Bytes.take? length bs with
  | none => .error .truncated
  | some (text, rest) =>
    match String.fromUTF8? (Bytes.ofList text) with
    | none => .error .nameNotText
    | some name => .ok (name, rest)

/-- Reads `n` field tags. -/
def decodeFields : (n : Nat) → List UInt8 → Except TypeTableError (List FieldKind × List UInt8)
  | 0, bs => .ok ([], bs)
  | _ + 1, [] => .error .truncated
  | n + 1, t :: bs =>
    match FieldKind.ofTag? t with
    | none => .error .unknownFieldKind
    | some k => do
      let (ks, rest) ← decodeFields n bs
      .ok (k :: ks, rest)

/-- Reads the tag of a kind and what follows it. -/
def decodeKind : List UInt8 → Except TypeTableError (TypeKind × List UInt8)
  | [] => .error .truncated
  | t :: bs =>
    if t = 0 then do
      let (n, bs) ← decodeNumber bs
      let (fields, rest) ← decodeFields n bs
      .ok (.record fields, rest)
    else if t = 1 then
      match bs with
      | [] => .error .truncated
      | n :: rest => .ok (.scalarArray n.toNat, rest)
    else if t = 2 then .ok (.referenceArray, bs)
    else .error .unknownTypeKind

/-- Reads one entry. -/
def decodeInfo (bs : List UInt8) : Except TypeTableError (TypeInfo × List UInt8) := do
  let (name, bs) ← decodeName bs
  let (kind, rest) ← decodeKind bs
  .ok (⟨name, kind⟩, rest)

/-- Reads `n` entries. -/
def decodeInfos : (n : Nat) → List UInt8 → Except TypeTableError (List TypeInfo × List UInt8)
  | 0, bs => .ok ([], bs)
  | n + 1, bs => do
    let (t, bs) ← decodeInfo bs
    let (ts, rest) ← decodeInfos n bs
    .ok (t :: ts, rest)

/-- The registry that the entries of a table stand for. -/
def registryOf : List TypeInfo → Except TypeTableError TypeRegistry
  | [] => .error .noRootArray
  | t :: ts =>
    if t = .rootArray then
      match TypeRegistry.ofList? ts with
      | .ok r => .ok r
      | .error e => .error (.rejected e)
    else .error .noRootArray

/-- Reads a registry from the front of some bytes. -/
def decode (bs : List UInt8) : Except TypeTableError (TypeRegistry × List UInt8) := do
  let (n, bs) ← decodeNumber bs
  let (ts, rest) ← decodeInfos n bs
  let r ← registryOf ts
  .ok (r, rest)

end TypeTable

end HeapImage
