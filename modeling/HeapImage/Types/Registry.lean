import HeapImage.Types.Layout

/-!
# Type registries

A registry numbers the types of a heap. Type zero is the root array, which every archive carries;
names are distinct and scalar elements have 1, 2, 4 or 8 bytes. A registry only grows by
`TypeRegistry.add?`, so the rules hold of every registry.

* `TypeRegistry.add?`, `TypeRegistry.ofList?`: building, refused by a `TypeRejection`.
* `TypeRegistry.get?`, `TypeRegistry.lookup?`: a type by its index, an index by its name.
-/

namespace HeapImage

/-- A named type. -/
structure TypeInfo where
  /-- The name, used in messages. -/
  name : String
  /-- What objects of the type are made of. -/
  kind : TypeKind
  deriving DecidableEq, Repr

/-- Why a type cannot be registered. -/
inductive TypeFault where
  | unsupportedElementSize (size : Nat)
  | duplicateName
  deriving DecidableEq, Repr

/-- The wording of a fault. -/
def TypeFault.message : TypeFault → String
  | .unsupportedElementSize n => "unsupported element size " ++ toString n
  | .duplicateName => "duplicate type name"

/-- A type that cannot be registered. -/
structure TypeRejection where
  /-- The type's name. -/
  name : String
  /-- What is wrong with it. -/
  fault : TypeFault
  deriving DecidableEq, Repr

/-- The wording of a rejection. -/
def TypeRejection.message (e : TypeRejection) : String :=
  "Invalid type " ++ e.name ++ ": " ++ e.fault.message

/-- The element sizes a scalar array may have. -/
def TypeKind.supportedElementSizes : List Nat := [1, 2, 4, 8]

/-- What keeps a kind from being stored: elements of a scalar array need a supported size. -/
def TypeKind.fault? : TypeKind → Option TypeFault
  | .scalarArray n => if n ∈ supportedElementSizes then none else some (.unsupportedElementSize n)
  | _ => none

/-- The array of roots, the type with index zero. -/
def TypeInfo.rootArray : TypeInfo := ⟨"RootArray", .referenceArray⟩

/-- A numbering of types. -/
structure TypeRegistry where
  /-- The types in the order of their indices. -/
  types : Array TypeInfo
  first : types[0]? = some .rootArray
  supported : ∀ t ∈ types, t.kind.fault? = none
  distinct : (types.toList.map TypeInfo.name).Nodup

namespace TypeRegistry

/-- The registry that holds only the root array. -/
def rootOnly : TypeRegistry where
  types := #[.rootArray]
  first := rfl
  supported := by simp [TypeInfo.rootArray, TypeKind.fault?]
  distinct := by simp

instance : Inhabited TypeRegistry := ⟨rootOnly⟩

/-- The index of the root array. -/
def rootIndex : TypeIndex := 0

/-- Number of types. -/
def size (r : TypeRegistry) : Nat := r.types.size

/-- The type with an index. -/
def get? (r : TypeRegistry) (i : TypeIndex) : Option TypeInfo := r.types[i.toNat]?

/-- The index of the type with a name. -/
def lookup? (r : TypeRegistry) (name : String) : Option TypeIndex :=
  (r.types.findIdx? fun t => t.name == name).map UInt32.ofNat

/-- Some type has this name. -/
def hasName (r : TypeRegistry) (name : String) : Bool := r.types.any fun t => t.name == name

/-- A registry does not have a name exactly if none of its types is called so. -/
theorem hasName_eq_false_iff (r : TypeRegistry) (name : String) :
    r.hasName name = false ↔ name ∉ r.types.toList.map TypeInfo.name := by
  rw [Bool.eq_false_iff, ne_eq, hasName, Array.any_eq_true', List.mem_map]
  simp

/-- A type that is added comes behind the root array. -/
theorem first_push {types : Array TypeInfo} (h : types[0]? = some .rootArray) (t : TypeInfo) :
    (types.push t)[0]? = some .rootArray := by
  have h0 : types.size ≠ 0 := by
    intro h0
    rw [Array.getElem?_eq_none (by omega)] at h
    cases h
  rw [Array.getElem?_push, if_neg (Ne.symm h0)]
  exact h

/-- Adding a type with a new name keeps the names distinct. -/
theorem distinct_push {types : Array TypeInfo} (h : (types.toList.map TypeInfo.name).Nodup)
    {t : TypeInfo} (ht : t.name ∉ types.toList.map TypeInfo.name) :
    ((types.push t).toList.map TypeInfo.name).Nodup := by
  simp only [Array.toList_push, List.map_append, List.map_cons, List.map_nil]
  refine List.nodup_append.mpr ⟨h, by simp, fun a ha b hb e => ht ?_⟩
  rw [List.mem_singleton] at hb
  rwa [← hb, ← e]

/-- Registers a type under the next index. -/
def add? (r : TypeRegistry) (t : TypeInfo) : Except TypeRejection TypeRegistry :=
  match hs : t.kind.fault? with
  | some fault => .error ⟨t.name, fault⟩
  | none =>
    if hn : r.hasName t.name = false then
      .ok {
        types := r.types.push t
        first := first_push r.first t
        supported := fun u hu => (Array.mem_push.mp hu).elim (r.supported u) fun e => e ▸ hs
        distinct := distinct_push r.distinct ((r.hasName_eq_false_iff _).mp hn) }
    else .error ⟨t.name, .duplicateName⟩

/-- The registry with the given types after the root array, numbered from one on. -/
def ofList? (ts : List TypeInfo) : Except TypeRejection TypeRegistry := ts.foldlM add? rootOnly

end TypeRegistry

end HeapImage
