import HeapImage.Proofs.SnapshotNodes
import HeapImage.Proofs.Staging
import Mathlib.Data.Set.Function

/-! # Graphs of the same shape

Which positions the objects of a graph have does not matter to a walk from its roots: objects that
are named anew are found in the same order, with the same values.

* `ObjectGraph.Reaches`: what can be reached from the roots.
* `SourceObject.rename`: an object that refers to other positions.
* `ObjectGraph.Isomorphism`: the objects that can be reached, under other positions.
* `Snapshot.ofGraph_of_isomorphism`: isomorphic graphs have the same snapshot. -/

namespace HeapImage

/-! ## Objects that can be reached -/

/-- The roots reach an object: it is one of them, or an object that they reach refers to it. -/
inductive ObjectGraph.Reaches (g : ObjectGraph) (roots : List ObjectId) : ObjectId → Prop where
  | root {id : ObjectId} (hid : id ∈ roots) : Reaches g roots id
  | referent {id target : ObjectId} {o : SourceObject} (hid : Reaches g roots id)
    (ho : g.get? id = some o) (htarget : target ∈ o.payload.referents) : Reaches g roots target

/-- What the roots reach passes the check if that is so for a set of objects that lists all roots
and is left by no reference. -/
theorem ObjectGraph.checked_of_closed {g : ObjectGraph} {r : TypeRegistry}
    {roots ids : List ObjectId} (hroots : ∀ id ∈ roots, id ∈ ids)
    (hclosed : ∀ id ∈ ids, (g.check r id).isOk = true ∧
      ∀ o ∈ g.get? id, ∀ target ∈ o.payload.referents, target ∈ ids) (id : ObjectId)
    (hid : g.Reaches roots id) : ∃ found, g.check r id = .ok found := by
  have hmem : id ∈ ids := by
    induction hid with
    | root hid => exact hroots _ hid
    | referent _ ho htarget ih => exact (hclosed _ ih).2 _ ho _ htarget
  have hok := (hclosed id hmem).1
  cases hcheck : g.check r id with
  | error e =>
    rw [hcheck] at hok
    cases hok
  | ok found => exact ⟨found, rfl⟩

namespace Snapshot

/-- The key of the root array or of an object that the roots reach. -/
def Reached (g : ObjectGraph) (roots : List ObjectId) (key : Nat) : Prop :=
  key = 0 ∨ ∃ id, g.Reaches roots id ∧ objectKey id = key

variable {g : ObjectGraph} {roots : List ObjectId} {key : Nat} {o : SourceObject} {id : ObjectId}

/-- A walk reaches an object exactly if the roots do. -/
theorem reached_objectKey : Reached g roots (objectKey id) ↔ g.Reaches roots id := by
  constructor
  · rintro (hkey | ⟨id', hid', hkey⟩)
    · exact absurd hkey (Nat.succ_ne_zero _)
    · rwa [← Placed.objectKey_inj hkey]
  · intro hid
    exact .inr ⟨id, hid, rfl⟩

/-- What a reached object refers to is reached. -/
theorem Reached.referent (hkey : Reached g roots key) (ho : object? g roots key = some o)
    (hid : .reference (some id) ∈ o.payload.values) : g.Reaches roots id := by
  rcases hkey with rfl | ⟨source, hsource, rfl⟩
  · rw [object?_zero] at ho
    obtain rfl := Option.some.inj ho
    rw [rootObject, Payload.values, List.map_map, List.mem_map] at hid
    obtain ⟨root, hroot, heq⟩ := hid
    cases heq
    exact .root hroot
  · rw [object?_objectKey] at ho
    exact .referent hsource ho (Payload.mem_referents.mpr hid)

/-- Reached objects exist and fit their types, if those pass the check that the roots reach. -/
theorem Reached.exists_object {r : TypeRegistry}
    (hchecked : ∀ id, g.Reaches roots id → ∃ found, g.check r id = .ok found)
    (hkey : Reached g roots key) :
    ∃ o type, object? g roots key = some o ∧ r.get? o.typeIndex = some type ∧ o.Fits type.kind := by
  rcases hkey with rfl | ⟨id, hid, rfl⟩
  · exact ⟨_, _, object?_zero, r.first, _, rfl⟩
  · obtain ⟨⟨o, type⟩, hcheck⟩ := hchecked id hid
    obtain ⟨ho, htype, hfits⟩ := ObjectGraph.of_check hcheck
    exact ⟨o, type, object?_objectKey.trans ho, htype, hfits⟩

/-- There is one key more than there are objects. -/
theorem Reached.lt (ho : object? g roots key = some o) (hkey : Reached g roots key) :
    key < g.size + 1 := by
  rcases hkey with rfl | ⟨id, -, rfl⟩
  · exact Nat.succ_pos _
  · rw [object?_objectKey] at ho
    obtain ⟨hlt, -⟩ := Array.getElem?_eq_some_iff.mp ho
    exact Nat.succ_lt_succ hlt

/-- Distinct keys below a bound are no more than the bound. -/
theorem length_le_of_lt {keys : List Nat} {bound : Nat} (hnodup : keys.Nodup)
    (hlt : ∀ key ∈ keys, key < bound) : keys.length ≤ bound := by
  have hsub : keys ⊆ List.range bound := fun key hkey => List.mem_range.mpr (hlt key hkey)
  have hle := (List.subperm_of_subset hnodup hsub).length_le
  rwa [List.length_range] at hle

/-- No more keys can be found than there are objects and the root array. -/
theorem length_le_of_reached
    (hobject : ∀ key, Reached g roots key → ∃ o, object? g roots key = some o) {keys : List Nat}
    (hnodup : keys.Nodup) (hkeys : ∀ key ∈ keys, Reached g roots key) :
    keys.length ≤ g.size + 1 := by
  apply length_le_of_lt hnodup
  intro key hkey
  obtain ⟨o, ho⟩ := hobject key (hkeys key hkey)
  exact Reached.lt ho (hkeys key hkey)

end Snapshot

/-! ## Other positions -/

section

variable (f : ObjectId → ObjectId)

/-- The value with the referent at another position; null stays null. -/
def FieldValue.rename : FieldValue → FieldValue
  | .scalar x => .scalar x
  | .reference target => .reference (target.map f)
  | .native x => .native x

/-- The payload with all referents at other positions. -/
def Payload.rename : Payload → Payload
  | .fields values => .fields (values.map (FieldValue.rename f))
  | .scalars values => .scalars values
  | .references targets => .references (targets.map (Option.map f))

/-- An object of the same type with the same mark, whose referents are at other positions. -/
def SourceObject.rename (o : SourceObject) : SourceObject :=
  { o with payload := o.payload.rename f }

/-- The values of a renamed payload. -/
theorem Payload.values_rename (p : Payload) :
    (p.rename f).values = p.values.map (FieldValue.rename f) := by
  cases p with
  | fields values => rfl
  | scalars values =>
    rw [rename, Payload.values, List.map_map]
    rfl
  | references targets =>
    rw [rename, Payload.values, Payload.values, List.map_map, List.map_map]
    rfl

/-- The root array of roots at other positions. -/
theorem rootObject_map (roots : List ObjectId) :
    rootObject (roots.map f) = (rootObject roots).rename f := by
  rw [rootObject, rootObject, SourceObject.rename, Payload.rename, List.map_map, List.map_map]
  rfl

/-- A renamed value looks as the value does under the numbers before. -/
theorem FieldValue.view_rename (native : UInt64 → UInt64) (key : ObjectId → Nat) (v : FieldValue) :
    (v.rename f).view native key = v.view native (key ∘ f) := by
  cases v with
  | scalar _ => rfl
  | native _ => rfl
  | reference target => rw [rename, view, view, Option.map_map]

end

/-- Two graphs under root arrays are the same but for the positions of what the roots reach. -/
structure ObjectGraph.Isomorphism (g : ObjectGraph) (roots : List ObjectId) (g' : ObjectGraph)
    (roots' : List ObjectId) (f : ObjectId → ObjectId) : Prop where
  bijOn : Set.BijOn f {id | g.Reaches roots id} {id | g'.Reaches roots' id}
  map_roots : roots.map f = roots'
  object : ∀ id o, g.Reaches roots id → g.get? id = some o → g'.get? (f id) = some (o.rename f)

namespace Snapshot

/-- The key of the object in place of the one with a key. -/
def renameKey (f : ObjectId → ObjectId) (key : Nat) : Nat :=
  if key = 0 then 0 else objectKey (f (keyObject key))

variable {f : ObjectId → ObjectId} {g g' : ObjectGraph} {roots roots' : List ObjectId}

@[simp] theorem renameKey_zero : renameKey f 0 = 0 := rfl

@[simp] theorem renameKey_objectKey {id : ObjectId} :
    renameKey f (objectKey id) = objectKey (f id) := by
  have hne : objectKey id ≠ 0 := Nat.succ_ne_zero _
  rw [renameKey, if_neg hne, keyObject_objectKey]

section

variable (hiso : g.Isomorphism roots g' roots' f) {key key' : Nat}

include hiso

/-- Keys that are reached stay so under other numbers. -/
theorem reached_renameKey (hkey : Reached g roots key) :
    Reached g' roots' (renameKey f key) := by
  rcases hkey with rfl | ⟨id, hid, rfl⟩
  · exact .inl renameKey_zero
  · rw [renameKey_objectKey, reached_objectKey]
    exact hiso.bijOn.mapsTo hid

/-- Different keys that are reached get different numbers. -/
theorem renameKey_inj (hkey : Reached g roots key) (hkey' : Reached g roots key')
    (h : renameKey f key = renameKey f key') : key = key' := by
  rcases hkey with rfl | ⟨id, hid, rfl⟩
  · rcases hkey' with rfl | ⟨id', -, rfl⟩
    · rfl
    · rw [renameKey_zero, renameKey_objectKey] at h
      exact absurd h.symm (Nat.succ_ne_zero _)
  · rcases hkey' with rfl | ⟨id', hid', rfl⟩
    · rw [renameKey_zero, renameKey_objectKey] at h
      exact absurd h (Nat.succ_ne_zero _)
    · rw [renameKey_objectKey, renameKey_objectKey] at h
      rw [hiso.bijOn.injOn hid hid' (Placed.objectKey_inj h)]

/-- The object of a renamed key is the renamed object. -/
theorem object?_renameKey {o : SourceObject} (hkey : Reached g roots key)
    (ho : object? g roots key = some o) :
    object? g' roots' (renameKey f key) = some (o.rename f) := by
  rcases hkey with rfl | ⟨id, hid, rfl⟩
  · rw [object?_zero] at ho
    obtain rfl := Option.some.inj ho
    rw [renameKey_zero, object?_zero, ← hiso.map_roots, rootObject_map]
  · rw [object?_objectKey] at ho
    rw [renameKey_objectKey, object?_objectKey]
    exact hiso.object id o hid ho

variable {r : TypeRegistry}
  (hchecked : ∀ id, g.Reaches roots id → ∃ found, g.check r id = .ok found)

include hchecked

/-- No more keys can be found than either graph has objects, with the root array. -/
theorem length_le_min_of_reached {keys : List Nat} (hnodup : keys.Nodup)
    (hkeys : ∀ key ∈ keys, Reached g roots key) :
    keys.length ≤ min (g.size + 1) (g'.size + 1) := by
  have hobject : ∀ key, Reached g roots key → ∃ o, object? g roots key = some o := by
    intro key hkey
    obtain ⟨o, -, ho, -⟩ := hkey.exists_object hchecked
    exact ⟨o, ho⟩
  -- Renamed keys are as many, and they are those of objects of the other graph.
  have hle' : (keys.map (renameKey f)).length ≤ g'.size + 1 := by
    apply length_le_of_lt
    · exact hnodup.map_on fun a ha b hb => renameKey_inj hiso (hkeys a ha) (hkeys b hb)
    · intro key' hkey'
      obtain ⟨key, hkey, rfl⟩ := List.mem_map.mp hkey'
      obtain ⟨o, ho⟩ := hobject key (hkeys key hkey)
      exact Reached.lt (object?_renameKey hiso (hkeys key hkey) ho)
        (reached_renameKey hiso (hkeys key hkey))
  rw [List.length_map] at hle'
  exact Nat.le_min.mpr ⟨length_le_of_reached hobject hnodup hkeys, hle'⟩

/-- Reading an object in both graphs gives the same node. -/
theorem renames_readObject (native : UInt64 → UInt64) (hkey : Reached g roots key)
    {n n' : Numbering} (hn : n.Renames (renameKey f) (Reached g roots) n') :
    ∃ node m m', readObject g r roots native key n = .ok (node, m) ∧
      readObject g' r roots' native (renameKey f key) n' = .ok (node, m') ∧
      m.Renames (renameKey f) (Reached g roots) m' ∧ n.keys.size ≤ m.keys.size := by
  obtain ⟨o, type, ho, htype, -⟩ := hkey.exists_object hchecked
  have hkeys : ∀ id, .reference (some id) ∈ o.payload.values →
      Reached g roots (objectKey id) ∧ (objectKey ∘ f) id = renameKey f (objectKey id) :=
    fun id hid => ⟨reached_objectKey.mpr (hkey.referent ho hid), renameKey_objectKey.symm⟩
  obtain ⟨values, m, m', hvalues, hvalues', hm, hle⟩ :=
    renames_numberValue native (fun _ _ ha hb => renameKey_inj hiso ha hb) hkeys #[] hn
  have hview : (o.rename f).payload.values.map (FieldValue.view native objectKey) =
      o.payload.values.map (FieldValue.view native (objectKey ∘ f)) := by
    rw [SourceObject.rename, Payload.values_rename, List.map_map]
    exact List.map_congr_left fun v _ => v.view_rename f native objectKey
  refine ⟨⟨o.typeIndex, o.mark, values⟩, m, m', ?_, ?_, hm, hle⟩
  · rw [readObject_of_object? ho htype, hvalues]
  · rw [readObject_of_object? (object?_renameKey hiso hkey ho) htype, hview, hvalues']
    rfl

/-- **Isomorphic graphs have the same snapshot**, if what the roots reach passes the check. -/
theorem ofGraph_of_isomorphism (native : UInt64 → UInt64) :
    ∃ s, ofGraph g r roots native = .ok s ∧ ofGraph g' r roots' native = .ok s := by
  obtain ⟨nodes, hgraph, hgraph'⟩ : ∃ nodes,
      explore (readObject g r roots native) (g.size + 2) (.start 0) #[] = .ok nodes ∧
      explore (readObject g' r roots' native) (g'.size + 2) (.start (renameKey f 0)) #[] =
        .ok nodes := by
    apply explore_renames (renameKey f) (Reached g roots)
      fun keys hnodup hkeys => length_le_min_of_reached hiso hchecked hnodup hkeys
    case hread => exact fun key n n' hkey hn => renames_readObject hiso hchecked native hkey hn
    case h => exact Numbering.renames_start (.inl rfl)
    case hnodes => exact Nat.zero_le _
    case hfuel => exact Nat.lt_of_le_of_lt (Nat.min_le_left ..) (Nat.lt_succ_self _)
    case hfuel' => exact Nat.lt_of_le_of_lt (Nat.min_le_right ..) (Nat.lt_succ_self _)
  rw [renameKey_zero] at hgraph'
  refine ⟨⟨nodes⟩, ?_, ?_⟩
  · rw [ofGraph, hgraph]
    rfl
  · rw [ofGraph, hgraph']
    rfl

end

end Snapshot

end HeapImage
