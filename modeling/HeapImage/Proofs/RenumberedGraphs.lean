import HeapImage.Proofs.GraphIsomorphism
import Mathlib.Logic.Equiv.Defs

/-! # Graphs under other numbers

The number of an object is its position in the graph. Objects can be given other numbers if
references, selections and roots follow them. What staging decides about an object does not change
with its number, and neither do the object's bytes; only a failure names the object by the new one.

* `ArchiveError.rename`, `Selection.rename`: failures and selections with other numbers.
* `ObjectGraph.renumber`, `ObjectGraph.get?_renumber`: a graph whose numbers are permuted.
* `ObjectGraph.CarriesOver`: an object is found under its other number in another graph.
* `SourceObject.toBytes_rename`, `StagingBuffer.referencesOf_rename`: bytes and references.
* `ObjectGraph.CarriesOver.resolve`, `ObjectGraph.CarriesOver.check`: the checks of an object. -/

namespace HeapImage

variable (f : ObjectId → ObjectId)

/-! ## Failures and selections -/

/-- The fault with other numbers of objects. -/
def GraphFault.rename : GraphFault → GraphFault
  | .noObject id => .noObject (f id)
  | .noField id field => .noField (f id) field
  | .oversizedElement id value size => .oversizedElement (f id) value size
  | .kindMismatch id typeName => .kindMismatch (f id) typeName
  | .selectedTwice id => .selectedTwice (f id)
  | .tooLong id => .tooLong (f id)
  | .unarchivedRoot id => .unarchivedRoot (f id)
  | .tooManyRoots => .tooManyRoots
  | .danglingIdentity value offset => .danglingIdentity value offset
  | .missingHeader offset => .missingHeader offset

/-- The same cause with other numbers of objects; most causes name none. -/
def ArchiveError.rename : ArchiveError → ArchiveError
  | .objectTooLarge object size alignment => .objectTooLarge (f object) size alignment
  | .graph fault => .graph (fault.rename f)
  | .unarchivedReferent referrer referent => .unarchivedReferent (f referrer) (f referent)
  | e => e

/-- The same choice of objects and roots under other numbers. -/
def Selection.rename (s : Selection) : Selection where
  entries := s.entries.map fun (id, region) => (f id, region)
  roots := s.roots.map f

/-! ## Numbers as they are -/

/-- A value under the same numbers is the same. -/
theorem FieldValue.rename_id (v : FieldValue) : v.rename id = v := by
  cases v with
  | scalar _ => rfl
  | native _ => rfl
  | reference target => rw [rename, Option.map_id_fun, id]

/-- A payload under the same numbers is the same. -/
theorem Payload.rename_id (p : Payload) : p.rename id = p := by
  cases p with
  | fields values => rw [rename, List.map_congr_left fun v _ => v.rename_id, List.map_id']
  | scalars _ => rfl
  | references targets => rw [rename, Option.map_id_fun, List.map_id]

/-- An object under the same numbers is the same. -/
theorem SourceObject.rename_id (o : SourceObject) : o.rename id = o := by
  rw [rename, Payload.rename_id]

/-- An error under the same numbers is the same. -/
theorem ArchiveError.rename_id (e : ArchiveError) : e.rename id = e := by
  cases e with
  | graph fault => cases fault <;> rfl
  | _ => rfl

/-- A selection under the same numbers is the same. -/
theorem Selection.rename_id (s : Selection) : s.rename id = s := by
  rw [rename, List.map_id]
  exact congrArg (Selection.mk · s.roots) (List.map_id _)

/-! ## Objects -/

variable {f}

/-- Other numbers keep the kind of a value. -/
theorem FieldValue.kind_rename (v : FieldValue) : (v.rename f).kind = v.kind := by
  cases v <;> rfl

/-- Other numbers keep the length of a payload. -/
theorem Payload.length_rename (p : Payload) : (p.rename f).length = p.length := by
  cases p with
  | fields _ => exact List.length_map ..
  | scalars _ => rfl
  | references _ => exact List.length_map ..

/-- Writing a record leaves its references null, whatever they refer to. -/
theorem SourceObject.writeFields_rename (b : ByteArray) (values : List FieldValue)
    (offsets : List Nat) :
    writeFields b (values.map (FieldValue.rename f)) offsets = writeFields b values offsets := by
  rw [writeFields, writeFields, List.zip_map_left, List.foldl_map]
  congr 1
  funext b p
  obtain ⟨_ | _ | _, offset⟩ := p <;> rfl

/-- The payload of a renamed object is renamed. -/
theorem SourceObject.payload_rename (o : SourceObject) :
    (o.rename f).payload = o.payload.rename f :=
  rfl

/-- **An object's bytes do not show any number.** -/
theorem SourceObject.toBytes_rename (o : SourceObject) (kind : TypeKind) (length : UInt32)
    (slot : Nat) : (o.rename f).toBytes kind length slot = o.toBytes kind length slot := by
  obtain ⟨typeIndex, mark, payload⟩ := o
  rw [rename, toBytes.eq_def, toBytes.eq_def]
  cases payload with
  | fields values =>
    cases kind <;> simp only [Payload.rename, writeFields_rename]
  | scalars _ => rfl
  | references _ => cases kind <;> rfl

/-- A renamed value refers to the renamed object. -/
theorem StagingBuffer.referenceOf_rename (v : FieldValue) :
    referenceOf (v.rename f) = (referenceOf v).map f := by
  cases v <;> rfl

/-- References stand where they stood, and refer to the new numbers. -/
theorem StagingBuffer.referencesOf_rename (o : SourceObject) (type : TypeInfo) (slot : Nat) :
    referencesOf (o.rename f) type slot =
      (referencesOf o type slot).map (Prod.map id (Option.map f)) := by
  obtain ⟨typeIndex, mark, payload⟩ := o
  rw [SourceObject.rename, referencesOf.eq_def, referencesOf.eq_def]
  cases payload with
  | fields values =>
    simp only [Payload.rename]
    split
    · rw [List.map_map, ← List.zip_map_right, List.map_map]
      congr 2
      funext v
      exact referenceOf_rename v
    · rfl
  | scalars _ => rfl
  | references targets =>
    simp only [Payload.rename]
    rw [List.zipIdx_map, List.map_map, List.map_map]
    rfl

/-! ## Graphs -/

namespace ObjectGraph

/-- A payload fits a type under any numbers, or it fits it under none. -/
theorem checkPayload_rename (id : ObjectId) (p : Payload) (type : TypeInfo) :
    checkPayload (f id) (p.rename f) type = (checkPayload id p type).mapError (.rename f) := by
  have hkinds (values : List FieldValue) :
      (values.map (FieldValue.rename f)).map FieldValue.kind = values.map FieldValue.kind := by
    rw [List.map_map]
    exact List.map_congr_left fun v _ => v.kind_rename
  rw [checkPayload.eq_def, checkPayload.eq_def]
  cases type.kind with
  | record kinds =>
    cases p with
    | fields values =>
      simp only [Payload.rename, hkinds]
      split <;> rfl
    | scalars _ => rfl
    | references _ => rfl
  | scalarArray size =>
    cases p with
    | fields _ => rfl
    | scalars values =>
      simp only [Payload.rename]
      split <;> rfl
    | references _ => rfl
  | referenceArray => cases p <;> rfl

/-- The payload is checked behind the lookups. -/
theorem check_eq (g : ObjectGraph) (r : TypeRegistry) (id : ObjectId) : g.check r id =
    g.resolve r id >>= fun (o, type) =>
      (checkPayload id o.payload type).mapError ArchiveError.graph >>= fun _ => pure (o, type) := by
  rw [check]
  congr 1
  funext found
  cases h : checkPayload id found.1.payload found.2 <;> simp only [h] <;> rfl

/-- What one graph has under a number, the other one has under the renamed number, or both have
nothing there. -/
def CarriesOver (f : ObjectId → ObjectId) (g g' : ObjectGraph) (id : ObjectId) : Prop :=
  g'.get? (f id) = (g.get? id).map (SourceObject.rename f)

namespace CarriesOver

variable {g g' : ObjectGraph} {id : ObjectId} (h : CarriesOver f g g' id) (r : TypeRegistry)

include h

/-- Resolving finds the object under its other number, and the same type. -/
theorem resolve : g'.resolve r (f id) =
    ((g.resolve r id).map (Prod.map (SourceObject.rename f) fun type => type)).mapError
      (.rename f) := by
  rw [ObjectGraph.resolve, ObjectGraph.resolve, h]
  cases g.get? id with
  | none => rfl
  | some o =>
    dsimp only [Option.map_some, SourceObject.rename]
    rw [TypeRegistry.require]
    cases r.get? o.typeIndex <;> rfl

/-- **A check decides the same** about an object under its other number. -/
theorem check : g'.check r (f id) =
    ((g.check r id).map (Prod.map (SourceObject.rename f) fun type => type)).mapError
      (.rename f) := by
  rw [check_eq, check_eq, h.resolve]
  cases g.resolve r id with
  | error e => rfl
  | ok found =>
    obtain ⟨o, type⟩ := found
    change ((checkPayload (f id) (o.payload.rename f) type).mapError ArchiveError.graph >>=
      fun _ => pure (o.rename f, type)) = Except.mapError _ (Except.map _
        ((checkPayload id o.payload type).mapError ArchiveError.graph >>= fun _ => pure (o, type)))
    rw [checkPayload_rename]
    cases checkPayload id o.payload type <;> rfl

end CarriesOver

/-- The graph with its objects under permuted numbers. A place for which the permutation has no
object of the graph keeps the one that is there. -/
def renumber (g : ObjectGraph) (π : Equiv.Perm ObjectId) : ObjectGraph where
  objects := g.objects.mapIdx fun i o =>
    ((g.get? (π.symm ⟨UInt32.ofNat i⟩)).getD o).rename π

/-- **Every object is found under its new number** if the numbers of the graph are permuted among
themselves. -/
theorem get?_renumber {g : ObjectGraph} {π : Equiv.Perm ObjectId}
    (hπ : ∀ id, (π id).key < g.size ↔ id.key < g.size) (id : ObjectId) :
    CarriesOver π g (g.renumber π) id := by
  -- The place that `π` gives to an object is filled with that object.
  have hback : π.symm ⟨UInt32.ofNat (π id).key⟩ = id := by
    rw [ObjectId.key, UInt32.ofNat_toNat]
    exact π.symm_apply_apply id
  rw [CarriesOver, get?, renumber, Array.getElem?_mapIdx]
  by_cases hid : id.key < g.size
  · have hget : g.get? id = some g.objects[id.key] := Array.getElem?_eq_getElem hid
    rw [Array.getElem?_eq_getElem ((hπ id).mpr hid), Option.map_some, hback, hget, Option.getD_some,
      Option.map_some]
  · have hnew : ¬ (π id).key < g.size := mt (hπ id).mp hid
    have hget : g.get? id = none := Array.getElem?_eq_none (Nat.le_of_not_lt hid)
    rw [Array.getElem?_eq_none (Nat.le_of_not_lt hnew), hget, Option.map_none, Option.map_none]

/-- Objects that are added leave all numbers alone but their own. -/
theorem get?_foldl_add {g : ObjectGraph} {more : List SourceObject} {id : ObjectId}
    (hid : ¬ (g.size ≤ id.key ∧ id.key < g.size + more.length)) :
    (more.foldl add g).get? id = g.get? id := by
  induction more generalizing g with
  | nil => rfl
  | cons o more ih =>
    have hsize : (g.add o).size = g.size + 1 := Array.size_push ..
    rw [List.length_cons] at hid
    rw [List.foldl_cons, ih, get?, add, Array.getElem?_push, if_neg]
    · rfl
    · change id.key ≠ g.size
      omega
    · rw [hsize]
      omega

end ObjectGraph

end HeapImage
