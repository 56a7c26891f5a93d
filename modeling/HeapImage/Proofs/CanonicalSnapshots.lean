import HeapImage.Proofs.GraphIsomorphism
import HeapImage.Proofs.ImageLayout
import Mathlib.Data.List.Basic

/-! # Snapshots are canonical

A snapshot shows the shape of what the roots reach, and all of it: two graphs have the same snapshot
exactly if they are the same but for the positions of their objects.

* `SourceObject.node`: an object by the numbers of its referents.
* `Numbering.Adds`: a numbering after the referents among some values have been numbered.
* `Snapshot.Reads`: a walk that has read the first of the objects it found.
* `Numbering.translate`: the position which has the same number in another walk.
* `Snapshot.ofGraph_eq_iff_isomorphic`: equal snapshots are those of isomorphic graphs. -/

namespace HeapImage

/-- What a snapshot shows of a field, given what numbers the referents. -/
def FieldValue.snapshot (native : UInt64 → UInt64) (number : ObjectId → Nat) :
    FieldValue → SnapshotValue
  | .scalar x => .scalar x
  | .native x => .native (native x)
  | .reference target => .reference (target.map number)

/-- What a snapshot shows of an object, given what numbers the referents. -/
def SourceObject.node (native : UInt64 → UInt64) (number : ObjectId → Nat) (o : SourceObject) :
    SnapshotNode where
  typeIndex := o.typeIndex
  mark := o.mark
  values := (o.payload.values.map (FieldValue.snapshot native number)).toArray

/-! ## Numbering the values of an object -/

namespace Numbering

open Snapshot

/-- The number of an object that has been found. -/
def numberOf (n : Numbering) (id : ObjectId) : Nat := n.keys.toList.idxOf (objectKey id)

/-- A numbering after the referents among some values have been numbered. -/
structure Adds (n : Numbering) (vs : List FieldValue) (m : Numbering) : Prop where
  sound : m.Sound
  keeps : n.keys.toList <+: m.keys.toList
  found : ∀ id, .reference (some id) ∈ vs → objectKey id ∈ m.keys.toList
  only : ∀ key ∈ m.keys.toList,
    key ∈ n.keys.toList ∨ ∃ id, .reference (some id) ∈ vs ∧ objectKey id = key

variable {n m m' : Numbering} {v : FieldValue} {vs : List FieldValue} {key : Nat} {id : ObjectId}

/-- Numbers do not change when more keys are found. -/
theorem numberOf_of_keeps (h : n.keys.toList <+: m.keys.toList)
    (hid : objectKey id ∈ n.keys.toList) : m.numberOf id = n.numberOf id :=
  (h.idxOf_eq_of_mem hid).symm

/-- Numbering no values adds nothing. -/
theorem adds_nil (h : n.Sound) : n.Adds [] n where
  sound := h
  keeps := List.prefix_rfl
  found _ hid := absurd hid List.not_mem_nil
  only _ hkey := .inl hkey

/-- Values that refer to nothing add no key. -/
theorem Adds.skip (hv : ∀ id, v ≠ .reference (some id)) (h : n.Adds vs m) :
    n.Adds (v :: vs) m where
  sound := h.sound
  keeps := h.keeps
  found id hid := by
    rcases List.mem_cons.mp hid with heq | hid
    · exact absurd heq.symm (hv id)
    · exact h.found id hid
  only key hkey := by
    rcases h.only key hkey with hold | ⟨id, hid, heq⟩
    · exact .inl hold
    · exact .inr ⟨id, List.mem_cons_of_mem _ hid, heq⟩

/-- The number of a key after it has been numbered. -/
theorem Sound.number_spec (h : n.Sound) (key : Nat) :
    (n.number key).2.Sound ∧ n.keys.toList <+: (n.number key).2.keys.toList ∧
      key ∈ (n.number key).2.keys.toList ∧
      (∀ a ∈ (n.number key).2.keys.toList, a ∈ n.keys.toList ∨ a = key) ∧
      (n.number key).1 = (n.number key).2.keys.toList.idxOf key := by
  obtain ⟨hsound, hkeys, hindex⟩ := h.number key
  rw [hkeys, hindex]
  by_cases hmem : key ∈ n.keys.toList
  · rw [if_pos hmem]
    exact ⟨hsound, List.prefix_rfl, hmem, fun _ ha => .inl ha, rfl⟩
  · rw [if_neg hmem]
    refine ⟨hsound, List.prefix_append .., by simp, by simp, ?_⟩
    rw [List.idxOf_append_of_notMem hmem, List.idxOf_eq_length hmem, List.idxOf_cons_self,
      Nat.add_zero]

/-- A referent is numbered before those behind it. -/
theorem Adds.reference (h : n.Sound) (hm : (n.number (objectKey id)).2.Adds vs m) :
    n.Adds (.reference (some id) :: vs) m ∧ (n.number (objectKey id)).1 = m.numberOf id := by
  obtain ⟨-, hstart, hmem, honly, hnumber⟩ := h.number_spec (objectKey id)
  refine ⟨⟨hm.sound, hstart.trans hm.keeps, ?_, ?_⟩, ?_⟩
  · intro id' hid'
    rcases List.mem_cons.mp hid' with heq | hid'
    · cases heq
      exact hm.keeps.subset hmem
    · exact hm.found id' hid'
  · intro key hkey
    rcases hm.only key hkey with hold | ⟨id', hid', heq⟩
    · rcases honly key hold with hold | rfl
      · exact .inl hold
      · exact .inr ⟨id, List.mem_cons_self .., rfl⟩
    · exact .inr ⟨id', List.mem_cons_of_mem _ hid', heq⟩
  · rw [hnumber]
    exact hm.keeps.idxOf_eq_of_mem hmem

end Numbering

namespace Snapshot

open HeapImage.Numbering

/-- **Numbering the values of an object** gives what the snapshot shows of them. -/
theorem exists_adds (native : UInt64 → UInt64) {n : Numbering} (h : n.Sound)
    (vs : List FieldValue) (values : Array SnapshotValue) :
    ∃ m, n.Adds vs m ∧
      (vs.map (FieldValue.view native objectKey)).foldl numberValue (values, n) =
        (values ++ (vs.map (FieldValue.snapshot native m.numberOf)).toArray, m) := by
  induction vs generalizing n values with
  | nil => exact ⟨n, adds_nil h, by simp⟩
  | cons v vs ih =>
    rw [List.map_cons, List.foldl_cons]
    cases v with
    | scalar x =>
      obtain ⟨m, hm, hvalues⟩ := ih h (values.push (.scalar x))
      refine ⟨m, hm.skip (by simp), ?_⟩
      show List.foldl numberValue (values.push (.scalar x), n) _ = _
      rw [hvalues]
      simp [FieldValue.snapshot]
    | native x =>
      obtain ⟨m, hm, hvalues⟩ := ih h (values.push (.native (native x)))
      refine ⟨m, hm.skip (by simp), ?_⟩
      show List.foldl numberValue (values.push (.native (native x)), n) _ = _
      rw [hvalues]
      simp [FieldValue.snapshot]
    | reference target =>
      cases target with
      | none =>
        obtain ⟨m, hm, hvalues⟩ := ih h (values.push (.reference none))
        refine ⟨m, hm.skip (by simp), ?_⟩
        show List.foldl numberValue (values.push (.reference none), n) _ = _
        rw [hvalues]
        simp [FieldValue.snapshot]
      -- Only a reference adds a key, which keeps its number from then on.
      | some id =>
        obtain ⟨m, hm, hvalues⟩ := ih (h.number_spec (objectKey id)).1
          (values.push (.reference (some (n.number (objectKey id)).1)))
        obtain ⟨hadds, hnumber⟩ := hm.reference h
        refine ⟨m, hadds, ?_⟩
        show List.foldl numberValue (values.push (.reference (some (n.number (objectKey id)).1)),
          (n.number (objectKey id)).2) _ = _
        rw [hvalues, hnumber]
        simp [FieldValue.snapshot]

/-! ## Walks through a graph -/

/-- A walk that has read the first of the objects it found. -/
structure Reads (g : ObjectGraph) (roots : List ObjectId) (native : UInt64 → UInt64)
    (n : Numbering) (nodes : Array SnapshotNode) : Prop where
  sound : n.Sound
  root : n.keys.toList[0]? = some 0
  reached : ∀ key ∈ n.keys.toList, Reached g roots key
  size_le : nodes.size ≤ n.keys.size
  node : ∀ i key, i < nodes.size → n.keys.toList[i]? = some key → ∃ o,
    object? g roots key = some o ∧ nodes[i]? = some (o.node native n.numberOf) ∧
      ∀ id, .reference (some id) ∈ o.payload.values → objectKey id ∈ n.keys.toList

variable {g : ObjectGraph} {r : TypeRegistry} {roots : List ObjectId} {native : UInt64 → UInt64}

/-- A walk starts at the root array, with nothing read so far. -/
theorem reads_start : Reads g roots native (.start 0) #[] where
  sound := sound_start 0
  root := rfl
  reached _ hkey := .inl (List.mem_singleton.mp hkey)
  size_le := Nat.zero_le _
  node _ _ hi := absurd hi (Nat.not_lt_zero _)

/-- What has been read does not change when more keys are found. -/
theorem node_of_adds {n m : Numbering} {vs : List FieldValue} {o : SourceObject}
    (h : n.Adds vs m)
    (ho : ∀ id, .reference (some id) ∈ o.payload.values → objectKey id ∈ n.keys.toList) :
    o.node native m.numberOf = o.node native n.numberOf := by
  unfold SourceObject.node
  congr 2
  apply List.map_congr_left
  intro v hv
  cases v with
  | scalar _ => rfl
  | native _ => rfl
  | reference target =>
    cases target with
    | none => rfl
    | some id =>
      show SnapshotValue.reference (some (m.numberOf id)) = .reference (some (n.numberOf id))
      rw [numberOf_of_keeps h.keeps (ho id hv)]

/-- **One step of a walk** reads one object more. -/
theorem Reads.step {n : Numbering} {nodes : Array SnapshotNode} {key : Nat} {o : SourceObject}
    {type : TypeInfo} (h : Reads g roots native n nodes)
    (hkey : n.keys.toList[nodes.size]? = some key) (ho : object? g roots key = some o)
    (htype : r.get? o.typeIndex = some type) :
    ∃ node m, readObject g r roots native key n = .ok (node, m) ∧
      Reads g roots native m (nodes.push node) := by
  obtain ⟨m, hm, hvalues⟩ := exists_adds native h.sound o.payload.values #[]
  have hread : readObject g r roots native key n = .ok (o.node native m.numberOf, m) := by
    rw [readObject_of_object? ho htype, hvalues, Array.empty_append]
    rfl
  have hlt := (List.getElem?_eq_some_iff.mp hkey).1
  have hreached := h.reached key (List.mem_of_getElem? hkey)
  -- Keys that were found stay in their places.
  have hget : ∀ i, i < n.keys.toList.length → m.keys.toList[i]? = n.keys.toList[i]? := by
    intro i hi
    obtain ⟨rest, hrest⟩ := hm.keeps
    rw [← hrest, List.getElem?_append_left hi]
  refine ⟨_, m, hread, hm.sound, ?_, ?_, ?_, ?_⟩
  · rw [hget 0 (by omega), h.root]
  · intro key' hkey'
    rcases hm.only key' hkey' with hold | ⟨id, hid, rfl⟩
    · exact h.reached key' hold
    · exact reached_objectKey.mpr (hreached.referent ho hid)
  · have hle := hm.keeps.length_le
    rw [Array.length_toList, Array.length_toList] at hle
    rw [Array.length_toList] at hlt
    rw [Array.size_push]
    omega
  · intro i key' hi hkey'
    rw [Array.size_push] at hi
    rw [hget i (by omega)] at hkey'
    rcases Nat.lt_succ_iff_lt_or_eq.mp hi with hi | rfl
    · obtain ⟨o', ho', hnode, hfound⟩ := h.node i key' hi hkey'
      refine ⟨o', ho', ?_, fun id hid => hm.keeps.subset (hfound id hid)⟩
      rw [Array.getElem?_push_lt hi, node_of_adds hm hfound, ← hnode, Array.getElem?_eq_getElem hi]
    · rw [hkey] at hkey'
      obtain rfl := Option.some.inj hkey'
      exact ⟨o, ho, Array.getElem?_push_size, hm.found⟩

section

variable (hchecked : ∀ id, g.Reaches roots id → ∃ found, g.check r id = .ok found)

include hchecked

/-- **The snapshot of a graph** exists if what the roots reach passes the check, and it consists of
the nodes of all objects that the walk finds. -/
theorem exists_reads (native : UInt64 → UInt64) :
    ∃ n nodes, ofGraph g r roots native = .ok ⟨nodes⟩ ∧ Reads g roots native n nodes ∧
      nodes.size = n.keys.size := by
  have hobject : ∀ key, Reached g roots key → ∃ o, object? g roots key = some o := by
    intro key hkey
    obtain ⟨o, -, ho, -⟩ := hkey.exists_object hchecked
    exact ⟨o, ho⟩
  have hbound : ∀ n nodes, Reads g roots native n nodes →
      nodes.size ≤ n.keys.size ∧ n.keys.size ≤ g.size + 1 := by
    intro n nodes h
    have hle := length_le_of_reached hobject h.sound.nodup h.reached
    rw [Array.length_toList] at hle
    exact ⟨h.size_le, hle⟩
  have hstep : ∀ n nodes key, Reads g roots native n nodes →
      n.keys.toList[nodes.size]? = some key →
        ∃ node m, readObject g r roots native key n = .ok (node, m) ∧
          Reads g roots native m (nodes.push node) := by
    intro n nodes key h hkey
    obtain ⟨o, type, ho, htype, -⟩ :=
      (h.reached key (List.mem_of_getElem? hkey)).exists_object hchecked
    exact h.step hkey ho htype
  have hfuel : g.size + 1 < g.size + 2 + (#[] : Array SnapshotNode).size := Nat.lt_succ_self _
  -- There are no more objects than the walk has steps for.
  obtain ⟨n, nodes, hnodes, h, hsize⟩ :=
    explore_induction (Reads g roots native) hbound hstep reads_start hfuel
  refine ⟨n, nodes, ?_, h, hsize⟩
  rw [ofGraph, hnodes]
  rfl

end

/-! ## From a snapshot back to the graph -/

section

variable {n n' : Numbering} {nodes nodes' : Array SnapshotNode} {g' : ObjectGraph}
variable {roots' : List ObjectId} {id id' : ObjectId} {o o' : SourceObject}

/-- The node of an object that has been found. -/
theorem Reads.node_of_key (h : Reads g roots native n nodes) (hsize : nodes.size = n.keys.size)
    {key : Nat} (hkey : key ∈ n.keys.toList) (ho : object? g roots key = some o) :
    nodes[n.keys.toList.idxOf key]? = some (o.node native n.numberOf) ∧
      ∀ id, .reference (some id) ∈ o.payload.values → objectKey id ∈ n.keys.toList := by
  have hlt := List.idxOf_lt_length_of_mem hkey
  rw [Array.length_toList, ← hsize] at hlt
  obtain ⟨o', ho', hnode, hfound⟩ := h.node _ key hlt (List.getElem?_idxOf hkey)
  rw [ho] at ho'
  obtain rfl := Option.some.inj ho'
  exact ⟨hnode, hfound⟩

/-- A walk that has come to its end has found everything that the roots reach. -/
theorem Reads.mem_of_reaches (h : Reads g roots native n nodes) (hsize : nodes.size = n.keys.size)
    (hid : g.Reaches roots id) : objectKey id ∈ n.keys.toList := by
  induction hid with
  | root hid =>
    apply (h.node_of_key hsize (List.mem_of_getElem? h.root) object?_zero).2
    rw [← Payload.mem_referents, rootObject, Payload.referents]
    simpa using hid
  | referent hid ho htarget ih =>
    exact (h.node_of_key hsize ih (object?_objectKey.trans ho)).2 _
      (Payload.mem_referents.mp htarget)

/-- The root array has the number zero. -/
theorem Reads.idxOf_root (h : Reads g roots native n nodes) : n.keys.toList.idxOf 0 = 0 := by
  have hroot := h.root
  cases hkeys : n.keys.toList with
  | nil =>
    rw [hkeys] at hroot
    cases hroot
  | cons key keys =>
    rw [hkeys] at hroot
    obtain rfl := Option.some.inj hroot
    exact List.idxOf_cons_self

/-- Objects that have been found differ in their numbers. -/
theorem Reads.numberOf_inj (h : Reads g roots native n nodes) (hsize : nodes.size = n.keys.size)
    (hid : g.Reaches roots id) (heq : n.numberOf id = n.numberOf id') : id = id' :=
  Placed.objectKey_inj ((List.idxOf_inj (h.mem_of_reaches hsize hid)).mp heq)

end

end Snapshot

/-- The position that has the same number in another walk. -/
def Numbering.translate (n n' : Numbering) (id : ObjectId) : ObjectId :=
  Snapshot.keyObject (n'.keys.toList[n.numberOf id]?.getD 0)

/-! ### Objects with equal nodes -/

section

variable {f : ObjectId → ObjectId} {native : UInt64 → UInt64} {number number' : ObjectId → Nat}
variable {o o' : SourceObject} {kind : TypeKind}

/-- Values that a snapshot shows alike are the same up to the numbers of objects, if native pointers
are told apart. -/
theorem FieldValue.eq_rename (hnative : Function.Injective native) {v v' : FieldValue}
    (hf : ∀ id id', v = .reference (some id) → v' = .reference (some id') →
      number id = number' id' → f id = id')
    (h : v.snapshot native number = v'.snapshot native number') : v' = v.rename f := by
  -- Values of different kinds show as different ones.
  cases v with
  | scalar x =>
    cases v' with
    | scalar x' =>
      obtain rfl := SnapshotValue.scalar.inj h
      rfl
    | native _ => cases h
    | reference _ => cases h
  | native x =>
    cases v' with
    | scalar _ => cases h
    | native x' =>
      obtain rfl := hnative (SnapshotValue.native.inj h)
      rfl
    | reference _ => cases h
  | reference target =>
    cases v' with
    | scalar _ => cases h
    | native _ => cases h
    | reference target' =>
      have htarget : target.map number = target'.map number' := SnapshotValue.reference.inj h
      cases target with
      | none =>
        rw [Option.map_none, eq_comm, Option.map_eq_none_iff] at htarget
        rw [htarget]
        rfl
      | some id =>
        obtain ⟨id', rfl, hid'⟩ := Option.map_eq_some_iff.mp htarget.symm
        rw [rename, Option.map_some, hf id id' rfl rfl hid'.symm]

/-- So are lists of values that a snapshot shows alike. -/
theorem FieldValue.eq_map_rename (hnative : Function.Injective native) {vs vs' : List FieldValue}
    (hf : ∀ id id', .reference (some id) ∈ vs → .reference (some id') ∈ vs' →
      number id = number' id' → f id = id')
    (h : vs.map (snapshot native number) = vs'.map (snapshot native number')) :
    vs' = vs.map (rename f) := by
  induction vs generalizing vs' with
  | nil => simpa using h.symm
  | cons v vs ih =>
    cases vs' with
    | nil => cases h
    | cons v' vs' =>
      obtain ⟨hv, hvs⟩ := List.cons.inj h
      rw [List.map_cons, ← ih (fun id id' hid hid' => hf id id' (List.mem_cons_of_mem _ hid)
        (List.mem_cons_of_mem _ hid')) hvs]
      congr 1
      apply eq_rename hnative _ hv
      rintro id id' rfl rfl
      exact hf id id' (List.mem_cons_self ..) (List.mem_cons_self ..)

namespace SourceObject

/-- The form of an object does not depend on where its referents are. -/
theorem Fits.rename (h : o.Fits kind) (f : ObjectId → ObjectId) : (o.rename f).Fits kind := by
  cases kind with
  | record kinds =>
    obtain ⟨values, hpayload, hkinds⟩ := h
    refine ⟨values.map (FieldValue.rename f), ?_, ?_⟩
    · rw [SourceObject.rename, hpayload, Payload.rename]
    · rw [List.map_map, ← hkinds]
      apply List.map_congr_left
      intro v _
      cases v <;> rfl
  | scalarArray size =>
    obtain ⟨values, hpayload, hvalues⟩ := h
    exact ⟨values, by rw [SourceObject.rename, hpayload, Payload.rename], hvalues⟩
  | referenceArray =>
    obtain ⟨targets, hpayload⟩ := h
    exact ⟨targets.map (Option.map f), by rw [SourceObject.rename, hpayload, Payload.rename]⟩

/-- Objects of one kind with the same values have the same payload. -/
theorem Fits.payload_eq (h : o.Fits kind) (h' : o'.Fits kind)
    (hvalues : o.payload.values = o'.payload.values) : o.payload = o'.payload := by
  cases kind with
  | record kinds =>
    obtain ⟨values, hpayload, -⟩ := h
    obtain ⟨values', hpayload', -⟩ := h'
    rw [hpayload, hpayload'] at hvalues
    rw [hpayload, hpayload']
    exact congrArg Payload.fields hvalues
  | scalarArray size =>
    obtain ⟨values, hpayload, -⟩ := h
    obtain ⟨values', hpayload', -⟩ := h'
    rw [hpayload, hpayload'] at hvalues
    rw [hpayload, hpayload']
    exact congrArg Payload.scalars
      (List.map_injective_iff.mpr (fun _ _ => FieldValue.scalar.inj) hvalues)
  | referenceArray =>
    obtain ⟨targets, hpayload⟩ := h
    obtain ⟨targets', hpayload'⟩ := h'
    rw [hpayload, hpayload'] at hvalues
    rw [hpayload, hpayload']
    exact congrArg Payload.references
      (List.map_injective_iff.mpr (fun _ _ => FieldValue.reference.inj) hvalues)

/-- **Objects with the same node** are the same but for the positions of their referents, if they
are of one kind and equal numbers are those of corresponding positions. -/
theorem eq_rename_of_node (hnative : Function.Injective native) (hfits : o.Fits kind)
    (hfits' : o'.Fits kind) (hnode : o.node native number = o'.node native number')
    (hf : ∀ id id', .reference (some id) ∈ o.payload.values →
      .reference (some id') ∈ o'.payload.values → number id = number' id' → f id = id') :
    o' = o.rename f := by
  obtain ⟨htype, hmark, hvalues⟩ := SnapshotNode.mk.inj hnode
  have hmap : o.payload.values.map (FieldValue.snapshot native number) =
      o'.payload.values.map (FieldValue.snapshot native number') := congrArg Array.toList hvalues
  have hpayload : o'.payload = (o.rename f).payload := by
    apply hfits'.payload_eq (hfits.rename f)
    rw [SourceObject.rename, Payload.values_rename]
    exact FieldValue.eq_map_rename hnative hf hmap
  cases o
  cases o'
  simp_all [SourceObject.rename]

end SourceObject

end

namespace Snapshot

/-! ### Graphs with equal snapshots -/

section

variable {g g' : ObjectGraph} {r : TypeRegistry} {roots roots' : List ObjectId}
variable {native : UInt64 → UInt64} {n n' : Numbering} {nodes nodes' : Array SnapshotNode}
variable {id id' : ObjectId}
variable (h : Reads g roots native n nodes) (hsize : nodes.size = n.keys.size)
variable (h' : Reads g' roots' native n' nodes) (hsize' : nodes.size = n'.keys.size)

include h hsize h' hsize'

/-- The corresponding position is reached, and has the same number. -/
theorem reaches_translate (hid : g.Reaches roots id) :
    g'.Reaches roots' (n.translate n' id) ∧ n'.numberOf (n.translate n' id) = n.numberOf id := by
  have hget : n.keys.toList[n.numberOf id]? = some (objectKey id) :=
    List.getElem?_idxOf (h.mem_of_reaches hsize hid)
  have hlt : n.numberOf id < n'.keys.toList.length := by
    have hlt := (List.getElem?_eq_some_iff.mp hget).1
    rw [Array.length_toList] at hlt ⊢
    omega
  have hget' := List.getElem?_eq_getElem hlt
  rcases h'.reached _ (List.getElem_mem hlt) with hzero | ⟨id', hid', hkey'⟩
  · -- Number zero is that of the root array in both walks.
    exfalso
    have hroot : n'.keys.toList[0]? = n'.keys.toList[n.numberOf id]? := by
      rw [h'.root, hget', hzero]
    have hnumber : 0 = n.numberOf id :=
      (List.getElem?_inj (by omega) h'.sound.nodup).mp hroot
    rw [← hnumber, h.root] at hget
    exact Nat.succ_ne_zero _ (Option.some.inj hget).symm
  · rw [← hkey'] at hget'
    have htranslate : n.translate n' id = id' := by
      rw [Numbering.translate, hget', Option.getD_some, keyObject_objectKey]
    rw [htranslate]
    refine ⟨hid', ?_⟩
    rw [Numbering.numberOf, hkey', h'.sound.nodup.idxOf_getElem]

/-- Positions correspond if their numbers are equal. -/
theorem translate_eq (hid : g.Reaches roots id)
    (heq : n.numberOf id = n'.numberOf id') : n.translate n' id = id' := by
  obtain ⟨hreach, hnumber⟩ := reaches_translate h hsize h' hsize' hid
  exact h'.numberOf_inj hsize' hreach (hnumber.trans heq)

/-- Positions with the same number correspond one to one. -/
theorem bijOn_translate :
    Set.BijOn (n.translate n') {id | g.Reaches roots id} {id | g'.Reaches roots' id} := by
  refine ⟨?_, ?_, ?_⟩
  · intro id hid
    exact (reaches_translate h hsize h' hsize' hid).1
  · intro a ha b hb hab
    apply h.numberOf_inj hsize ha
    rw [← (reaches_translate h hsize h' hsize' ha).2, hab,
      (reaches_translate h hsize h' hsize' hb).2]
  · intro id' hid'
    obtain ⟨hid, hnumber⟩ := reaches_translate h' hsize' h hsize hid'
    exact ⟨n'.translate n id', hid, translate_eq h hsize h' hsize' hid hnumber⟩

/-- Objects with the same number are the same but for the positions of their referents. -/
theorem eq_rename_translate (hnative : Function.Injective native)
    (hchecked : ∀ id, g.Reaches roots id → ∃ found, g.check r id = .ok found)
    (hchecked' : ∀ id, g'.Reaches roots' id → ∃ found, g'.check r id = .ok found) {key key' : Nat}
    {o : SourceObject} (hkey : key ∈ n.keys.toList) (hkey' : key' ∈ n'.keys.toList)
    (heq : n.keys.toList.idxOf key = n'.keys.toList.idxOf key')
    (ho : object? g roots key = some o) :
    object? g' roots' key' = some (o.rename (n.translate n')) := by
  obtain ⟨o₁, type, ho₁, htype, hfits⟩ := (h.reached key hkey).exists_object hchecked
  obtain ⟨o', type', ho', htype', hfits'⟩ := (h'.reached key' hkey').exists_object hchecked'
  rw [ho] at ho₁
  obtain rfl := Option.some.inj ho₁
  obtain ⟨hnode, -⟩ := h.node_of_key hsize hkey ho
  obtain ⟨hnode', -⟩ := h'.node_of_key hsize' hkey' ho'
  rw [heq, hnode'] at hnode
  have hsame := (Option.some.inj hnode).symm
  rw [← (SnapshotNode.mk.inj hsame).1, htype] at htype'
  obtain rfl := Option.some.inj htype'
  rw [ho', SourceObject.eq_rename_of_node hnative hfits hfits' hsame]
  intro id id' hid _ hnumber
  exact translate_eq h hsize h' hsize' ((h.reached key hkey).referent ho hid) hnumber

/-- **Graphs with the same snapshot are isomorphic**: positions with the same number correspond. -/
theorem isomorphism_translate (hnative : Function.Injective native)
    (hchecked : ∀ id, g.Reaches roots id → ∃ found, g.check r id = .ok found)
    (hchecked' : ∀ id, g'.Reaches roots' id → ∃ found, g'.check r id = .ok found) :
    g.Isomorphism roots g' roots' (n.translate n') where
  bijOn := bijOn_translate h hsize h' hsize'
  map_roots := by
    have hroot := eq_rename_translate h hsize h' hsize' hnative hchecked hchecked'
      (List.mem_of_getElem? h.root) (List.mem_of_getElem? h'.root)
      (h.idxOf_root.trans h'.idxOf_root.symm) object?_zero
    rw [object?_zero, ← rootObject_map] at hroot
    have htargets := Payload.references.inj (SourceObject.mk.inj (Option.some.inj hroot)).2.2
    exact (List.map_injective_iff.mpr (Option.some_injective _) htargets).symm
  object id o hid ho := by
    obtain ⟨hreach, hnumber⟩ := reaches_translate h hsize h' hsize' hid
    have hobject := eq_rename_translate h hsize h' hsize' hnative hchecked hchecked'
      (h.mem_of_reaches hsize hid) (h'.mem_of_reaches hsize' hreach) hnumber.symm
      (object?_objectKey.trans ho)
    rwa [object?_objectKey] at hobject

end

/-- **Snapshots are canonical.** If all objects that the roots reach pass the check, then both
graphs have snapshots, and these are equal exactly if the graphs are the same but for the positions
of what the roots reach. -/
theorem ofGraph_eq_iff_isomorphic {g g' : ObjectGraph} {r : TypeRegistry}
    {roots roots' : List ObjectId}
    (hchecked : ∀ id, g.Reaches roots id → ∃ found, g.check r id = .ok found)
    (hchecked' : ∀ id, g'.Reaches roots' id → ∃ found, g'.check r id = .ok found) :
    ∃ s s', ofGraph g r roots id = .ok s ∧ ofGraph g' r roots' id = .ok s' ∧
      (s = s' ↔ ∃ f, g.Isomorphism roots g' roots' f) := by
  obtain ⟨n, nodes, hok, h, hsize⟩ := exists_reads hchecked id
  obtain ⟨n', nodes', hok', h', hsize'⟩ := exists_reads hchecked' id
  refine ⟨⟨nodes⟩, ⟨nodes'⟩, hok, hok', ?_⟩
  constructor
  · intro heq
    obtain rfl := Snapshot.mk.inj heq
    exact ⟨_, isomorphism_translate h hsize h' hsize' Function.injective_id hchecked hchecked'⟩
  · rintro ⟨f, hiso⟩
    obtain ⟨s, hs, hs'⟩ := ofGraph_of_isomorphism hiso hchecked id
    rw [hok] at hs
    rw [hok'] at hs'
    rw [Except.ok.inj hs, Except.ok.inj hs']

/-- The cycle, with its objects in the other order. -/
def turnedCycle : ObjectGraph where
  objects := #[⟨1, 1, .fields [.reference (some ⟨1⟩), .native 0x10]⟩,
    ⟨1, 1, .fields [.reference (some ⟨0⟩), .native 0x8010]⟩]

/-- The cycle is isomorphic to itself in the other order, since their snapshots are equal, but not
under roots in the same order, since these snapshots differ. -/
theorem ofGraph_eq_iff_isomorphic_cycle :
    (∃ f, ObjectGraph.cycle.Isomorphism [⟨0⟩, ⟨1⟩] turnedCycle [⟨1⟩, ⟨0⟩] f) ∧
      ¬ ∃ f, ObjectGraph.cycle.Isomorphism [⟨0⟩, ⟨1⟩] turnedCycle [⟨0⟩, ⟨1⟩] f := by
  have hcycle : ∀ id, ObjectGraph.cycle.Reaches [⟨0⟩, ⟨1⟩] id →
      ∃ found, ObjectGraph.cycle.check .pairs id = .ok found :=
    ObjectGraph.checked_of_closed (fun _ hid => hid) (by decide)
  have hturned : ∀ id, turnedCycle.Reaches [⟨0⟩, ⟨1⟩] id →
      ∃ found, turnedCycle.check .pairs id = .ok found :=
    ObjectGraph.checked_of_closed (fun _ hid => hid) (by decide)
  have hturned' : ∀ id, turnedCycle.Reaches [⟨1⟩, ⟨0⟩] id →
      ∃ found, turnedCycle.check .pairs id = .ok found :=
    ObjectGraph.checked_of_closed (fun _ hid => hid) (by decide)
  constructor
  · obtain ⟨s, s', hs, hs', hiff⟩ := ofGraph_eq_iff_isomorphic hcycle hturned'
    apply hiff.mp
    have heq : ofGraph .cycle .pairs [⟨0⟩, ⟨1⟩] id = ofGraph turnedCycle .pairs [⟨1⟩, ⟨0⟩] id := by
      decide +kernel
    rw [hs, hs'] at heq
    exact Except.ok.inj heq
  · obtain ⟨s, s', hs, hs', hiff⟩ := ofGraph_eq_iff_isomorphic hcycle hturned
    rw [← hiff]
    rintro rfl
    have hne : ofGraph .cycle .pairs [⟨0⟩, ⟨1⟩] id ≠ ofGraph turnedCycle .pairs [⟨0⟩, ⟨1⟩] id := by
      decide +kernel
    rw [hs, hs'] at hne
    exact hne rfl

end Snapshot

end HeapImage
