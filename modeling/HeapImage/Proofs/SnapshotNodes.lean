import HeapImage.Proofs.Members
import HeapImage.Proofs.SnapshotWalk

/-! # Snapshots of a graph and of a heap

A heap that holds the members of a graph shows the same fields as the graph, with addresses in place
of positions. So its snapshot is that of the graph.

* `FieldValue.view`: a field of an object, given what names the referents.
* `ObjectView.field_eq`: the fields of a member in a heap.
* `Member.Presented`, `Snapshot.ofHeap_eq_ofGraph`: heaps that hold a graph, and their snapshots. -/

namespace HeapImage

/-- What a field shows, given what becomes of native pointers and what names the referents. -/
def FieldValue.view (native : UInt64 → UInt64) (key : ObjectId → Nat) : FieldValue → ViewValue
  | .scalar x => .scalar x
  | .native x => .native (native x)
  | .reference target => .reference (target.map key)

namespace Snapshot

/-! ## Numbering values -/

/-- Numbers one value. -/
def numberValue : Array SnapshotValue × Numbering → ViewValue → Array SnapshotValue × Numbering
  | (values, n), .scalar x => (values.push (.scalar x), n)
  | (values, n), .native x => (values.push (.native x), n)
  | (values, n), .reference target =>
    (values.push (.reference (n.numberOptional target).1), (n.numberOptional target).2)

/-- Numbering values goes through them from first to last. -/
theorem numberValues_eq (n : Numbering) (targets : List ViewValue) :
    numberValues n targets = targets.foldl numberValue (#[], n) := by
  rw [numberValues]
  congr 1
  funext p v
  cases v <;> rfl

/-- A payload shows its values one by one. -/
theorem payloadValues_eq (native : UInt64 → UInt64) (p : Payload) :
    payloadValues native p = p.values.map (FieldValue.view native objectKey) := by
  cases p with
  | fields values =>
    apply List.map_congr_left
    intro v _
    cases v <;> rfl
  | scalars values =>
    rw [Payload.values, List.map_map]
    rfl
  | references targets =>
    rw [Payload.values, List.map_map]
    rfl

section

variable {rename : Nat → Nat} {Live : Nat → Prop} {n n' : Numbering}

/-- Values are numbered alike under both sorts of keys. -/
theorem renames_numberValue (native : UInt64 → UInt64)
    (hinj : ∀ a b, Live a → Live b → rename a = rename b → a = b) {key key' : ObjectId → Nat}
    {vs : List FieldValue}
    (hkeys : ∀ i, .reference (some i) ∈ vs → Live (key i) ∧ key' i = rename (key i))
    (values : Array SnapshotValue) (h : n.Renames rename Live n') :
    ∃ done m m', (vs.map (FieldValue.view native key)).foldl numberValue (values, n) = (done, m) ∧
      (vs.map (FieldValue.view native key')).foldl numberValue (values, n') = (done, m') ∧
      m.Renames rename Live m' ∧ n.keys.size ≤ m.keys.size := by
  induction vs generalizing values n n' with
  | nil => exact ⟨values, n, n', rfl, rfl, h, Nat.le_refl _⟩
  | cons v vs ih =>
    have hkeys' : ∀ i, .reference (some i) ∈ vs → Live (key i) ∧ key' i = rename (key i) :=
      fun i hi => hkeys i (List.mem_cons_of_mem _ hi)
    rw [List.map_cons, List.map_cons, List.foldl_cons, List.foldl_cons]
    cases v with
    | scalar x => exact ih hkeys' _ h
    | native x => exact ih hkeys' _ h
    | reference target =>
      cases target with
      | none => exact ih hkeys' _ h
      | some i =>
        obtain ⟨hlive, hkey⟩ := hkeys i (List.mem_cons_self ..)
        -- The key is new to both numberings or to none, so it gets the same number.
        obtain ⟨hnumber, hm, hle⟩ := h.number hinj hlive
        obtain ⟨done, m, m', hdone, hdone', hm', hle'⟩ :=
          ih hkeys' (values.push (.reference (some (n.number (key i)).1))) hm
        refine ⟨done, m, m', hdone, ?_, hm', Nat.le_trans hle hle'⟩
        rw [← hdone', ← hnumber, ← hkey]
        rfl

end

/-- Reading the values of an object one by one numbers all of them. -/
theorem readValues_eq {μ : Type} [Memory μ] {heap : μ} {e : ReferenceEncoding} {v : ObjectView}
    {targets : List ViewValue} {i : Nat} (values : Array SnapshotValue) (n : Numbering)
    (hfield : ∀ j t, targets[j]? = some t → v.field heap e (i + j) = .ok t) :
    readValues heap e v targets.length i values n =
      .ok (targets.foldl numberValue (values, n)) := by
  induction targets generalizing i values n with
  | nil => rfl
  | cons t targets ih =>
    have hfirst := hfield 0 t rfl
    have hrest : ∀ j u, targets[j]? = some u → v.field heap e (i + 1 + j) = .ok u := by
      intro j u hu
      have := hfield (j + 1) u hu
      rwa [Nat.add_assoc, Nat.add_comm 1 j]
    rw [List.length_cons, readValues]
    rw [Nat.add_zero] at hfirst
    rw [hfirst]
    cases t with
    | scalar x => exact ih _ _ hrest
    | native x => exact ih _ _ hrest
    | reference target => exact ih _ _ hrest

end Snapshot

/-! ## Members in a heap -/

/-- Elements of scalar arrays are not empty. -/
theorem TypeKind.elementSize_pos {size : Nat} (h : (TypeKind.scalarArray size).fault? = none) :
    0 < size := by
  rw [fault?] at h
  split at h
  · rename_i hsize
    simp only [supportedElementSizes, List.mem_cons, List.not_mem_nil, or_false] at hsize
    omega
  · cases h

/-- Some bytes of a heap can be read, and are those of a view. -/
def Memory.Shows {μ : Type} [Memory μ] (heap : μ) (v : Nat → UInt8) (a n : Nat) : Prop :=
  ∀ i len, 0 < len → a ≤ i → i + len ≤ a + n →
    ∃ b, Memory.read? heap i len = some b ∧ b.size = len ∧ ∀ k < len, Bytes.get b k = v (i + k)

namespace Placed

variable {μ : Type} [Memory μ] {heap : μ} {e : ReferenceEncoding} {x : Placed} {v : Nat → UInt8}
variable {g : ObjectGraph} {r : TypeRegistry} {roots : List ObjectId}
variable {ref : ObjectId → Nat} {native : UInt64 → UInt64}

/-- The object that is seen at the member's address. -/
def view (x : Placed) : ObjectView := ⟨x.offset, x.member.object.header, x.member.type⟩

/-- The header of a member can be read at its address. -/
theorem readHeader_eq (hheld : x.Held e.slotSize ref native v)
    (hshows : Memory.Shows heap v x.offset (x.member.size e.slotSize)) :
    ((Memory.read? heap x.offset headerSize).bind fun b => ObjectHeader.read? b 0) =
      some x.member.object.header := by
  obtain ⟨b, hread, hsize, hbytes⟩ := hshows x.offset headerSize (by decide) (Nat.le_refl _)
    (Nat.add_le_add_left (x.member.headerSize_le_size _) _)
  have hword : headerSize = wordSize + wordSize := rfl
  rw [hread, Option.bind_some]
  apply Member.read?_of_words
  · exact Nat.le_of_eq (by rw [hsize, Nat.zero_add])
  · refine Eq.trans ?_ hheld.mark
    apply Bytes.number_congr
    intro k hk
    rw [Nat.zero_add]
    exact hbytes k (by omega)
  · refine Eq.trans ?_ hheld.layout
    apply Bytes.number_congr
    intro k hk
    rw [Nat.zero_add, Nat.add_assoc]
    exact hbytes (wordSize + k) (by omega)

/-- A member is found at its address. -/
theorem atAddress_eq (hof : x.member.Of g r roots) (hheld : x.Held e.slotSize ref native v)
    (hshows : Memory.Shows heap v x.offset (x.member.size e.slotSize)) :
    ObjectView.atAddress heap r x.offset = .ok x.view := by
  have hrequire : r.require x.member.object.header.typeIndex = .ok x.member.type := by
    have htype : r.get? x.member.object.header.typeIndex = some x.member.type := hof.type
    rw [TypeRegistry.require, htype]
  have haccepts : x.member.type.kind.acceptsLength x.member.object.header.length = true :=
    SourceObject.acceptsLength hof.fits hof.length_lt
  rw [ObjectView.atAddress, readHeader_eq hheld hshows]
  dsimp only
  rw [hrequire]
  change (if x.member.type.kind.acceptsLength x.member.object.header.length then
    Except.ok x.view else _) = _
  rw [haccepts]
  rfl

/-- The number in a cell of a member can be read. -/
theorem readValue?_cell (hof : x.member.Of g r roots) (hheld : x.Held e.slotSize ref native v)
    (hshows : Memory.Shows heap v x.offset (x.member.size e.slotSize)) {c : Cell}
    (hc : c ∈ x.member.cells e.slotSize) (hwidth : 0 < c.width) :
    Memory.readValue? heap (x.offset + c.offset) c.width = some (c.value.number ref native) := by
  have hbounds := hof.bounds e.isSlotSize hc
  obtain ⟨b, hread, -, hbytes⟩ := hshows (x.offset + c.offset) c.width hwidth (Nat.le_add_right ..)
    (by omega)
  rw [Memory.readValue?, hread, Option.map_some, ← hheld.cells c hc, Bytes.valueAt_eq_number]
  congr 1
  apply Bytes.number_congr
  intro k hk
  rw [Nat.zero_add]
  exact hbytes k hk

/-- The number in a cell of a member. -/
theorem valueAt_cell (hof : x.member.Of g r roots) (hheld : x.Held e.slotSize ref native v)
    (hshows : Memory.Shows heap v x.offset (x.member.size e.slotSize)) {c : Cell}
    (hc : c ∈ x.member.cells e.slotSize) (hwidth : 0 < c.width) :
    ObjectView.valueAt heap (x.offset + c.offset) c.width = .ok (c.value.number ref native) := by
  rw [ObjectView.valueAt, readValue?_cell hof hheld hshows hc hwidth]

/-- The reference in a cell of a member. -/
theorem referenceAt_cell (hof : x.member.Of g r roots) (hheld : x.Held e.slotSize ref native v)
    (hshows : Memory.Shows heap v x.offset (x.member.size e.slotSize)) {c : Cell}
    (hc : c ∈ x.member.cells e.slotSize) {target : Option ObjectId}
    (hv : c.value = .reference target) (href : ∀ i, target = some i → ref i ≠ 0) :
    ObjectView.referenceAt heap e (x.offset + c.offset) =
      .ok (.reference (target.map fun i => e.decode (ref i))) := by
  have hwidth := (hof.width_of_reference e.isSlotSize hc hv).1
  have hvalue := valueAt_cell hof hheld hshows hc (hwidth.symm ▸ e.isSlotSize.pos)
  rw [hwidth, hv] at hvalue
  rw [ObjectView.referenceAt, hvalue]
  cases target with
  | none => rfl
  | some i =>
    change Except.ok (ViewValue.reference (if ref i = 0 then none else some (e.decode (ref i)))) = _
    rw [if_neg (href i rfl)]
    rfl

/-- The key of the member in a walk through its graph. -/
def key (x : Placed) : Nat :=
  match x.member.id with
  | none => 0
  | some i => Snapshot.objectKey i

/-- The address of the member with a key. -/
def addressOf (xs : List Placed) (key : Nat) : Nat :=
  match xs.find? fun x => x.key = key with
  | some x => x.offset
  | none => 0

/-- What is stored for references to an object, given the members' addresses. -/
def storedAt (e : ReferenceEncoding) (xs : List Placed) (i : ObjectId) : Nat :=
  match e.encode (addressOf xs (Snapshot.objectKey i)) with
  | .ok value => value
  | .error _ => 0

/-- Objects are told apart by their keys. -/
theorem objectKey_inj {i j : ObjectId} (h : Snapshot.objectKey i = Snapshot.objectKey j) :
    i = j := by
  rw [Snapshot.objectKey, Snapshot.objectKey, Nat.add_right_cancel_iff, ObjectId.key, ObjectId.key,
    UInt32.toNat_inj] at h
  exact congrArg ObjectId.mk h

/-- Members with the same key are of the same object. -/
theorem id_eq_of_key_eq {x y : Placed} (h : x.key = y.key) : x.member.id = y.member.id := by
  rw [key, key] at h
  split at h
  · rename_i hx
    split at h
    · rename_i hy
      rw [hx, hy]
    · exact absurd h (Nat.succ_ne_zero _).symm
  · rename_i i hx
    split at h
    · exact absurd h (Nat.succ_ne_zero _)
    · rename_i j hy
      rw [hx, hy, objectKey_inj h]

section

variable {xs : List Placed} (hids : (xs.map fun x => x.member.id).Nodup)

include hids

/-- Members are told apart by their keys. -/
theorem nodup_keys : (xs.map key).Nodup := by
  rw [List.nodup_map_iff_inj_on hids.of_map]
  intro x hx y hy hxy
  exact List.inj_on_of_nodup_map hids hx hy (id_eq_of_key_eq hxy)

/-- A member is found by its key. -/
theorem addressOf_key {x : Placed} (hx : x ∈ xs) : addressOf xs x.key = x.offset := by
  rw [addressOf]
  split
  · rename_i y hy
    have hkey := List.find?_some hy
    rw [decide_eq_true_eq] at hkey
    rw [List.inj_on_of_nodup_map (nodup_keys hids) (List.mem_of_find?_eq_some hy) hx hkey]
  · rename_i hnone
    have hne := List.find?_eq_none.mp hnone x hx
    rw [decide_eq_true_eq] at hne
    exact absurd rfl hne

/-- The stored form of an object's address, if it has one. -/
theorem storedAt_eq {e : ReferenceEncoding} {x : Placed} {i : ObjectId} {value : Nat} (hx : x ∈ xs)
    (hid : x.member.id = some i) (hvalue : e.encode x.offset = .ok value) :
    storedAt e xs i = value := by
  have hkey : Snapshot.objectKey i = x.key := by
    rw [key, hid]
  rw [storedAt, hkey, addressOf_key hids hx, hvalue]

end

/-- A member has a cell for each value. -/
theorem length_cells (m : Member) (slot : Nat) :
    (m.cells slot).length = m.object.payload.length := by
  rw [Member.cells, ← List.length_map (f := Cell.value), SourceObject.values_cells,
    Payload.length_values]

/-- A cell of one word is read as its number. -/
theorem wordAt_cell (hof : x.member.Of g r roots) (hheld : x.Held e.slotSize ref native v)
    (hshows : Memory.Shows heap v x.offset (x.member.size e.slotSize)) {c : Cell}
    (hc : c ∈ x.member.cells e.slotSize) (hwidth : c.width = wordSize) :
    ObjectView.valueAt heap (x.offset + c.offset) wordSize = .ok (c.value.number ref native) := by
  rw [← hwidth]
  exact valueAt_cell hof hheld hshows hc (hwidth ▸ (by decide : 0 < wordSize))

/-- A field of a record shows what is in its cell. -/
theorem fieldAt_cell (hof : x.member.Of g r roots) (hheld : x.Held e.slotSize ref native v)
    (hshows : Memory.Shows heap v x.offset (x.member.size e.slotSize)) {c : Cell}
    (hc : c ∈ x.member.cells e.slotSize) (hwidth : c.width = c.value.kind.width e.slotSize)
    (href : ∀ i, c.value = .reference (some i) → ref i ≠ 0) :
    ObjectView.fieldAt heap e c.value.kind (x.offset + c.offset) =
      .ok (c.value.view native fun j => e.decode (ref j)) := by
  cases hv : c.value with
  | reference target =>
    exact referenceAt_cell hof hheld hshows hc hv fun i hi => href i (by rw [hv, hi])
  | scalar y =>
    rw [hv] at hwidth
    have hvalue := wordAt_cell hof hheld hshows hc hwidth
    rw [hv] at hvalue
    change (ObjectView.valueAt heap (x.offset + c.offset) wordSize >>= fun n =>
      pure (ViewValue.scalar (UInt64.ofNat n))) = _
    rw [hvalue]
    exact congrArg (fun n => Except.ok (ViewValue.scalar n)) UInt64.ofNat_toNat
  | native y =>
    rw [hv] at hwidth
    have hvalue := wordAt_cell hof hheld hshows hc hwidth
    rw [hv] at hvalue
    change (ObjectView.valueAt heap (x.offset + c.offset) wordSize >>= fun n =>
      pure (ViewValue.native (UInt64.ofNat n))) = _
    rw [hvalue]
    exact congrArg (fun n => Except.ok (ViewValue.native n)) UInt64.ofNat_toNat

/-- The elements of an array take up memory. -/
theorem elementSize_pos (hof : x.member.Of g r roots) {size : Nat}
    (hkind : x.member.type.kind = .scalarArray size) : 0 < size := by
  have hfault := r.supported _ (Array.mem_of_getElem? hof.type)
  rw [hkind] at hfault
  exact TypeKind.elementSize_pos hfault

/-- **The fields of a member** in a heap show what is in its cells. -/
theorem field_eq (hof : x.member.Of g r roots) (hheld : x.Held e.slotSize ref native v)
    (hshows : Memory.Shows heap v x.offset (x.member.size e.slotSize))
    (href : ∀ c ∈ x.member.cells e.slotSize, ∀ i, c.value = .reference (some i) → ref i ≠ 0)
    {i : Nat} {c : Cell} (hi : (x.member.cells e.slotSize)[i]? = some c) :
    x.view.field heap e i = .ok (c.value.view native fun j => e.decode (ref j)) := by
  have hc := List.mem_of_getElem? hi
  have hlt := (List.getElem?_eq_some_iff.mp hi).1
  rw [length_cells] at hlt
  have hlength : x.view.length = x.member.object.payload.length :=
    SourceObject.toNat_length hof.length_lt
  have hfits := hof.fits
  have htype : x.view.type = x.member.type := rfl
  rw [ObjectView.field, if_neg (by rw [hlength]; exact Nat.not_le.mpr hlt), htype]
  cases hkind : x.member.type.kind with
  | record kinds =>
    rw [hkind] at hfits
    obtain ⟨values, hpayload, rfl⟩ := hfits
    -- The view looks a field up in the layout of the kinds, which has the offsets of the cells.
    have hcells : x.member.cells e.slotSize = fieldCells e.slotSize headerSize values := by
      rw [Member.cells, hkind, SourceObject.cells, hpayload, Payload.values]
    have hvalues : values[i]? = some c.value := by
      rw [← values_fieldCells e.slotSize headerSize values, ← hcells, List.getElem?_map, hi]
      rfl
    have hkinds : (values.map FieldValue.kind)[i]? = some c.value.kind := by
      rw [List.getElem?_map, hvalues]
      rfl
    have hoffset : (RecordLayout.compute (values.map FieldValue.kind) e.slotSize).offsets[i]? =
        some c.offset := by
      rw [RecordLayout.compute, fieldOffsets_eq, ← hcells, List.getElem?_map, hi]
      rfl
    dsimp only
    rw [hkinds, hoffset]
    rw [hcells] at hc
    exact fieldAt_cell hof hheld hshows (hcells ▸ hc)
      (aligned_of_mem_fieldCells e.isSlotSize hc).1 (href c (hcells ▸ hc))
  | scalarArray size =>
    have hpos := elementSize_pos hof hkind
    rw [hkind] at hfits
    obtain ⟨values, hpayload, -⟩ := hfits
    rw [Member.cells, hkind, SourceObject.cells, hpayload] at hi
    -- Elements follow each other without gaps, so an index is enough to find one.
    obtain ⟨hoffset, hwidth, hvalues⟩ := getElem?_elementCells hi
    rw [Payload.values, List.getElem?_map, Option.map_eq_some_iff] at hvalues
    obtain ⟨y, -, hy⟩ := hvalues
    have hvalue := valueAt_cell hof hheld hshows hc (hwidth.symm ▸ hpos)
    rw [hoffset, hwidth, ← hy] at hvalue
    dsimp only
    rw [← hy]
    change (ObjectView.valueAt heap (x.offset + (headerSize + i * size)) size >>= fun n =>
      pure (ViewValue.scalar (UInt64.ofNat n))) = _
    rw [hvalue]
    exact congrArg (fun n => Except.ok (ViewValue.scalar n)) UInt64.ofNat_toNat
  | referenceArray =>
    rw [hkind] at hfits
    obtain ⟨targets, hpayload⟩ := hfits
    rw [Member.cells, hkind, SourceObject.cells, hpayload] at hi
    obtain ⟨hoffset, -, hvalues⟩ := getElem?_elementCells hi
    rw [Payload.values, List.getElem?_map, Option.map_eq_some_iff] at hvalues
    obtain ⟨target, -, htarget⟩ := hvalues
    have hreference := referenceAt_cell hof hheld hshows hc htarget.symm fun j hj =>
      href c hc j (by rw [← htarget, hj])
    rw [hoffset] at hreference
    rw [← htarget]
    exact hreference

end Placed

/-! ## Objects by their keys -/

namespace Snapshot

/-- The position with a key that is not the root array's. -/
def keyObject (key : Nat) : ObjectId := ⟨UInt32.ofNat (key - 1)⟩

/-- The object of the key of an object is that object. -/
@[simp] theorem keyObject_objectKey {i : ObjectId} : keyObject (objectKey i) = i := by
  rw [keyObject, objectKey, Nat.add_sub_cancel, ObjectId.key, UInt32.ofNat_toNat]

/-- The object with a key: the root array or an object of the graph. -/
def object? (g : ObjectGraph) (roots : List ObjectId) (key : Nat) : Option SourceObject :=
  if key = 0 then some (rootObject roots) else g.get? (keyObject key)

variable {g : ObjectGraph} {r : TypeRegistry} {roots : List ObjectId}

@[simp] theorem object?_zero : object? g roots 0 = some (rootObject roots) := rfl

@[simp] theorem object?_objectKey {i : ObjectId} : object? g roots (objectKey i) = g.get? i := by
  have hne : objectKey i ≠ 0 := Nat.succ_ne_zero _
  rw [object?, if_neg hne, keyObject_objectKey]

/-- The node of an object whose type is registered. -/
theorem readObject_of_object? {key : Nat} {o : SourceObject} {type : TypeInfo}
    (hobject : object? g roots key = some o) (htype : r.get? o.typeIndex = some type)
    (native : UInt64 → UInt64) (n : Numbering) :
    readObject g r roots native key n =
      match (o.payload.values.map (FieldValue.view native objectKey)).foldl numberValue
        (#[], n) with
      | (values, n) => .ok (⟨o.typeIndex, o.mark, values⟩, n) := by
  rw [← payloadValues_eq, ← numberValues_eq, readObject]
  rw [object?] at hobject
  split at hobject
  · rename_i hkey
    obtain rfl := Option.some.inj hobject
    rw [if_pos hkey, rootObject, payloadValues, List.map_map]
    rfl
  · rename_i hkey
    have hrequire : r.require o.typeIndex = .ok type := by
      rw [TypeRegistry.require, htype]
    change g.get? ⟨UInt32.ofNat (key - 1)⟩ = some o at hobject
    dsimp only
    rw [if_neg hkey, hobject]
    dsimp only
    rw [hrequire]

end Snapshot

/-! ## Snapshots -/

/-- A heap in which members of a graph can be read, each at its address. -/
structure Presents {μ : Type} [Memory μ] (heap : μ) (e : ReferenceEncoding) (g : ObjectGraph)
    (r : TypeRegistry) (roots : List ObjectId) (native : UInt64 → UInt64) (xs : List Placed)
    (ref : ObjectId → Nat) : Prop where
  of : ∀ x ∈ xs, x.member.Of g r roots
  shows : ∃ v, ∀ x ∈ xs, x.Held e.slotSize ref native v ∧
    Memory.Shows heap v x.offset (x.member.size e.slotSize)
  ids : (xs.map fun x => x.member.id).Nodup
  offsets : (xs.map Placed.offset).Nodup
  referents : ∀ x ∈ xs, ∀ c ∈ x.member.cells e.slotSize, ∀ i, c.value = .reference (some i) →
    ∃ y ∈ xs, y.member.id = some i ∧ ref i ≠ 0 ∧ e.decode (ref i) = y.offset

namespace Presents

variable {μ : Type} [Memory μ] {heap : μ} {e : ReferenceEncoding} {g : ObjectGraph}
variable {r : TypeRegistry} {roots : List ObjectId} {native : UInt64 → UInt64} {xs : List Placed}
variable {ref : ObjectId → Nat} {x y : Placed}

/-- Presented members are told apart by their keys. -/
theorem nodup_keys (h : Presents heap e g r roots native xs ref) : (xs.map Placed.key).Nodup :=
  Placed.nodup_keys h.ids

/-- The address for the key of a member is where the member stands. -/
theorem addressOf_key (h : Presents heap e g r roots native xs ref) (hx : x ∈ xs) :
    Placed.addressOf xs x.key = x.offset :=
  Placed.addressOf_key h.ids hx

/-- Members that differ are at different addresses. -/
theorem addressOf_inj (h : Presents heap e g r roots native xs ref) {a b : Nat}
    (ha : ∃ y ∈ xs, y.key = a) (hb : ∃ z ∈ xs, z.key = b)
    (heq : Placed.addressOf xs a = Placed.addressOf xs b) : a = b := by
  obtain ⟨y, hy, rfl⟩ := ha
  obtain ⟨z, hz, rfl⟩ := hb
  rw [h.addressOf_key hy, h.addressOf_key hz] at heq
  rw [List.inj_on_of_nodup_map h.offsets hy hz heq]

/-- What a reference stands for is the address of the member with its key. -/
theorem decode_eq (h : Presents heap e g r roots native xs ref) (hx : x ∈ xs) {i : ObjectId}
    (hi : .reference (some i) ∈ x.member.object.payload.values) :
    (∃ z ∈ xs, z.key = Snapshot.objectKey i) ∧
      e.decode (ref i) = Placed.addressOf xs (Snapshot.objectKey i) := by
  rw [← SourceObject.values_cells x.member.object x.member.type.kind e.slotSize] at hi
  obtain ⟨c, hc, hv⟩ := List.mem_map.mp hi
  obtain ⟨z, hz, hid, -, hdecode⟩ := h.referents x hx c hc i hv
  have hkey : z.key = Snapshot.objectKey i := by
    rw [Placed.key, hid]
  refine ⟨⟨z, hz, hkey⟩, ?_⟩
  rw [hdecode, ← hkey]
  exact (h.addressOf_key hz).symm

/-- No more keys can be found than there are members. -/
theorem length_le (keys : List Nat) (hnodup : keys.Nodup)
    (hlive : ∀ key ∈ keys, ∃ x ∈ xs, x.key = key) : keys.length ≤ xs.length := by
  have hsub : keys ⊆ xs.map Placed.key := by
    intro key hkey
    obtain ⟨x, hx, rfl⟩ := hlive key hkey
    exact List.mem_map_of_mem hx
  have hle := (List.subperm_of_subset hnodup hsub).length_le
  rwa [List.length_map] at hle

/-- A graph has one object less than it can have members. -/
theorem length_le_size (h : Presents heap e g r roots native xs ref) : xs.length ≤ g.size + 1 := by
  have hsub : xs.map Placed.key ⊆ List.range (g.size + 1) := by
    intro key hkey
    obtain ⟨x, hx, rfl⟩ := List.mem_map.mp hkey
    rw [List.mem_range, Placed.key]
    cases hid : x.member.id with
    | none => exact Nat.succ_pos _
    | some i =>
      obtain ⟨hlt, -⟩ := Array.getElem?_eq_some_iff.mp ((h.of x hx).object i hid)
      exact Nat.succ_lt_succ hlt
  have hle := (List.subperm_of_subset h.nodup_keys hsub).length_le
  rwa [List.length_map, List.length_range] at hle

/-- The stored form of a reference that leads to a member is not that of null. -/
theorem ref_ne_zero (h : Presents heap e g r roots native xs ref) (hx : x ∈ xs) {c : Cell}
    (hc : c ∈ x.member.cells e.slotSize) {i : ObjectId} (hv : c.value = .reference (some i)) :
    ref i ≠ 0 := by
  obtain ⟨-, -, -, hne, -⟩ := h.referents x hx c hc i hv
  exact hne

/-- The node of a member in its graph. -/
theorem readObject_eq (h : Presents heap e g r roots native xs ref) (hx : x ∈ xs) (n : Numbering) :
    Snapshot.readObject g r roots native x.key n =
      match (x.member.object.payload.values.map
        (FieldValue.view native Snapshot.objectKey)).foldl Snapshot.numberValue (#[], n) with
      | (values, n) => .ok (⟨x.member.object.typeIndex, x.member.object.mark, values⟩, n) := by
  have hof := h.of x hx
  refine Snapshot.readObject_of_object? ?_ hof.type native n
  rw [Placed.key]
  cases hid : x.member.id with
  | none => exact congrArg some (hof.root hid).2.symm
  | some i => exact Eq.trans Snapshot.object?_objectKey (hof.object i hid)

/-- The node of a member in the heap. -/
theorem readAddress_eq (h : Presents heap e g r roots native xs ref) (hx : x ∈ xs) (n : Numbering) :
    Snapshot.readAddress heap r e x.offset n =
      match (x.member.object.payload.values.map
        (FieldValue.view native fun i => e.decode (ref i))).foldl Snapshot.numberValue (#[], n) with
      | (values, n) => .ok (⟨x.member.object.typeIndex, x.member.object.mark, values⟩, n) := by
  obtain ⟨v, hv⟩ := h.shows
  obtain ⟨hheld, hshows⟩ := hv x hx
  have hof := h.of x hx
  have hcells : (x.member.cells e.slotSize).map Cell.value = x.member.object.payload.values :=
    SourceObject.values_cells ..
  have hlength : x.view.length = (x.member.object.payload.values.map
      (FieldValue.view native fun i => e.decode (ref i))).length := by
    rw [List.length_map, Payload.length_values]
    exact SourceObject.toNat_length hof.length_lt
  generalize htargets : x.member.object.payload.values.map
    (FieldValue.view native fun i => e.decode (ref i)) = targets at hlength ⊢
  -- A heap shows its fields one by one; they are numbered in the order of the cells.
  have hvalues : Snapshot.readValues heap e x.view targets.length 0 #[] n =
      .ok (targets.foldl Snapshot.numberValue (#[], n)) := by
    apply Snapshot.readValues_eq
    intro j t ht
    rw [← htargets, ← hcells, List.map_map, List.getElem?_map, Option.map_eq_some_iff] at ht
    obtain ⟨c, hc, rfl⟩ := ht
    rw [Nat.zero_add]
    exact Placed.field_eq hof hheld hshows (fun c hc i hi => h.ref_ne_zero hx hc hi) hc
  rw [Snapshot.readAddress, Placed.atAddress_eq hof hheld hshows]
  change (Snapshot.readValues heap e x.view x.view.length 0 #[] n >>= fun p =>
    pure (SnapshotNode.mk x.view.header.typeIndex x.view.header.mark p.1, p.2)) = _
  rw [hlength, hvalues]
  rfl

/-- **The snapshot of a heap** that presents members of a graph is the snapshot of the graph. -/
theorem ofHeap_eq (h : Presents heap e g r roots native xs ref) (hx : x ∈ xs)
    (hroot : x.member.id = none) (hextent : xs.length ≤ Memory.extent heap) :
    ∃ s, Snapshot.ofGraph g r roots native = .ok s ∧
      Snapshot.ofHeap heap r e x.offset = .ok s := by
  have hkey : x.key = 0 := by
    rw [Placed.key, hroot]
  have haddress : Placed.addressOf xs 0 = x.offset := by
    rw [← hkey]
    exact h.addressOf_key hx
  -- The graph is walked by keys and the heap by addresses. Members have both, so the walks find the
  -- same objects in the same order, and each has as many steps as it needs.
  obtain ⟨nodes, hgraph, hheap⟩ : ∃ nodes,
      Snapshot.explore (Snapshot.readObject g r roots native) (g.size + 2) (.start 0) #[] =
        .ok nodes ∧
      Snapshot.explore (Snapshot.readAddress heap r e) (Memory.extent heap + 1)
        (.start (Placed.addressOf xs 0)) #[] = .ok nodes := by
    refine Snapshot.explore_renames (Placed.addressOf xs) (fun key => ∃ y ∈ xs, y.key = key)
      length_le ?_ (Numbering.renames_start ⟨x, hx, hkey⟩) (Nat.zero_le _)
      (Nat.lt_of_le_of_lt h.length_le_size (Nat.lt_succ_self _)) (Nat.lt_succ_of_le hextent)
    · rintro key n n' ⟨y, hy, rfl⟩ hn
      obtain ⟨values, m, m', hvalues, hvalues', hm, hle⟩ :=
        Snapshot.renames_numberValue native (fun _ _ => h.addressOf_inj)
          (fun _ => h.decode_eq hy) #[] hn
      refine ⟨⟨y.member.object.typeIndex, y.member.object.mark, values⟩, m, m', ?_, ?_, hm, hle⟩
      · rw [h.readObject_eq hy, hvalues]
      · rw [h.addressOf_key hy, h.readAddress_eq hy, hvalues']
  rw [haddress] at hheap
  refine ⟨⟨nodes⟩, ?_, ?_⟩
  · rw [Snapshot.ofGraph, hgraph]
    rfl
  · rw [Snapshot.ofHeap, hheap]
    rfl

end Presents

end HeapImage
