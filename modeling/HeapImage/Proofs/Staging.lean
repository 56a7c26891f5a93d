import HeapImage.Proofs.Members
import HeapImage.Proofs.Steps
import Mathlib.Data.List.Nodup
import Std.Data.TreeMap.Lemmas

/-! # Staged members

Staging puts the bytes of every member behind those of the members before it, with null in place of
references, and keeps a table of the places. Linking then fills the references with identities.

* `SourceObject.heldAt_toBytes`: the bytes of an object are those of a member.
* `StagingBuffer.Stages`: the members in a buffer, and what stands for references in it.
* `StagingBuffer.Stages.push`, `StagingBuffer.Stages.pushRoots`: staging one more member.
* `StagingBuffer.Stocks`: all that is in a buffer, with or without a root array. -/

namespace HeapImage

/-! ## Writing the cells of a row -/

/-- Writes that stay in their cells leave every cell of a blank row with its number. -/
theorem Cell.Row.written {start stop : Nat} {cs : List Cell} (hrow : Cell.Row start stop cs)
    (write : ByteArray → Cell → ByteArray) (number : Cell → Nat)
    (hsize : ∀ b c, (write b c).size = b.size)
    (houtside : ∀ b c j, j < c.offset ∨ c.stop ≤ j → Bytes.get (write b c) j = Bytes.get b j)
    (hinside : ∀ c ∈ cs, ∀ b, c.stop ≤ b.size →
      (∀ j, c.offset ≤ j → j < c.stop → Bytes.get b j = 0) →
      Bytes.number (Bytes.get (write b c)) c.offset c.width = number c)
    {b : ByteArray} (hstop : stop ≤ b.size) (hblank : ∀ j, start ≤ j → Bytes.get b j = 0) :
    (cs.foldl write b).size = b.size ∧
      (∀ c ∈ cs, Bytes.number (Bytes.get (cs.foldl write b)) c.offset c.width = number c) ∧
      ∀ j < start, Bytes.get (cs.foldl write b) j = Bytes.get b j := by
  induction cs generalizing start b with
  | nil =>
    refine ⟨rfl, ?_, fun _ _ => rfl⟩
    intro c hc
    cases hc
  | cons c cs ih =>
    obtain ⟨hstart, htail⟩ := hrow
    have hcstop : c.stop ≤ stop := htail.le
    have hoffset : c.offset ≤ c.stop := Nat.le_add_right ..
    -- The bytes behind a cell are still blank once it has been written, and no later cell reaches
    -- back.
    obtain ⟨hsize', hcells, hfront⟩ := ih htail
      (fun d hd => hinside d (List.mem_cons_of_mem _ hd)) (b := write b c)
      (by rw [hsize]; exact hstop)
      (fun j hj => by rw [houtside b c j (.inr hj)]; exact hblank j (by omega))
    refine ⟨by rw [List.foldl_cons, hsize', hsize], ?_, ?_⟩
    · intro d hd
      rcases List.mem_cons.mp hd with rfl | hd
      · rw [List.foldl_cons, ← hinside d (List.mem_cons_self ..) b (by omega)
          fun j hj _ => hblank j (by omega)]
        apply Bytes.number_congr
        intro k hk
        exact hfront _ (by rw [Cell.stop]; omega)
      · exact hcells d hd
    · intro j hj
      rw [List.foldl_cons, hfront j (by omega), houtside b c j (.inl (by omega))]

/-- Writes a scalar or a native pointer into its cell; references are left alone. -/
def Cell.write (b : ByteArray) (c : Cell) : ByteArray :=
  match c.value with
  | .scalar x | .native x => Bytes.setValue b c.offset c.width x.toNat
  | .reference _ => b

namespace Cell

/-- Writing a cell keeps the size. -/
@[simp] theorem size_write (b : ByteArray) (c : Cell) : (c.write b).size = b.size := by
  rw [write]
  split <;> simp

/-- Writing a cell keeps the bytes on both sides of it. -/
theorem get_write (b : ByteArray) (c : Cell) (j : Nat) (hj : j < c.offset ∨ c.stop ≤ j) :
    Bytes.get (c.write b) j = Bytes.get b j := by
  have hout : ∀ x, Bytes.get (Bytes.setValue b c.offset c.width x) j = Bytes.get b j := by
    intro x
    rw [Cell.stop] at hj
    rw [Bytes.get_setValue, if_neg (by omega)]
  rw [write]
  split
  · exact hout _
  · exact hout _
  · rfl

/-- A cell whose bytes are wide enough for its value holds it once written, references as null. -/
theorem number_write {b : ByteArray} {c : Cell} (hstop : c.stop ≤ b.size)
    (hfits : ∀ x, c.value = .scalar x ∨ c.value = .native x → x.toNat < 256 ^ c.width)
    (hblank : ∀ j, c.offset ≤ j → j < c.stop → Bytes.get b j = 0) :
    Bytes.number (Bytes.get (c.write b)) c.offset c.width = c.value.number (fun _ => 0) id := by
  have hset : ∀ x : UInt64, x.toNat < 256 ^ c.width →
      Bytes.number (Bytes.get (Bytes.setValue b c.offset c.width x.toNat)) c.offset c.width =
        x.toNat := by
    intro x hx
    rw [← Bytes.valueAt_eq_number, Bytes.valueAt_setValue_self hstop, Nat.mod_eq_of_lt hx]
  rw [write]
  split
  · rename_i x hv
    rw [hset x (hfits x (.inl hv)), hv]
    rfl
  · rename_i x hv
    rw [hset x (hfits x (.inr hv)), hv]
    rfl
  · rename_i target hv
    -- References are not written. Their bytes are blank, which stands for null.
    have hzero : Bytes.number (Bytes.get b) c.offset c.width = 0 % 256 ^ c.width := by
      apply Bytes.number_of_bytes
      intro k hk
      rw [hblank _ (Nat.le_add_right ..) (by rw [Cell.stop]; omega), Bytes.byteOf, Nat.zero_div]
      rfl
    rw [hzero, hv, Nat.zero_mod]
    cases target <;> rfl

end Cell

/-! ## Bytes of an object -/

namespace SourceObject

/-- Writing fields is writing their cells. -/
theorem writeFields_eq (slot start : Nat) (vs : List FieldValue) (b : ByteArray) :
    writeFields b vs (RecordLayout.fieldOffsets slot start (vs.map FieldValue.kind)) =
      (fieldCells slot start vs).foldl Cell.write b := by
  rw [writeFields, zip_fieldOffsets, List.foldl_map]
  induction vs generalizing start b with
  | nil => rw [fieldCells, List.foldl_nil, List.foldl_nil]
  | cons v vs ih =>
    rw [fieldCells, List.foldl_cons, List.foldl_cons, ih]
    cases v with
    | scalar x => simp only [Cell.write, FieldValue.kind, FieldKind.width, Bytes.setWord]
    | native x => simp only [Cell.write, FieldValue.kind, FieldKind.width, Bytes.setWord]
    | reference target => simp only [Cell.write]

/-- Writing elements is writing their cells. -/
theorem writeElements_eq (size : Nat) (vs : List UInt64) (b : ByteArray) :
    writeElements b vs size =
      (elementCells size headerSize (vs.map .scalar)).foldl Cell.write b := by
  rw [writeElements, elementCells_eq, List.zipIdx_map, List.map_map, List.foldl_map]
  congr 1

/-- Writing an object is writing its cells behind its header. -/
theorem toBytes_eq {o : SourceObject} {kind : TypeKind} {slot : Nat} (hslot : IsSlotSize slot)
    (hfits : o.Fits kind) :
    o.toBytes kind o.length slot = (o.cells kind slot).foldl Cell.write
      (ObjectHeader.write o.header (Bytes.zeros (kind.objectSize o.length slot)) 0) := by
  cases kind with
  | record kinds =>
    obtain ⟨values, hpayload, hkinds⟩ := hfits
    rw [toBytes.eq_def, hpayload, cells, hpayload, Payload.values]
    simp only [TypeKind.layout?, RecordLayout.compute, hslot.slotWidth_eq, ← hkinds,
      writeFields_eq, header]
  | scalarArray size =>
    obtain ⟨values, hpayload, -⟩ := hfits
    rw [toBytes.eq_def, hpayload, cells, hpayload, Payload.values]
    simp only [writeElements_eq, header]
  | referenceArray =>
    obtain ⟨targets, hpayload⟩ := hfits
    -- An array of references has nothing to write but its header.
    have hskip : ∀ (cs : List Cell) b, (∀ c ∈ cs, ∃ target, c.value = .reference target) →
        cs.foldl Cell.write b = b := by
      intro cs
      induction cs with
      | nil => exact fun _ _ => rfl
      | cons c cs ih =>
        intro b hcs
        obtain ⟨target, hv⟩ := hcs c (List.mem_cons_self ..)
        rw [List.foldl_cons, Cell.write, hv]
        exact ih b fun d hd => hcs d (List.mem_cons_of_mem _ hd)
    rw [hskip]
    · rw [toBytes.eq_def, hpayload]
      simp only [header]
    · intro c hc
      obtain ⟨target, -, hv⟩ := exists_of_mem_elementCells (congrArg Payload.values hpayload) hc
      exact ⟨target, hv.symm⟩

end SourceObject

/-- A header that was written where it fits is there. -/
theorem ObjectHeader.number_write (h : ObjectHeader) {b : ByteArray} {i : Nat}
    (hsize : i + headerSize ≤ b.size) :
    Bytes.number (Bytes.get (h.write b i)) i wordSize = h.mark.toNat ∧
      Bytes.number (Bytes.get (h.write b i)) (i + wordSize) wordSize = h.layoutWord.toNat := by
  have hhead : headerSize = wordSize + wordSize := rfl
  have hword : ∀ x : UInt64, x.toNat % 256 ^ wordSize = x.toNat :=
    fun x => Nat.mod_eq_of_lt x.toNat_lt
  rw [write, Bytes.setWord, Bytes.setWord, ← Bytes.valueAt_eq_number, ← Bytes.valueAt_eq_number]
  constructor
  · rw [Bytes.valueAt_setValue_of_disjoint (.inl (Nat.le_refl _)),
      Bytes.valueAt_setValue_self (by omega), hword]
  · rw [Bytes.valueAt_setValue_self (by rw [Bytes.size_setValue]; omega), hword]

/-- Writing a header keeps the bytes on both sides of it. -/
theorem ObjectHeader.get_write (h : ObjectHeader) {b : ByteArray} {i j : Nat}
    (hj : j < i ∨ i + headerSize ≤ j) : Bytes.get (h.write b i) j = Bytes.get b j := by
  have hhead : headerSize = wordSize + wordSize := rfl
  rw [write, Bytes.setWord, Bytes.setWord, Bytes.get_setValue, if_neg (by omega),
    Bytes.get_setValue, if_neg (by omega)]

/-- **The bytes of an object are those of a member** with null for all references. -/
theorem SourceObject.heldAt_toBytes {m : Member} {g : ObjectGraph} {r : TypeRegistry}
    {roots : List ObjectId} {slot : Nat} (hm : m.Of g r roots) (hslot : IsSlotSize slot) :
    (m.object.toBytes m.type.kind m.object.length slot).size = m.size slot ∧
      m.HeldAt slot (fun _ => 0) id
        (Bytes.get (m.object.toBytes m.type.kind m.object.length slot)) 0 := by
  have hsize := m.headerSize_le_size slot
  have hblank : ∀ j, headerSize ≤ j →
      Bytes.get (m.object.header.write (Bytes.zeros (m.size slot)) 0) j = 0 := by
    intro j hj
    rw [ObjectHeader.get_write _ (.inr (by rwa [Nat.zero_add])), Bytes.get_zeros]
  -- A number is cut off by its width unless it fits, which the check of the object has made sure
  -- of.
  have hfits : ∀ c ∈ m.cells slot, ∀ x, c.value = .scalar x ∨ c.value = .native x →
      x.toNat < 256 ^ c.width := by
    rintro c hc x (hv | hv)
    · rcases SourceObject.width_of_mem_cells hslot hm.fits hc with ⟨hk, -⟩ | ⟨hk, -⟩ | ⟨y, hy, hlt⟩
      · rw [hv] at hk
        cases hk
      · rw [hv] at hk
        cases hk
      · rw [hv] at hy
        cases hy
        exact hlt
    · rw [(hm.width_of_native hslot hc hv).1]
      exact x.toNat_lt
  obtain ⟨hwritten, hcells, hfront⟩ := (hm.row_cells hslot).written
    Cell.write (fun c => c.value.number (fun _ => 0) id)
    Cell.size_write Cell.get_write
    (fun c hc b hstop hzero => Cell.number_write hstop (hfits c hc) hzero)
    (b := m.object.header.write (Bytes.zeros (m.size slot)) 0) (by simp) hblank
  obtain ⟨hmark, hlayout⟩ := m.object.header.number_write (b := Bytes.zeros (m.size slot)) (i := 0)
    (by rw [Bytes.size_zeros, Nat.zero_add]; exact hsize)
  rw [SourceObject.toBytes_eq hslot hm.fits]
  refine ⟨by rw [← Member.cells, ← Member.size, hwritten]; simp, ?_, ?_, ?_⟩
  · refine Eq.trans ?_ hmark
    exact Bytes.number_congr fun k hk => hfront _ (by rw [headerSize]; omega)
  · refine Eq.trans ?_ hlayout
    exact Bytes.number_congr fun k hk => hfront _ (by rw [headerSize]; omega)
  · intro c hc
    rw [Nat.zero_add]
    exact hcells c hc

/-! ## Decisions of staging -/

/-- A type is found exactly if the registry has it. -/
theorem TypeRegistry.require_eq_ok {r : TypeRegistry} {i : TypeIndex} {type : TypeInfo} :
    r.require i = .ok type ↔ r.get? i = some type := by
  rw [require]
  split
  · rename_i t ht
    rw [ht]
    simp
  · rename_i ht
    rw [ht]
    simp

/-- An object resolves exactly if the graph has it and the registry has its type. -/
theorem ObjectGraph.resolve_eq_ok {g : ObjectGraph} {r : TypeRegistry} {id : ObjectId}
    {o : SourceObject} {type : TypeInfo} :
    g.resolve r id = .ok (o, type) ↔ g.get? id = some o ∧ r.get? o.typeIndex = some type := by
  rw [resolve]
  split
  · rename_i hget
    rw [hget]
    simp
  · rename_i o' hget
    rw [hget, Except.bind_eq_ok]
    constructor
    · rintro ⟨type', htype, h⟩
      cases h
      exact ⟨rfl, TypeRegistry.require_eq_ok.mp htype⟩
    · rintro ⟨hobject, htype⟩
      cases hobject
      exact ⟨type, TypeRegistry.require_eq_ok.mpr htype, rfl⟩

/-- An object that passes the check is in the graph, has a registered type and fits it. -/
theorem ObjectGraph.of_check {g : ObjectGraph} {r : TypeRegistry} {id : ObjectId}
    {o : SourceObject} {type : TypeInfo} (h : g.check r id = .ok (o, type)) :
    g.get? id = some o ∧ r.get? o.typeIndex = some type ∧ o.Fits type.kind := by
  rw [check, Except.bind_eq_ok] at h
  obtain ⟨⟨o', type'⟩, hresolve, h⟩ := h
  obtain ⟨hget, htype⟩ := resolve_eq_ok.mp hresolve
  dsimp only at h
  split at h
  · rename_i hpayload
    cases h
    exact ⟨hget, htype, SourceObject.fits_of_checkPayload hpayload⟩
  · cases h

/-- The elements of the root array only matter for the root array. -/
theorem Member.Of.of_id {m : Member} {g : ObjectGraph} {r : TypeRegistry}
    {roots roots' : List ObjectId} (h : m.Of g r roots) (hid : m.id ≠ none) :
    m.Of g r roots' where
  object := h.object
  root hnone := absurd hnone hid
  type := h.type
  fits := h.fits
  length_lt := h.length_lt

namespace StagingBuffer

variable {s : StagingBuffer} {g : ObjectGraph} {r : TypeRegistry} {roots : List ObjectId}

/-- There is room exactly if the object fits in the capacity. -/
theorem checkRoom_eq_ok {size : Nat} {u : Unit} :
    s.checkRoom size = .ok u ↔ s.size + size ≤ s.capacity := by
  rw [checkRoom]
  split
  · rename_i h
    simp only [reduceCtorEq, false_iff]
    omega
  · rename_i h
    simp only [true_iff]
    omega

/-- What is staged is new, fits its type, and fits the buffer. -/
theorem of_prepare (roots : List ObjectId) {id : ObjectId} {object : ByteArray}
    (h : s.prepare g r id = .ok object)
    (region : Region) :
    s.slotOf? id = none ∧ ∃ m : Member, m.id = some id ∧ m.region = region ∧ m.Of g r roots ∧
      m.size s.slotSize ≤ s.alignment ∧ s.size + m.size s.slotSize ≤ s.capacity ∧
      object = m.object.toBytes m.type.kind m.object.length s.slotSize := by
  simp only [prepare, Except.guard_eq_ok, Except.bind_eq_ok, Except.pure_eq_ok,
    checkRoom_eq_ok] at h
  obtain ⟨hnew, ⟨o, type⟩, hcheck, hlength, hsize, -, hroom, rfl⟩ := h
  obtain ⟨hget, htype, hfits⟩ := ObjectGraph.of_check hcheck
  refine ⟨by simpa using hnew, ⟨some id, region, o, type⟩, rfl, rfl, ?_, Nat.not_lt.mp hsize,
    hroom, rfl⟩
  refine ⟨?_, ?_, htype, hfits, Nat.not_le.mp hlength⟩
  · intro id' hid
    rw [← Option.some.inj hid]
    exact hget
  · intro hid
    cases hid

/-- The root array is staged once, and fits the buffer. -/
theorem of_prepareRoots {array : ByteArray} (h : s.prepareRoots roots = .ok array) :
    s.roots = none ∧ ∃ m : Member, m.id = none ∧ m.region = .opened ∧ m.Of g r roots ∧
      m.size s.slotSize ≤ s.alignment ∧ s.size + m.size s.slotSize ≤ s.capacity ∧
      array = m.object.toBytes m.type.kind m.object.length s.slotSize := by
  simp only [prepareRoots, Except.guard_eq_ok, Except.bind_eq_ok, Except.pure_eq_ok,
    checkRoom_eq_ok] at h
  obtain ⟨hnew, hlength, hsize, -, hroom, rfl⟩ := h
  have hcount : (rootObject roots).length = UInt32.ofNat roots.length := by
    rw [SourceObject.length, rootObject, Payload.length, List.length_map]
  refine ⟨by simpa using hnew, ⟨none, .opened, rootObject roots, .rootArray⟩, rfl, rfl, ?_, ?_, ?_,
    ?_⟩
  · refine ⟨?_, fun _ => ⟨rfl, rfl⟩, r.first, ⟨_, rfl⟩, ?_⟩
    · intro id hid
      cases hid
    · rw [rootObject, Payload.length, List.length_map]
      exact Nat.not_le.mp hlength
  · rw [Member.size, hcount]
    exact Nat.not_lt.mp hsize
  · rw [Member.size, hcount]
    exact hroom
  · rw [SourceObject.toBytes.eq_def]
    simp only [hcount]
    rfl

/-! ## Members in a buffer -/

/-- The record that the buffer keeps of a staged object; the root array has one of its own. -/
def stagedOf (slot : Nat) (x : Placed) : Option StagedObject :=
  x.member.id.map fun id => ⟨id, x.member.region, x.offset, x.member.size slot⟩

/-- The members `xs` stand in the buffer, with the numbers `ref` in place of references. -/
structure Stages (s : StagingBuffer) (g : ObjectGraph) (r : TypeRegistry) (roots : List ObjectId)
    (ref : ObjectId → Nat) (xs : List Placed) : Prop where
  row : Placed.Row s.slotSize 0 xs s.size
  fits : s.size ≤ s.capacity
  of : ∀ x ∈ xs, x.member.Of g r roots
  held : ∀ x ∈ xs, x.Held s.slotSize ref id (Bytes.get s.bytes)
  size_le : ∀ x ∈ xs, x.member.size s.slotSize ≤ s.alignment
  objects : s.objects.toList = xs.filterMap (stagedOf s.slotSize)
  slotOf : ∀ id p, s.slotOf? id = some p ↔ ∃ x ∈ xs, x.member.id = some id ∧ x.offset = p
  distinct : (xs.map fun x => x.member.id).Nodup

/-- An empty buffer stages nothing. -/
theorem stages_empty (g : ObjectGraph) (r : TypeRegistry) (roots : List ObjectId)
    (ref : ObjectId → Nat) (capacity slotSize alignment : Nat) :
    (empty capacity slotSize alignment).Stages g r roots ref [] where
  row := rfl
  fits := Nat.zero_le _
  of x hx := nomatch hx
  held x hx := nomatch hx
  size_le x hx := nomatch hx
  objects := rfl
  slotOf id p := by
    simp [slotOf?, empty]
  distinct := .nil

/-- What staging a member does to bytes and places, for an object and for the root array. -/
theorem Stages.append {xs : List Placed} {t : StagingBuffer} {m : Member}
    (h : s.Stages g r roots (fun _ => 0) xs) (hslot : IsSlotSize s.slotSize) (hm : m.Of g r roots)
    (hsize : m.size s.slotSize ≤ s.alignment) (hroom : s.size + m.size s.slotSize ≤ s.capacity)
    (hnew : m.id ∉ xs.map fun x => x.member.id)
    (hslotSize : t.slotSize = s.slotSize) (halignment : t.alignment = s.alignment)
    (hcapacity : t.capacity = s.capacity)
    (hbytes : t.bytes = s.bytes ++ m.object.toBytes m.type.kind m.object.length s.slotSize)
    (hobjects : t.objects.toList = s.objects.toList ++ (stagedOf s.slotSize ⟨m, s.size⟩).toList)
    (hslots : ∀ id, t.slotOf? id = if m.id = some id then some s.size else s.slotOf? id) :
    t.Stages g r roots (fun _ => 0) (xs ++ [⟨m, s.size⟩]) := by
  obtain ⟨hlength, hheld⟩ := SourceObject.heldAt_toBytes hm hslot
  have htsize : t.size = s.size + m.size s.slotSize := by
    rw [size, size, hbytes, ByteArray.size_append, hlength]
  constructor
  case row =>
    rw [hslotSize, htsize]
    exact h.row.concat rfl
  case fits =>
    rw [htsize, hcapacity]
    exact hroom
  case of => exact List.forall_mem_append.mpr ⟨h.of, List.forall_mem_singleton.mpr hm⟩
  case held =>
    rw [hslotSize, hbytes]
    refine List.forall_mem_append.mpr ⟨?_, List.forall_mem_singleton.mpr ?_⟩
    · intro x hx
      apply (h.held x hx).congr (h.of x hx) hslot
      intro k hk
      have hstop := (h.row.bounds x hx).2
      rw [size] at hstop
      rw [Bytes.get_append, if_pos (by omega)]
    · apply hheld.congr hm hslot
      intro k hk
      change Bytes.get _ (s.bytes.size + k) = _
      rw [Bytes.get_append, if_neg (by omega), Nat.add_sub_cancel_left, Nat.zero_add]
  case size_le =>
    rw [hslotSize, halignment]
    exact List.forall_mem_append.mpr ⟨h.size_le, List.forall_mem_singleton.mpr hsize⟩
  case objects =>
    rw [hslotSize, hobjects, h.objects, List.filterMap_append, List.filterMap_cons,
      List.filterMap_nil]
    cases stagedOf s.slotSize ⟨m, s.size⟩ <;> rfl
  -- The new member is found under its identity only, which no other member has.
  case slotOf =>
    intro id p
    rw [hslots]
    split
    · rename_i hid
      constructor
      · intro hp
        exact ⟨⟨m, s.size⟩, by simp, hid, Option.some.inj hp⟩
      · rintro ⟨x, hx, hxid, rfl⟩
        rcases List.mem_append.mp hx with hx | hx
        · exact absurd (List.mem_map.mpr ⟨x, hx, hxid.trans hid.symm⟩) hnew
        · rw [List.mem_singleton.mp hx]
    · rename_i hid
      rw [h.slotOf]
      constructor
      · rintro ⟨x, hx, hp⟩
        exact ⟨x, List.mem_append_left _ hx, hp⟩
      · rintro ⟨x, hx, hxid, hp⟩
        rcases List.mem_append.mp hx with hx | hx
        · exact ⟨x, hx, hxid, hp⟩
        · rw [List.mem_singleton.mp hx] at hxid
          exact absurd hxid hid
  case distinct =>
    rw [List.map_append, List.map_singleton]
    refine List.nodup_append.mpr ⟨h.distinct, List.pairwise_singleton .., ?_⟩
    rintro a ha b hb rfl
    exact hnew (List.mem_singleton.mp hb ▸ ha)

/-- Objects are told apart by their keys. -/
theorem key_inj {id id' : ObjectId} : id.key = id'.key ↔ id = id' := by
  cases id
  cases id'
  simp [ObjectId.key, UInt32.toNat_inj]

/-- **Staging an object** appends a member. -/
theorem Stages.push {xs : List Placed} {id : ObjectId} {object : ByteArray}
    (h : s.Stages g r roots (fun _ => 0) xs) (hslot : IsSlotSize s.slotSize)
    (hprepare : s.prepare g r id = .ok object) (region : Region) :
    ∃ x : Placed, x.member.id = some id ∧ x.member.region = region ∧
      (s.push id region object).Stages g r roots (fun _ => 0) (xs ++ [x]) := by
  obtain ⟨hnew, m, hid, hregion, hm, hsize, hroom, rfl⟩ := of_prepare roots hprepare region
  refine ⟨⟨m, s.size⟩, hid, hregion, h.append hslot hm hsize hroom ?_ rfl rfl rfl rfl ?_ ?_⟩
  · intro hmem
    obtain ⟨x, hx, hxid⟩ := List.mem_map.mp hmem
    rw [(h.slotOf id x.offset).mpr ⟨x, hx, hxid.trans hid, rfl⟩] at hnew
    cases hnew
  · rw [StagingBuffer.push, Array.toList_push, stagedOf, hid, hregion,
      (SourceObject.heldAt_toBytes hm hslot).1]
    rfl
  · intro id'
    rw [slotOf?, StagingBuffer.push, Std.TreeMap.getElem?_insert, hid]
    simp only [Std.LawfulEqCmp.compare_eq_iff_eq, key_inj, Option.some.injEq, slotOf?]

/-- **Staging the root array** appends a member. -/
theorem Stages.pushRoots {xs : List Placed} {array : ByteArray}
    (h : s.Stages g r roots (fun _ => 0) xs) (hslot : IsSlotSize s.slotSize)
    (hobjects : ∀ x ∈ xs, x.member.id ≠ none) (hprepare : s.prepareRoots roots = .ok array) :
    ∃ x : Placed, x.member.id = none ∧ x.member.region = .opened ∧
      (s.pushRoots roots array).roots = some ⟨x.offset, x.member.size s.slotSize, roots⟩ ∧
      (s.pushRoots roots array).Stages g r roots (fun _ => 0) (xs ++ [x]) := by
  obtain ⟨-, m, hid, hregion, hm, hsize, hroom, rfl⟩ := of_prepareRoots (r := r) (g := g) hprepare
  refine ⟨⟨m, s.size⟩, hid, hregion, ?_, h.append hslot hm hsize hroom ?_ rfl rfl rfl rfl ?_ ?_⟩
  · rw [StagingBuffer.pushRoots, (SourceObject.heldAt_toBytes hm hslot).1]
  · intro hmem
    obtain ⟨x, hx, hxid⟩ := List.mem_map.mp hmem
    exact hobjects x hx (hxid.trans hid)
  · rw [StagingBuffer.pushRoots, stagedOf, hid, Option.map_none, Option.toList_none,
      List.append_nil]
  · intro id'
    rw [hid]
    rfl

/-- Without a root array, what is staged does not depend on the roots. -/
theorem Stages.of_ids {ref : ObjectId → Nat} {roots' : List ObjectId} {xs : List Placed}
    (h : s.Stages g r roots ref xs) (hid : ∀ x ∈ xs, x.member.id ≠ none) :
    s.Stages g r roots' ref xs where
  row := h.row
  fits := h.fits
  of x hx := (h.of x hx).of_id (hid x hx)
  held := h.held
  size_le := h.size_le
  objects := h.objects
  slotOf := h.slotOf
  distinct := h.distinct

/-! ## Everything in a buffer -/

/-- The members `xs` stand in the buffer, among them the root array if there is one. -/
structure Stocks (s : StagingBuffer) (g : ObjectGraph) (r : TypeRegistry) (roots : List ObjectId)
    (ref : ObjectId → Nat) (xs : List Placed) : Prop where
  stages : s.Stages g r roots ref xs
  rootless : s.roots = none → ∀ x ∈ xs, x.member.id ≠ none
  rooted : ∀ root, s.roots = some root → ∃ x ∈ xs, x.member.id = none ∧
    root = ⟨x.offset, x.member.size s.slotSize, roots⟩

/-- An empty buffer stocks nothing. -/
theorem stocks_empty (g : ObjectGraph) (r : TypeRegistry) (capacity slotSize alignment : Nat) :
    (empty capacity slotSize alignment).Stocks g r [] (fun _ => 0) [] where
  stages := stages_empty ..
  rootless _ _ hx := nomatch hx
  rooted _ h := nomatch h

/-- A buffer with a root array among its members. -/
theorem Stages.stocks {ref : ObjectId → Nat} {xs : List Placed} {x : Placed}
    (h : s.Stages g r roots ref xs) (hx : x ∈ xs) (hid : x.member.id = none)
    (hroots : s.roots = some ⟨x.offset, x.member.size s.slotSize, roots⟩) :
    s.Stocks g r roots ref xs where
  stages := h
  rootless hnone := nomatch hroots.symm.trans hnone
  rooted _ hroot := ⟨x, hx, hid, Option.some.inj (hroot.symm.trans hroots)⟩

namespace Stocks

variable {xs : List Placed}

/-- The root array is the only member that is no object of the graph. -/
theorem roots_eq {ref : ObjectId → Nat} {x : Placed} (h : s.Stocks g r roots ref xs) (hx : x ∈ xs)
    (hid : x.member.id = none) :
    s.roots = some ⟨x.offset, x.member.size s.slotSize, roots⟩ := by
  cases hroots : s.roots with
  | none => exact absurd hid (h.rootless hroots x hx)
  | some root =>
    obtain ⟨y, hy, hyid, rfl⟩ := h.rooted root hroots
    obtain rfl : y = x := List.inj_on_of_nodup_map h.stages.distinct hy hx (hyid.trans hid.symm)
    rfl

/-- **Staging an object** appends it. -/
theorem push {id : ObjectId} {object : ByteArray} (h : s.Stocks g r roots (fun _ => 0) xs)
    (hslot : IsSlotSize s.slotSize) (hprepare : s.prepare g r id = .ok object) (region : Region) :
    ∃ x : Placed, x.member.id = some id ∧ x.member.region = region ∧
      (s.push id region object).Stocks g r roots (fun _ => 0) (xs ++ [x]) := by
  obtain ⟨x, hid, hregion, hpush⟩ := h.stages.push hslot hprepare region
  refine ⟨x, hid, hregion, hpush, ?_, ?_⟩
  · intro hnone
    refine List.forall_mem_append.mpr ⟨h.rootless hnone, List.forall_mem_singleton.mpr ?_⟩
    rw [hid]
    exact Option.some_ne_none id
  · intro root hroot
    obtain ⟨y, hy, hyid⟩ := h.rooted root hroot
    exact ⟨y, List.mem_append_left _ hy, hyid⟩

/-- **Staging the root array** appends it; up to then its elements do not matter. -/
theorem pushRoots {roots' : List ObjectId} {array : ByteArray}
    (h : s.Stocks g r roots' (fun _ => 0) xs) (hslot : IsSlotSize s.slotSize)
    (hprepare : s.prepareRoots roots = .ok array) : ∃ x : Placed, x.member.id = none ∧
      (s.pushRoots roots array).Stocks g r roots (fun _ => 0) (xs ++ [x]) := by
  have hnone := (of_prepareRoots (r := r) (g := g) hprepare).1
  obtain ⟨x, hid, -, hroot, hpush⟩ :=
    (h.stages.of_ids (h.rootless hnone)).pushRoots hslot (h.rootless hnone) hprepare
  exact ⟨x, hid, hpush.stocks (by simp) hid hroot⟩

end Stocks

end StagingBuffer

end HeapImage
