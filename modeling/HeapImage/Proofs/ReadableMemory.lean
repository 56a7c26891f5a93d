import HeapImage.Proofs.KeptSnapshots

/-! # Memory that can be read

Arenas and mapped images are made of contiguous extents, so any part of memory that can be read as a
whole can be read on its own, and there are no more places to read from than bytes. Nothing else has
to be known of memory to read the objects in it.

* `Memory.Readable`: memory of which every part can be read.
* `Memory.Contiguous`: what arenas and mapped images have in common.
* `ObjectView.exists_field`: the fields of an object in readable memory.
* `ObjectView.slot_of_field`: the slot of a field that is a reference. -/

namespace HeapImage

namespace Memory

variable {μ : Type} [Memory μ] {heap : μ} {a b m n : Nat}

/-- Every part of the `n` bytes at an address can be read. -/
def Readable (heap : μ) (a n : Nat) : Prop :=
  ∀ i len, 0 < len → a ≤ i → i + len ≤ a + n → (read? heap i len).isSome = true

/-- A part of readable memory is readable. -/
theorem Readable.part (h : Readable heap a n) (hle : a ≤ b) (hstop : b + m ≤ a + n) :
    Readable heap b m := by
  intro i len hlen hlow hhigh
  exact h i len hlen (Nat.le_trans hle hlow) (Nat.le_trans hhigh hstop)

/-- There is a number in readable memory. -/
theorem Readable.exists_readValue? (h : Readable heap a n) (hn : 0 < n) :
    ∃ value, readValue? heap a n = some value := by
  obtain ⟨bytes, hbytes⟩ :=
    Option.isSome_iff_exists.mp (h a n hn (Nat.le_refl _) (Nat.le_refl _))
  exact ⟨_, congrArg (Option.map fun b => Bytes.valueAt b 0 n) hbytes⟩

/-- What can be read as a whole can be read in parts, at no more places than there are bytes. -/
structure Contiguous (heap : μ) : Prop where
  readable : ∀ a n, (read? heap a n).isSome = true → Readable heap a n
  length_le : ∀ places : List Nat, places.Nodup →
    (∀ a ∈ places, ∃ n, 0 < n ∧ (read? heap a n).isSome = true) → places.length ≤ extent heap

end Memory

/-! ## Arenas -/

namespace Arena

variable {h : Arena} {a n : Nat}

/-- What can be read lies in one chunk. -/
theorem WellFormed.exists_chunk_of_read? (hw : h.WellFormed)
    (hread : (h.read? a n).isSome = true) :
    ∃ c ∈ h.chunks.toList, c.base ≤ a ∧ a < c.base + c.size ∧ a + n ≤ c.base + c.size := by
  obtain ⟨bytes, hbytes⟩ := Option.isSome_iff_exists.mp hread
  rw [read?, hw.chunkOf?_eq] at hbytes
  obtain ⟨c, hfind, hc⟩ := Option.bind_eq_some_iff.mp hbytes
  rw [chunkAt?] at hfind
  have hcontains := List.find?_some hfind
  obtain ⟨hbase, hstop⟩ := Chunk.contains_iff.mp hcontains
  exact ⟨c, List.mem_of_find?_eq_some hfind, hbase, hstop, (Chunk.read?_eq_some hc hbase).2.1⟩

/-- What lies in one chunk can be read. -/
theorem WellFormed.isSome_read? (hw : h.WellFormed) {c : Chunk} (hc : c ∈ h.chunks.toList)
    (hbase : c.base ≤ a) (hn : 0 < n) (hstop : a + n ≤ c.base + c.size) :
    (h.read? a n).isSome = true := by
  have hfind := (chunkAt?_eq_some hw).mpr ⟨hc, Chunk.contains_iff.mpr ⟨hbase, by omega⟩⟩
  have hin : c.hasBytes a n = true := by
    rw [Chunk.hasBytes, decide_eq_true_eq]
    omega
  rw [Arena.read?, hw.chunkOf?_eq, hfind]
  change (c.read? a n).isSome = true
  rw [Chunk.read?, if_pos hin]
  rfl

/-- The memory of an arena is contiguous. -/
theorem WellFormed.contiguous (hw : h.WellFormed) : Memory.Contiguous h where
  readable a n hread := by
    obtain ⟨c, hc, hbase, -, hstop⟩ := hw.exists_chunk_of_read? hread
    intro i len hlen hlow hhigh
    exact hw.isSome_read? hc (Nat.le_trans hbase hlow) hlen (Nat.le_trans hhigh hstop)
  length_le places hnodup hplaces := length_le_of_chunks hnodup fun a ha => by
    obtain ⟨n, -, hread⟩ := hplaces a ha
    obtain ⟨c, hc, hbase, hlt, -⟩ := hw.exists_chunk_of_read? hread
    exact ⟨c, hc, hbase, hlt⟩

end Arena

/-! ## Mapped images -/

namespace MappedHeap

variable {h : MappedHeap} {a n : Nat}

/-- A mapped heap can be read exactly inside its image. -/
theorem isSome_read?_iff : (Memory.read? h a n).isSome = true ↔
    h.base ≤ a ∧ a + n ≤ h.base + h.image.size := by
  change (if a < h.base then none else Bytes.slice? h.image (a - h.base) n).isSome = true ↔ _
  by_cases hbase : a < h.base
  · rw [if_pos hbase]
    constructor
    · exact nofun
    · intro hin
      omega
  · rw [if_neg hbase, Bytes.slice?]
    by_cases hfits : a - h.base + n ≤ h.image.size
    · rw [if_pos hfits]
      exact ⟨fun _ => by omega, fun _ => rfl⟩
    · rw [if_neg hfits]
      constructor
      · exact nofun
      · intro hin
        omega

/-- The memory of a mapped heap is contiguous. -/
theorem contiguous (h : MappedHeap) : Memory.Contiguous h where
  readable a n hread := by
    obtain ⟨hbase, hstop⟩ := isSome_read?_iff.mp hread
    intro i len _ hlow hhigh
    exact isSome_read?_iff.mpr ⟨Nat.le_trans hbase hlow, Nat.le_trans hhigh hstop⟩
  length_le places hnodup hplaces := by
    have hsubset : places ⊆ List.range' h.base h.image.size := by
      intro a ha
      obtain ⟨n, hn, hread⟩ := hplaces a ha
      obtain ⟨hbase, hstop⟩ := isSome_read?_iff.mp hread
      exact List.mem_range'_1.mpr ⟨hbase, by omega⟩
    have hle := (List.subperm_of_subset hnodup hsubset).length_le
    rwa [List.length_range'] at hle

end MappedHeap

/-! ## Objects -/

namespace ObjectView

variable {μ : Type} [Memory μ] {heap : μ} {types : TypeRegistry} {e : ReferenceEncoding}
variable {v : ObjectView} {a b i n : Nat}

/-- A number in readable memory can be read. -/
theorem exists_valueAt (h : Memory.Readable heap a n) (hn : 0 < n) :
    ∃ value, valueAt heap a n = .ok value := by
  obtain ⟨value, hvalue⟩ := h.exists_readValue? hn
  refine ⟨value, ?_⟩
  rw [valueAt, hvalue]

/-- A reference in readable memory can be read. -/
theorem exists_referenceAt (h : Memory.Readable heap a e.slotSize) :
    ∃ value, referenceAt heap e a = .ok value := by
  obtain ⟨value, hvalue⟩ := exists_valueAt h e.isSlotSize.pos
  exact ⟨_, Except.bind_eq_ok.mpr ⟨value, hvalue, rfl⟩⟩

/-- A field in readable memory can be read. -/
theorem exists_fieldAt {kind : FieldKind} (h : Memory.Readable heap a (kind.width e.slotSize)) :
    ∃ value, fieldAt heap e kind a = .ok value := by
  cases kind with
  | scalar | native =>
    obtain ⟨value, hvalue⟩ := exists_valueAt (n := wordSize) h (by decide)
    exact ⟨_, Except.bind_eq_ok.mpr ⟨value, hvalue, rfl⟩⟩
  | reference => exact exists_referenceAt h

/-- **The fields of an object** whose bytes can all be read are there, one for each unit of its
length. -/
theorem exists_field (hkind : v.type.kind.fault? = none)
    (haccepts : v.type.kind.acceptsLength v.header.length = true)
    (hreads : Memory.Readable heap v.address
      (v.type.kind.objectSize v.header.length e.slotSize)) (hi : i < v.length) :
    ∃ value, v.field heap e i = .ok value := by
  have hslot := e.isSlotSize
  -- Every field is a part of the object.
  have hpart : ∀ {offset len},
      offset + len ≤ v.type.kind.objectSize v.header.length e.slotSize →
      Memory.Readable heap (v.address + offset) len := by
    intro offset len hstop
    exact hreads.part (Nat.le_add_right ..) (by omega)
  unfold field
  rw [if_neg (Nat.not_le.mpr hi)]
  cases hshape : v.type.kind with
  | record kinds =>
    rw [hshape] at hpart haccepts
    have hlength : kinds.length = v.length := beq_iff_eq.mp haccepts
    have hfields : i < kinds.length := hlength ▸ hi
    have hfield := List.getElem?_eq_getElem hfields
    have hoffsets : i < (RecordLayout.fieldOffsets e.slotSize headerSize kinds).length := by
      rw [RecordLayout.length_fieldOffsets]
      exact hfields
    have hoffset : (RecordLayout.compute kinds e.slotSize).offsets[i]? =
        some (RecordLayout.fieldOffsets e.slotSize headerSize kinds)[i] :=
      List.getElem?_eq_getElem hoffsets
    dsimp only
    rw [hfield, hoffset]
    apply exists_fieldAt
    have hmem : (kinds[i], (RecordLayout.fieldOffsets e.slotSize headerSize kinds)[i]) ∈
        kinds.zip (RecordLayout.fieldOffsets e.slotSize headerSize kinds) :=
      List.mem_of_getElem? (List.getElem?_zip_eq_some.mpr ⟨hfield, hoffset⟩)
    exact hpart (TypeKind.field_stop_le hslot hmem).2
  | scalarArray size =>
    rw [hshape] at hkind hpart
    obtain ⟨value, hvalue⟩ := exists_valueAt (hpart (TypeKind.element_stop_le hi))
      (TypeKind.elementSize_pos hkind)
    exact ⟨_, Except.bind_eq_ok.mpr ⟨value, hvalue, rfl⟩⟩
  | referenceArray =>
    rw [hshape] at hpart
    exact exists_referenceAt (hpart (TypeKind.element_stop_le hi))

/-- A reference that is not null is what its slot stands for. -/
theorem of_referenceAt (h : referenceAt heap e a = .ok (.reference (some b))) :
    ∃ value, Memory.readValue? heap a e.slotSize = some value ∧ value ≠ 0 ∧ e.decode value = b := by
  obtain ⟨value, hvalue, h⟩ := Except.bind_eq_ok.mp h
  rw [valueAt] at hvalue
  split at hvalue
  · rename_i value' hread
    cases hvalue
    by_cases hzero : value = 0
    · rw [if_pos hzero] at h
      cases h
    · rw [if_neg hzero] at h
      cases h
      exact ⟨value, hread, hzero, rfl⟩
  · cases hvalue

/-- A field that is a reference was read as one. -/
theorem of_fieldAt {kind : FieldKind} (h : fieldAt heap e kind a = .ok (.reference (some b))) :
    kind = .reference ∧ referenceAt heap e a = .ok (.reference (some b)) := by
  cases kind with
  | scalar | native =>
    obtain ⟨value, -, h⟩ := Except.bind_eq_ok.mp h
    cases h
  | reference => exact ⟨rfl, h⟩

/-- **A field that is a reference** is read from one of the reference slots of its object. -/
theorem slot_of_field (h : v.field heap e i = .ok (.reference (some b))) :
    ∃ k ∈ v.type.kind.referenceOffsets v.header.length e.slotSize, ∃ value,
      Memory.readValue? heap (v.address + k) e.slotSize = some value ∧ value ≠ 0 ∧
        e.decode value = b := by
  unfold field at h
  split at h
  · cases h
  rename_i hi
  cases hshape : v.type.kind with
  | record kinds =>
    rw [hshape] at h
    dsimp only at h
    split at h
    · rename_i kind offset hfield hoffset
      -- Of the fields of a record, only references can lead somewhere.
      obtain ⟨rfl, h⟩ := of_fieldAt h
      refine ⟨offset, ?_, of_referenceAt h⟩
      rw [TypeKind.referenceOffsets, e.isSlotSize.slotWidth_eq]
      exact List.mem_filterMap.mpr ⟨(.reference, offset),
        List.mem_of_getElem? (List.getElem?_zip_eq_some.mpr ⟨hfield, hoffset⟩), rfl⟩
    · cases h
  | scalarArray size =>
    rw [hshape] at h
    obtain ⟨value, -, h⟩ := Except.bind_eq_ok.mp h
    cases h
  | referenceArray =>
    rw [hshape] at h
    exact ⟨_, List.mem_map_of_mem (List.mem_range.mpr (Nat.not_le.mp hi)), of_referenceAt h⟩

end ObjectView

end HeapImage
