import HeapImage.Proofs.Cells
import HeapImage.Proofs.CheckedWalks

/-! # Where the fields of an object are

A type says which fields its objects have, and its layout says where. The lists of offsets that a
walk goes through hold exactly the places of the fields of one kind, each of them once.

* `TypeKind.FieldAt`: an object has a field of some kind at an offset.
* `TypeKind.mem_referenceOffsets`, `TypeKind.mem_nativeOffsets`: the lists of offsets.
* `TypeKind.FieldAt.dvd`, `TypeKind.nodup_referenceOffsets`: places are multiples of the width of
  the field, and no two are the same. -/

namespace HeapImage

/-! ## Records -/

namespace RecordLayout

variable {fields : List FieldKind} {field : FieldKind} {slot start offset : Nat}

/-- A field is listed for its kind, with its offset. -/
theorem mem_offsetsOf {l : RecordLayout} : offset ∈ l.offsetsOf fields field ↔
    ∃ i : Nat, fields[i]? = some field ∧ l.offsets[i]? = some offset := by
  constructor
  · intro h
    obtain ⟨i, hi⟩ := List.mem_iff_getElem?.mp (mem_zip_of_mem_offsetsOf h)
    exact ⟨i, List.getElem?_zip_eq_some.mp hi⟩
  · rintro ⟨i, hfield, hoffset⟩
    have hmem : (field, offset) ∈ fields.zip l.offsets :=
      List.mem_iff_getElem?.mpr ⟨i, List.getElem?_zip_eq_some.mpr ⟨hfield, hoffset⟩⟩
    exact List.mem_filterMap.mpr ⟨_, hmem, if_pos rfl⟩

/-- The offsets of one kind are among those of all fields, in the same order. -/
theorem offsetsOf_sublist (l : RecordLayout) (fields : List FieldKind) (field : FieldKind) :
    (l.offsetsOf fields field).Sublist l.offsets := by
  rw [offsetsOf]
  induction fields generalizing l with
  | nil => exact List.nil_sublist _
  | cons kind fields ih =>
    -- A field takes one offset with it, which is kept or dropped for its kind.
    obtain ⟨offsets, size⟩ := l
    cases offsets with
    | nil => exact .slnil
    | cons offset offsets =>
      have hrest := ih ⟨offsets, size⟩
      rw [List.zip_cons_cons, List.filterMap_cons]
      dsimp only at hrest ⊢
      by_cases hkind : kind = field
      · rw [if_pos hkind]
        exact hrest.cons_cons _
      · rw [if_neg hkind]
        exact hrest.cons _

/-- Fields stand one behind the other. -/
theorem fieldOffsets_pairwise (hslot : 0 < slot) :
    (fieldOffsets slot start fields).Pairwise (· < ·) := by
  induction fields generalizing start with
  | nil => exact .nil
  | cons kind fields ih =>
    refine .cons ?_ ih
    intro offset hoffset
    obtain ⟨i, hi⟩ := List.mem_iff_getElem?.mp hoffset
    have hlt : i < fields.length := by
      have hlt := (List.getElem?_eq_some_iff.mp hi).1
      rwa [length_fieldOffsets] at hlt
    have hmem : (fields[i], offset) ∈ fields.zip (fieldOffsets slot _ fields) :=
      List.mem_iff_getElem?.mpr
        ⟨i, List.getElem?_zip_eq_some.mpr ⟨List.getElem?_eq_getElem hlt, hi⟩⟩
    -- The fields that follow start where this one ends, and it has some width.
    have hlow := (bounds_of_mem_zip hmem).1
    have hwidth : 0 < kind.width slot := by
      cases kind with
      | reference => exact hslot
      | scalar | native => exact Nat.succ_pos 7
    omega

/-- Every field stands at a multiple of its width. -/
theorem width_dvd_of_mem_zip (hslot : IsSlotSize slot)
    (h : (field, offset) ∈ fields.zip (fieldOffsets slot start fields)) :
    field.width slot ∣ offset := by
  induction fields generalizing start with
  | nil => cases h
  | cons kind fields ih =>
    rcases List.mem_cons.mp h with heq | h
    · cases heq
      exact dvd_alignUp (hslot.width_two_pow _) _
    · exact ih h

end RecordLayout

/-! ## Objects -/

namespace TypeKind

variable {kind : TypeKind} {length : UInt32} {slot k : Nat} {field : FieldKind}

/-- An object with this length in its header has a field of some kind at an offset. The elements of
a reference array are references, and scalar arrays have no fields. -/
inductive FieldAt (length : UInt32) (slot : Nat) : TypeKind → FieldKind → Nat → Prop
  | field {fields : List FieldKind} {layout : RecordLayout} {field : FieldKind} {i offset : Nat} :
    (record fields).layout? slot = some layout → fields[i]? = some field →
    layout.offsets[i]? = some offset → FieldAt length slot (record fields) field offset
  | element {i : Nat} : i < length.toNat →
    FieldAt length slot referenceArray .reference (headerSize + i * slot)

/-- The fields of a record are where its layout has them. -/
theorem fieldAt_record {fields : List FieldKind} : (record fields).FieldAt length slot field k ↔
    k ∈ (RecordLayout.compute fields (slotWidth slot)).offsetsOf fields field := by
  rw [RecordLayout.mem_offsetsOf]
  constructor
  · rintro ⟨⟩
    rename_i layout i hlayout hfield hoffset
    obtain rfl := Option.some.inj hlayout
    exact ⟨i, hfield, hoffset⟩
  · rintro ⟨i, hfield, hoffset⟩
    exact .field rfl hfield hoffset

/-- **The reference slots** of an object. -/
theorem mem_referenceOffsets :
    k ∈ kind.referenceOffsets length slot ↔ kind.FieldAt length slot .reference k := by
  cases kind with
  | record fields => exact fieldAt_record.symm
  | scalarArray size => exact ⟨nofun, nofun⟩
  | referenceArray =>
    rw [referenceOffsets, List.mem_map]
    constructor
    · rintro ⟨i, hi, rfl⟩
      exact .element (List.mem_range.mp hi)
    · rintro ⟨⟩
      rename_i i hi
      exact ⟨i, List.mem_range.mpr hi, rfl⟩

/-- **The native pointers** of an object. -/
theorem mem_nativeOffsets (length : UInt32) :
    k ∈ kind.nativeOffsets slot ↔ kind.FieldAt length slot .native k := by
  cases kind with
  | record fields => exact fieldAt_record.symm
  | scalarArray size => exact ⟨nofun, nofun⟩
  | referenceArray => exact ⟨nofun, nofun⟩

instance : DecidablePred (kind.FieldAt length slot .reference) :=
  fun _ => decidable_of_iff _ mem_referenceOffsets

/-- Places of fields are multiples of their width. -/
theorem FieldAt.dvd (hslot : IsSlotSize slot) (h : kind.FieldAt length slot field k) :
    field.width slot ∣ k := by
  cases h with
  | field hlayout hfield hoffset =>
    obtain rfl := Option.some.inj hlayout
    rw [RecordLayout.compute, hslot.slotWidth_eq] at hoffset
    exact RecordLayout.width_dvd_of_mem_zip hslot
      (List.mem_iff_getElem?.mpr ⟨_, List.getElem?_zip_eq_some.mpr ⟨hfield, hoffset⟩⟩)
  | element hi =>
    have hheader : slot ∣ headerSize := Nat.dvd_trans hslot.dvd_wordSize ⟨2, rfl⟩
    exact Nat.dvd_add hheader (Nat.dvd_mul_left slot _)

/-- Every reference slot of an object is listed once. -/
theorem nodup_referenceOffsets (hslot : 0 < slot) : (kind.referenceOffsets length slot).Nodup := by
  cases kind with
  | record fields =>
    have hwidth : 0 < slotWidth slot := by
      rw [slotWidth]
      split <;> decide
    refine ((RecordLayout.offsetsOf_sublist ..).nodup ?_)
    exact (RecordLayout.fieldOffsets_pairwise hwidth).imp Nat.ne_of_lt
  | scalarArray size => exact .nil
  | referenceArray =>
    refine List.Pairwise.map _ ?_ List.nodup_range
    intro i j hne heq
    exact hne (Nat.eq_of_mul_eq_mul_right hslot (Nat.add_left_cancel heq))

end TypeKind

end HeapImage
