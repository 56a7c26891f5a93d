import HeapImage.Proofs.FieldPlaces
import HeapImage.Proofs.HeapVerification

/-! # Fields with bytes of their own

Each field of a record goes to the first multiple of its width behind the fields in front of it.
Gaps may be left that way, but no byte is ever part of two fields, of a field and the header, or of
a field and what lies behind the record.

* `RecordLayout.extent?`: the bytes of a field.
* `RecordLayout.Separated`: what has to hold of a layout.
* `TypeKind.separated_record`: it holds of every record, and the passes over the references and over
  the native pointers of a record meet its fields of that kind, and nothing else. -/

namespace HeapImage

/-! ## Layouts -/

namespace RecordLayout

variable {fields : List FieldKind} {field : FieldKind} {slot start offset i j : Nat} {e f : Extent}

/-- The bytes of field `i`, from the start of the object. -/
def extent? (l : RecordLayout) (fields : List FieldKind) (slot i : Nat) : Option Extent :=
  (fields.zip l.offsets)[i]?.map fun (field, offset) => ⟨offset, offset + field.width slot⟩

/-- The fields of a record have bytes of their own between the header and the end. -/
structure Separated (l : RecordLayout) (fields : List FieldKind) (slot : Nat) : Prop where
  /-- Every field has a place. -/
  length_offsets : l.offsets.length = fields.length
  /-- Fields stand in the order in which they are declared. -/
  ascending : l.offsets.Pairwise (· < ·)
  /-- A field begins at its offset and is as long as its kind asks for. -/
  extent_eq : ∀ i field offset, fields[i]? = some field → l.offsets[i]? = some offset →
    l.extent? fields slot i = some ⟨offset, offset + field.width slot⟩
  /-- A field lies between the header and the end of the record. -/
  bounds : ∀ i e, l.extent? fields slot i = some e → headerSize ≤ e.bottom ∧ e.top ≤ l.size
  /-- A field begins at a multiple of its length. -/
  aligned : ∀ i e, l.extent? fields slot i = some e → e.length ∣ e.bottom
  /-- Two fields have no byte in common. -/
  apart : ∀ i j e f, i ≠ j → l.extent? fields slot i = some e → l.extent? fields slot j = some f →
    e.Apart f
  /-- A record is a whole number of heap words. -/
  wordSize_dvd : wordSize ∣ l.size
  /-- No smaller number of heap words holds the header and the last field. -/
  least : ∀ n, wordSize ∣ n → headerSize ≤ n →
    (∀ e, l.extent? fields slot (fields.length - 1) = some e → e.top ≤ n) → l.size ≤ n

/-- The extent of a field, by its offset and its width. -/
theorem extent?_eq_some {l : RecordLayout} : l.extent? fields slot i = some e ↔
    ∃ field offset, (fields.zip l.offsets)[i]? = some (field, offset) ∧
      e = ⟨offset, offset + field.width slot⟩ := by
  rw [extent?, Option.map_eq_some_iff, Prod.exists]
  simp only [eq_comm]

/-- A field begins behind the ends of those in front of it. -/
theorem zip_fieldOffsets_pairwise (slot start : Nat) (fields : List FieldKind) :
    (fields.zip (fieldOffsets slot start fields)).Pairwise
      fun x y => x.2 + x.1.width slot ≤ y.2 := by
  induction fields generalizing start with
  | nil => exact .nil
  | cons kind fields ih =>
    refine .cons ?_ (ih _)
    rintro ⟨field, offset⟩ hmem
    exact (bounds_of_mem_zip hmem).1

/-- A field that is declared later begins behind the end. -/
theorem top_le_bottom (hij : i < j) (he : (compute fields slot).extent? fields slot i = some e)
    (hf : (compute fields slot).extent? fields slot j = some f) : e.top ≤ f.bottom := by
  have hpairs : (fields.zip (compute fields slot).offsets).Pairwise
      fun x y => x.2 + x.1.width slot ≤ y.2 := zip_fieldOffsets_pairwise slot headerSize fields
  obtain ⟨_, _, hi, rfl⟩ := extent?_eq_some.mp he
  obtain ⟨_, _, hj, rfl⟩ := extent?_eq_some.mp hf
  obtain ⟨hilt, hi⟩ := List.getElem?_eq_some_iff.mp hi
  obtain ⟨hjlt, hj⟩ := List.getElem?_eq_some_iff.mp hj
  have hle := List.pairwise_iff_getElem.mp hpairs i j hilt hjlt hij
  rwa [hi, hj] at hle

/-- The fields end where the last one ends. -/
theorem fieldsEnd_eq_of_last
    (hlast : (fields.zip (fieldOffsets slot start fields))[fields.length - 1]? =
      some (field, offset)) : fieldsEnd slot start fields = offset + field.width slot := by
  induction fields generalizing start with
  | nil => cases hlast
  | cons kind fields ih =>
    cases fields with
    | nil =>
      cases hlast
      rfl
    | cons next rest => exact ih hlast

/-- Without fields, the fields end where they start. -/
theorem fieldsEnd_eq_of_no_last
    (hlast : (fields.zip (fieldOffsets slot start fields))[fields.length - 1]? = none) :
    fieldsEnd slot start fields = start := by
  cases fields with
  | nil => rfl
  | cons kind fields =>
    rw [List.getElem?_eq_none_iff, List.length_zip, length_fieldOffsets, Nat.min_self,
      List.length_cons] at hlast
    omega

/-- **The layout of a record** gives every field bytes of its own. -/
theorem separated_compute (hslot : IsSlotSize slot) (fields : List FieldKind) :
    (compute fields slot).Separated fields slot where
  length_offsets := length_fieldOffsets ..
  ascending := fieldOffsets_pairwise hslot.pos
  extent_eq i field offset hfield hoffset := by
    rw [extent?_eq_some]
    exact ⟨field, offset, List.getElem?_zip_eq_some.mpr ⟨hfield, hoffset⟩, rfl⟩
  bounds i e he := by
    obtain ⟨field, offset, hi, rfl⟩ := extent?_eq_some.mp he
    obtain ⟨hlow, hhigh⟩ := bounds_of_mem_zip (List.mem_iff_getElem?.mpr ⟨i, hi⟩)
    exact ⟨hlow, Nat.le_trans hhigh (le_alignUp ..)⟩
  aligned i e he := by
    obtain ⟨field, offset, hi, rfl⟩ := extent?_eq_some.mp he
    rw [Extent.length, Nat.add_sub_cancel_left]
    exact width_dvd_of_mem_zip hslot (List.mem_iff_getElem?.mpr ⟨i, hi⟩)
  apart i j e f hne he hf := by
    rw [Extent.apart_iff]
    rcases Nat.lt_or_gt_of_ne hne with hlt | hlt
    · exact .inr (.inr (.inl (top_le_bottom hlt he hf)))
    · exact .inr (.inr (.inr (top_le_bottom hlt hf he)))
  wordSize_dvd := dvd_alignUp_wordSize _
  least n hdvd hheader hlast := by
    -- The size is rounded up from where the fields end, which is the header's end without fields.
    refine alignUp_le wordSize_two_pow hdvd ?_
    cases hend : (fields.zip (compute fields slot).offsets)[fields.length - 1]? with
    | none => rwa [fieldsEnd_eq_of_no_last hend]
    | some last =>
      rw [fieldsEnd_eq_of_last hend]
      exact hlast _ (extent?_eq_some.mpr ⟨_, _, hend, rfl⟩)

/-- The offsets of the fields of one kind, in the order in which the fields are declared. -/
def Lists (l : RecordLayout) (fields : List FieldKind) (field : FieldKind) (offsets : List Nat) :
    Prop :=
  offsets.Pairwise (· < ·) ∧ ∀ offset, offset ∈ offsets ↔
    ∃ i : Nat, fields[i]? = some field ∧ l.offsets[i]? = some offset

/-- The offsets of a kind of field are listed in the order of the fields. -/
theorem lists_offsetsOf (hslot : 0 < slot) (fields : List FieldKind) (field : FieldKind) :
    (compute fields slot).Lists fields field ((compute fields slot).offsetsOf fields field) :=
  ⟨(fieldOffsets_pairwise hslot).sublist (offsetsOf_sublist ..), fun _ => mem_offsetsOf⟩

end RecordLayout

/-! ## Types -/

namespace TypeKind

/-- **The fields of a record** have bytes of their own, for both sizes of a reference slot, and so
do its objects, whatever length their headers give. A pass over the references of an object, or over
its native pointers, meets the fields of that kind in the order in which they are declared, and
stays within the object. -/
theorem separated_record (fields : List FieldKind) {slot : Nat} (hslot : slot = 4 ∨ slot = 8)
    (length : UInt32) : ∃ layout, layout = RecordLayout.compute fields slot ∧
      layout.Separated fields slot ∧ (record fields).layout? slot = some layout ∧
      (record fields).objectSize length slot = layout.size ∧
      layout.Lists fields .reference ((record fields).referenceOffsets length slot) ∧
      (∀ i ∈ (record fields).referenceOffsets length slot,
        headerSize ≤ i ∧ i + slot ≤ (record fields).objectSize length slot) ∧
      layout.Lists fields .native ((record fields).nativeOffsets slot) ∧
      (∀ i ∈ (record fields).nativeOffsets slot,
        headerSize ≤ i ∧ i + wordSize ≤ (record fields).objectSize length slot) ∧
      ∀ {σ ε : Type} (f : σ → Nat → Except ε σ) (s : σ),
        (record fields).foldReferences length slot f s =
          ((record fields).referenceOffsets length slot).foldlM f s := by
  have hsize : IsSlotSize slot := hslot
  have hcompute : RecordLayout.compute fields (slotWidth slot) =
      RecordLayout.compute fields slot := by rw [hsize.slotWidth_eq]
  refine ⟨_, rfl, RecordLayout.separated_compute hsize fields, congrArg some hcompute,
    congrArg RecordLayout.size hcompute, ?_, fun i => bounds_of_mem_referenceOffsets hsize, ?_,
    fun i => bounds_of_mem_nativeOffsets, foldReferences_eq _ length slot⟩
  · rw [referenceOffsets, hcompute]
    exact RecordLayout.lists_offsetsOf hsize.pos fields .reference
  · rw [nativeOffsets, hcompute]
    exact RecordLayout.lists_offsetsOf hsize.pos fields .native

/-- A native pointer behind one narrow reference leaves a gap; two narrow references in a row share
a word. -/
theorem separated_record_mixed : ((4 = 4) ∨ (4 = 8)) ∧
    ∃ layout, layout = RecordLayout.compute [.reference, .native, .reference, .reference] 4 ∧
      layout.Separated [.reference, .native, .reference, .reference] 4 ∧
      layout.offsets = [16, 24, 32, 36] ∧ layout.size = 40 := by
  obtain ⟨layout, rfl, hseparated, -⟩ :=
    separated_record [.reference, .native, .reference, .reference] (.inl rfl) 4
  exact ⟨.inl rfl, _, rfl, hseparated, by decide, by decide⟩

end TypeKind

end HeapImage
