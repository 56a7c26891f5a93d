import HeapImage.Dump.Staging
import HeapImage.Proofs.ByteView
import HeapImage.Proofs.Rounding

/-! # Cells of an object

Behind its header an object is a row of cells, one for each field or element. Everything that is
done to an object, from staging to loading, is done to its cells, so their places are described
once: they follow each other without overlap, stay inside the object, and the cells that a load has
to adjust lie at multiples of their width.

* `Cell`, `SourceObject.cells`: the cells of an object of a graph.
* `SourceObject.Fits`: the payload has the form that a kind asks for.
* `Cell.Row`: cells that follow each other between two offsets.
* `SourceObject.row_cells`, `SourceObject.width_of_mem_cells`: where the cells are.
* `SourceObject.referenceOffsets_eq`, `SourceObject.nativeOffsets_eq`: the places that a type tells
  a load to adjust are the cells with references and native pointers. -/

namespace HeapImage

/-- A part of an object behind its header, with its place and what the graph has for it. -/
structure Cell where
  /-- The distance from the start of the object. -/
  offset : Nat
  /-- Number of bytes. -/
  width : Nat
  /-- The field or element. -/
  value : FieldValue

namespace Cell

/-- The first offset behind the cell. -/
def stop (c : Cell) : Nat := c.offset + c.width

/-- Cells that follow each other between two offsets, possibly with gaps. -/
def Row : (start stop : Nat) → List Cell → Prop
  | start, stop, [] => start ≤ stop
  | start, stop, c :: cs => start ≤ c.offset ∧ Row c.stop stop cs

/-- A row ends no earlier than it starts. -/
theorem Row.le {start stop : Nat} {cs : List Cell} (h : Row start stop cs) : start ≤ stop := by
  induction cs generalizing start with
  | nil => exact h
  | cons c cs ih =>
    have htail := ih h.2
    have hhead := h.1
    rw [Cell.stop] at htail
    omega

/-- A row may start earlier and stop later. -/
theorem Row.mono {start stop start' stop' : Nat} {cs : List Cell} (h : Row start stop cs)
    (hstart : start' ≤ start) (hstop : stop ≤ stop') : Row start' stop' cs := by
  induction cs generalizing start start' with
  | nil => exact Nat.le_trans hstart (Nat.le_trans h hstop)
  | cons c cs ih => exact ⟨Nat.le_trans hstart h.1, ih h.2 (Nat.le_refl _)⟩

/-- The cells of a row lie between its start and its end. -/
theorem Row.bounds {start stop : Nat} {cs : List Cell} (h : Row start stop cs) :
    ∀ c ∈ cs, start ≤ c.offset ∧ c.stop ≤ stop := by
  induction cs generalizing start with
  | nil =>
    intro c hc
    cases hc
  | cons d cs ih =>
    intro c hc
    rcases List.mem_cons.mp hc with rfl | hc
    · exact ⟨h.1, h.2.le⟩
    · obtain ⟨hlow, hhigh⟩ := ih h.2 c hc
      have := h.1
      rw [Cell.stop] at hlow
      exact ⟨by omega, hhigh⟩

/-- The cells of a row do not overlap. -/
theorem Row.pairwise {start stop : Nat} {cs : List Cell} (h : Row start stop cs) :
    cs.Pairwise fun c d => c.stop ≤ d.offset := by
  induction cs generalizing start with
  | nil => exact .nil
  | cons c cs ih => exact .cons (fun d hd => (h.2.bounds d hd).1) (ih h.2)

/-- Two cells of a row are one, or do not overlap. -/
theorem Row.eq_or_apart {start stop : Nat} {cs : List Cell} (h : Row start stop cs) {c d : Cell}
    (hc : c ∈ cs) (hd : d ∈ cs) : c = d ∨ c.stop ≤ d.offset ∨ d.stop ≤ c.offset := by
  induction cs generalizing start with
  | nil => cases hc
  | cons e cs ih =>
    rcases List.mem_cons.mp hc with hce | hc' <;> rcases List.mem_cons.mp hd with hde | hd'
    · exact .inl (hce.trans hde.symm)
    · exact .inr (.inl (hce ▸ (h.2.bounds d hd').1))
    · exact .inr (.inr (hde ▸ (h.2.bounds c hc').1))
    · exact ih h.2 hc' hd'

/-- The cell holds a reference. -/
def isReference (c : Cell) : Bool := c.value.kind = .reference

/-- The cell holds a native pointer. -/
def isNative (c : Cell) : Bool := c.value.kind = .native

end Cell

/-! ## Cells of records and arrays -/

/-- The cells of fields laid out from an offset on. -/
def fieldCells (slot : Nat) : (start : Nat) → List FieldValue → List Cell
  | _, [] => []
  | start, v :: vs =>
    let c : Cell := ⟨alignUp start (v.kind.width slot), v.kind.width slot, v⟩
    c :: fieldCells slot c.stop vs

/-- The cells of elements of one width that stand back to back from an offset on. -/
def elementCells (width : Nat) : (start : Nat) → List FieldValue → List Cell
  | _, [] => []
  | start, v :: vs => ⟨start, width, v⟩ :: elementCells width (start + width) vs

/-- Field cells stand in a row, with gaps for their alignment. -/
theorem row_fieldCells (slot start : Nat) (vs : List FieldValue) :
    Cell.Row start (RecordLayout.fieldsEnd slot start (vs.map FieldValue.kind))
      (fieldCells slot start vs) := by
  induction vs generalizing start with
  | nil => exact Nat.le_refl _
  | cons v vs ih => exact ⟨le_alignUp _ _, ih _⟩

/-- Element cells stand back to back. -/
theorem row_elementCells (width start : Nat) (vs : List FieldValue) :
    Cell.Row start (start + vs.length * width) (elementCells width start vs) := by
  induction vs generalizing start with
  | nil => exact Nat.le_add_right ..
  | cons v vs ih =>
    refine ⟨Nat.le_refl _, (ih (start + width)).mono (Nat.le_refl _) ?_⟩
    rw [List.length_cons, Nat.add_mul]
    omega

/-- Fields and their offsets, as a layout lists them, are the cells of the fields. -/
theorem zip_fieldOffsets (slot start : Nat) (vs : List FieldValue) :
    vs.zip (RecordLayout.fieldOffsets slot start (vs.map FieldValue.kind)) =
      (fieldCells slot start vs).map fun c => (c.value, c.offset) := by
  induction vs generalizing start with
  | nil => rfl
  | cons v vs ih =>
    rw [List.map_cons, RecordLayout.fieldOffsets, List.zip_cons_cons, fieldCells, List.map_cons,
      ih]
    rfl

/-- The cells of fields are where the layout has the fields. -/
theorem fieldOffsets_eq (slot start : Nat) (vs : List FieldValue) :
    RecordLayout.fieldOffsets slot start (vs.map FieldValue.kind) =
      (fieldCells slot start vs).map Cell.offset := by
  induction vs generalizing start with
  | nil => rfl
  | cons v vs ih =>
    rw [List.map_cons, RecordLayout.fieldOffsets, fieldCells, List.map_cons, ih]
    rfl

/-- Field cells hold the fields in order. -/
@[simp] theorem values_fieldCells (slot start : Nat) (vs : List FieldValue) :
    (fieldCells slot start vs).map Cell.value = vs := by
  induction vs generalizing start with
  | nil => rfl
  | cons v vs ih => rw [fieldCells, List.map_cons, ih]

/-- Element cells hold the elements in order. -/
@[simp] theorem values_elementCells (width start : Nat) (vs : List FieldValue) :
    (elementCells width start vs).map Cell.value = vs := by
  induction vs generalizing start with
  | nil => rfl
  | cons v vs ih => rw [elementCells, List.map_cons, ih]

/-- Offsets of the fields of one kind are those of the cells of that kind. -/
theorem offsetsOf_eq (slot start size : Nat) (vs : List FieldValue) (kind : FieldKind) :
    RecordLayout.offsetsOf ⟨RecordLayout.fieldOffsets slot start (vs.map FieldValue.kind), size⟩
        (vs.map FieldValue.kind) kind =
      ((fieldCells slot start vs).filter fun c => c.value.kind = kind).map Cell.offset := by
  rw [RecordLayout.offsetsOf]
  induction vs generalizing start with
  | nil => rfl
  | cons v vs ih =>
    have htail := ih (alignUp start (v.kind.width slot) + v.kind.width slot)
    simp only [List.map_cons, RecordLayout.fieldOffsets, List.zip_cons_cons,
      List.filterMap_cons, fieldCells, List.filter_cons, decide_eq_true_eq, Cell.stop]
    by_cases hk : v.kind = kind
    · simp only [hk, if_true, List.map_cons] at htail ⊢
      rw [htail]
    · simp only [hk, if_false] at htail ⊢
      exact htail

/-- Elements are numbered by their distance from the first one. -/
theorem elementCells_eq (width start : Nat) (vs : List FieldValue) :
    elementCells width start vs =
      vs.zipIdx.map fun x => ⟨start + x.2 * width, width, x.1⟩ := by
  suffices hgen : ∀ i, elementCells width (start + i * width) vs =
      (vs.zipIdx i).map fun x => ⟨start + x.2 * width, width, x.1⟩ by
    simpa using hgen 0
  induction vs with
  | nil => exact fun _ => rfl
  | cons v vs ih =>
    intro i
    have hnext : start + i * width + width = start + (i + 1) * width := by
      rw [Nat.add_mul, Nat.one_mul, Nat.add_assoc]
    rw [elementCells, List.zipIdx_cons, List.map_cons, hnext, ih]

/-- An element cell, by the index of the element. -/
theorem getElem?_elementCells {width start i : Nat} {vs : List FieldValue} {c : Cell}
    (h : (elementCells width start vs)[i]? = some c) :
    c.offset = start + i * width ∧ c.width = width ∧ vs[i]? = some c.value := by
  rw [elementCells_eq, List.getElem?_map, List.getElem?_zipIdx, Option.map_map,
    Option.map_eq_some_iff] at h
  obtain ⟨v, hv, rfl⟩ := h
  rw [hv]
  exact ⟨by simp, rfl, rfl⟩

/-! ## Widths and places -/

/-- Bytes of a reference slot of one of the two encodings. -/
def IsSlotSize (slot : Nat) : Prop := slot = 4 ∨ slot = 8

/-- Every encoding has slots of four or eight bytes. -/
theorem ReferenceEncoding.isSlotSize (e : ReferenceEncoding) : IsSlotSize e.slotSize := by
  cases e with
  | wide => exact .inr rfl
  | narrow base shift => exact .inl rfl

namespace IsSlotSize

variable {slot : Nat} (h : IsSlotSize slot)

include h

/-- Slots are not empty. -/
theorem pos : 0 < slot := by
  rcases h with rfl | rfl <;> decide

/-- The size of a slot is a power of two. -/
theorem two_pow : ∃ k, slot = 2 ^ k := by
  rcases h with rfl | rfl
  · exact ⟨2, rfl⟩
  · exact ⟨3, rfl⟩

/-- Heap words are made up of slots. -/
theorem dvd_wordSize : slot ∣ wordSize := by
  rcases h with rfl | rfl <;> decide

/-- All bytes of the slot hold its number. -/
theorem slotWidth_eq : slotWidth slot = slot := by
  rcases h with rfl | rfl <;> rfl

/-- The width of any field is a power of two. -/
theorem width_two_pow (k : FieldKind) : ∃ n, k.width slot = 2 ^ n := by
  cases k with
  | reference => exact h.two_pow
  | scalar => exact wordSize_two_pow
  | native => exact wordSize_two_pow

end IsSlotSize

/-- A field stands at a multiple of its width. -/
theorem aligned_of_mem_fieldCells {slot start : Nat} (hslot : IsSlotSize slot)
    {vs : List FieldValue} {c : Cell} (hc : c ∈ fieldCells slot start vs) :
    c.width = c.value.kind.width slot ∧ c.width ∣ c.offset := by
  induction vs generalizing start with
  | nil => cases hc
  | cons v vs ih =>
    rcases List.mem_cons.mp hc with rfl | hc
    · exact ⟨rfl, dvd_alignUp (hslot.width_two_pow _) _⟩
    · exact ih hc

/-- All element cells are of the same width. -/
theorem width_of_mem_elementCells {width start : Nat} {vs : List FieldValue} {c : Cell}
    (hc : c ∈ elementCells width start vs) : c.width = width := by
  induction vs generalizing start with
  | nil => cases hc
  | cons v vs ih =>
    rcases List.mem_cons.mp hc with rfl | hc
    · rfl
    · exact ih hc

/-- Elements stand at multiples of a width that divides the place of the first one. -/
theorem dvd_of_mem_elementCells {width start : Nat} (hstart : width ∣ start)
    {vs : List FieldValue} {c : Cell} (hc : c ∈ elementCells width start vs) :
    width ∣ c.offset := by
  induction vs generalizing start with
  | nil => cases hc
  | cons v vs ih =>
    rcases List.mem_cons.mp hc with rfl | hc
    · exact hstart
    · exact ih (Nat.dvd_add hstart (Nat.dvd_refl width)) hc

/-- An element cell holds one of the elements. -/
theorem value_mem_of_mem_elementCells {width start : Nat} {vs : List FieldValue} {c : Cell}
    (hc : c ∈ elementCells width start vs) : c.value ∈ vs := by
  have hmem := List.mem_map_of_mem (f := Cell.value) hc
  rwa [values_elementCells] at hmem

/-- The value of a cell of an array is that of an element. -/
theorem exists_of_mem_elementCells {α : Type} {f : α → FieldValue} {width start : Nat}
    {vs : List FieldValue} {xs : List α} (hvs : vs = xs.map f) {c : Cell}
    (hc : c ∈ elementCells width start vs) : ∃ x ∈ xs, f x = c.value := by
  have hmem := value_mem_of_mem_elementCells hc
  rwa [hvs, List.mem_map] at hmem

/-! ## Objects of a graph -/

/-- The values of fields or elements in order. -/
def Payload.values : Payload → List FieldValue
  | .fields values => values
  | .scalars values => values.map .scalar
  | .references targets => targets.map .reference

/-- A payload has as many values as its length says. -/
theorem Payload.length_values (p : Payload) : p.values.length = p.length := by
  cases p with
  | fields values => rfl
  | scalars values => exact List.length_map ..
  | references targets => exact List.length_map ..

/-- Referents are the references among the values. -/
theorem Payload.mem_referents {p : Payload} {id : ObjectId} :
    id ∈ p.referents ↔ .reference (some id) ∈ p.values := by
  cases p with
  | fields values =>
    rw [referents, List.mem_filterMap, Payload.values]
    constructor
    · rintro ⟨v, hv, hid⟩
      cases v with
      | scalar _ => cases hid
      | native _ => cases hid
      | reference target => rwa [← show target = some id from hid]
    · intro hid
      exact ⟨_, hid, rfl⟩
  | scalars values => simp [referents, Payload.values]
  | references targets => simp [referents, Payload.values]

namespace SourceObject

/-- The payload has the form that a kind asks for. -/
def Fits (o : SourceObject) : TypeKind → Prop
  | .record kinds => ∃ values, o.payload = .fields values ∧ values.map FieldValue.kind = kinds
  | .scalarArray size =>
    ∃ values, o.payload = .scalars values ∧ ∀ v ∈ values, fitsElement v size = true
  | .referenceArray => ∃ targets, o.payload = .references targets

/-- A payload that passes the check fits. -/
theorem fits_of_checkPayload {o : SourceObject} {id : ObjectId} {type : TypeInfo}
    (h : ObjectGraph.checkPayload id o.payload type = .ok ()) : o.Fits type.kind := by
  rw [ObjectGraph.checkPayload.eq_def] at h
  split at h
  · rename_i kinds values hkind hpayload
    rw [hkind]
    split at h
    · rename_i hkinds
      exact ⟨values, hpayload, hkinds⟩
    · cases h
  · rename_i size values hkind hpayload
    rw [hkind]
    split at h
    · cases h
    · rename_i hfind
      refine ⟨values, hpayload, ?_⟩
      intro v hv
      simpa using List.find?_eq_none.mp hfind v hv
  · rename_i targets hkind hpayload
    rw [hkind]
    exact ⟨targets, hpayload⟩
  · cases h

/-- The cells of an object of a kind, in order. -/
def cells (o : SourceObject) (kind : TypeKind) (slot : Nat) : List Cell :=
  match kind with
  | .record _ => fieldCells slot headerSize o.payload.values
  | .scalarArray size => elementCells size headerSize o.payload.values
  | .referenceArray => elementCells slot headerSize o.payload.values

/-- The length in the object's header. -/
def length (o : SourceObject) : UInt32 := UInt32.ofNat o.payload.length

/-- The object's header. -/
def header (o : SourceObject) : ObjectHeader := ⟨o.mark, o.typeIndex, o.length⟩

section

variable {o : SourceObject} {kind : TypeKind} {slot : Nat}

/-- Cells and values correspond. -/
@[simp] theorem values_cells (o : SourceObject) (kind : TypeKind) (slot : Nat) :
    (o.cells kind slot).map Cell.value = o.payload.values := by
  cases kind with
  | record kinds => exact values_fieldCells ..
  | scalarArray size => exact values_elementCells ..
  | referenceArray => exact values_elementCells ..

/-- The length in a header is that of the payload, if it fits. -/
theorem toNat_length (hlength : o.payload.length < 2 ^ 32) :
    o.length.toNat = o.payload.length := by
  rw [length, UInt32.toNat_ofNat']
  exact Nat.mod_eq_of_lt hlength

/-- The header says what the kind asks for. -/
theorem acceptsLength (hfits : o.Fits kind) (hlength : o.payload.length < 2 ^ 32) :
    kind.acceptsLength o.length = true := by
  cases kind with
  | record kinds =>
    obtain ⟨values, hpayload, hkinds⟩ := hfits
    rw [TypeKind.acceptsLength, beq_iff_eq, toNat_length hlength, hpayload, ← hkinds,
      List.length_map]
    rfl
  | scalarArray size => rfl
  | referenceArray => rfl

/-- **The cells of an object follow each other behind its header and inside it.** -/
theorem row_cells (hslot : IsSlotSize slot) (hfits : o.Fits kind)
    (hlength : o.payload.length < 2 ^ 32) :
    Cell.Row headerSize (kind.objectSize o.length slot) (o.cells kind slot) := by
  cases kind with
  | record kinds =>
    obtain ⟨values, hpayload, hkinds⟩ := hfits
    rw [cells, hpayload, TypeKind.objectSize, hslot.slotWidth_eq, ← hkinds]
    exact (row_fieldCells ..).mono (Nat.le_refl _) (le_alignUp ..)
  | scalarArray size =>
    rw [cells, TypeKind.objectSize, toNat_length hlength, ← Payload.length_values]
    exact (row_elementCells ..).mono (Nat.le_refl _) (le_alignUp ..)
  | referenceArray =>
    rw [cells, TypeKind.objectSize, toNat_length hlength, ← Payload.length_values]
    exact (row_elementCells ..).mono (Nat.le_refl _) (le_alignUp ..)

/-- What kinds of values the cells of an object have, and how wide they are. -/
theorem width_of_mem_cells (hslot : IsSlotSize slot) (hfits : o.Fits kind) {c : Cell}
    (hc : c ∈ o.cells kind slot) :
    (c.value.kind = .reference ∧ c.width = slot ∧ slot ∣ c.offset) ∨
      (c.value.kind = .native ∧ c.width = wordSize ∧ wordSize ∣ c.offset) ∨
      ∃ x, c.value = .scalar x ∧ x.toNat < 256 ^ c.width := by
  cases kind with
  | record kinds =>
    obtain ⟨hwidth, hdvd⟩ := aligned_of_mem_fieldCells hslot hc
    cases hv : c.value with
    | scalar x =>
      rw [hv] at hwidth
      refine .inr (.inr ⟨x, rfl, ?_⟩)
      rw [hwidth]
      exact x.toNat_lt
    | reference target =>
      rw [hv] at hwidth
      exact .inl ⟨rfl, hwidth, by rwa [hwidth] at hdvd⟩
    | native x =>
      rw [hv] at hwidth
      exact .inr (.inl ⟨rfl, hwidth, by rwa [hwidth] at hdvd⟩)
  | scalarArray size =>
    obtain ⟨values, hpayload, hfit⟩ := hfits
    obtain ⟨x, hx, hvalue⟩ := exists_of_mem_elementCells (congrArg Payload.values hpayload) hc
    refine .inr (.inr ⟨x, hvalue.symm, ?_⟩)
    have hfitx := hfit x hx
    rw [fitsElement, Bool.or_eq_true, decide_eq_true_eq, decide_eq_true_eq] at hfitx
    rw [width_of_mem_elementCells hc]
    -- An element of eight bytes or more has room for every scalar.
    rcases hfitx with hwide | hsmall
    · exact Nat.lt_of_lt_of_le x.toNat_lt (Nat.pow_le_pow_right (n := 256) (by decide) hwide)
    · rwa [Bytes.one_shiftLeft_bits] at hsmall
  | referenceArray =>
    obtain ⟨targets, hpayload⟩ := hfits
    obtain ⟨target, htarget, hvalue⟩ :=
      exists_of_mem_elementCells (congrArg Payload.values hpayload) hc
    have hstart : slot ∣ headerSize := Nat.dvd_trans hslot.dvd_wordSize (Nat.dvd_mul_left ..)
    have hkind : c.value.kind = .reference := by rw [← hvalue]; rfl
    exact .inl ⟨hkind, width_of_mem_elementCells hc, dvd_of_mem_elementCells hstart hc⟩

/-- **The slots that a kind tells a load to adjust are the cells with references.** -/
theorem referenceOffsets_eq (hslot : IsSlotSize slot) (hfits : o.Fits kind)
    (hlength : o.payload.length < 2 ^ 32) :
    kind.referenceOffsets o.length slot =
      ((o.cells kind slot).filter Cell.isReference).map Cell.offset := by
  cases kind with
  | record kinds =>
    obtain ⟨values, hpayload, hkinds⟩ := hfits
    rw [TypeKind.referenceOffsets, hslot.slotWidth_eq, ← hkinds, cells, hpayload]
    exact offsetsOf_eq ..
  | scalarArray size =>
    obtain ⟨values, hpayload, -⟩ := hfits
    have hnone : (elementCells size headerSize o.payload.values).filter Cell.isReference = [] := by
      rw [List.filter_eq_nil_iff]
      intro c hc
      obtain ⟨x, -, hvalue⟩ := exists_of_mem_elementCells (congrArg Payload.values hpayload) hc
      rw [Cell.isReference, ← hvalue]
      exact Bool.false_ne_true
    rw [TypeKind.referenceOffsets, cells, hnone, List.map_nil]
  | referenceArray =>
    obtain ⟨targets, hpayload⟩ := hfits
    have hall : (elementCells slot headerSize o.payload.values).filter Cell.isReference =
        elementCells slot headerSize o.payload.values := by
      rw [List.filter_eq_self]
      intro c hc
      obtain ⟨target, -, hvalue⟩ := exists_of_mem_elementCells (congrArg Payload.values hpayload) hc
      rw [Cell.isReference, ← hvalue]
      rfl
    -- The load counts elements from the length in the header, the cells come from the payload.
    rw [TypeKind.referenceOffsets, cells, hall, elementCells_eq, List.map_map, toNat_length hlength,
      ← Payload.length_values, List.range_eq_range', ← List.zipIdx_map_snd 0 o.payload.values,
      List.map_map]
    rfl

/-- The native pointers that a kind tells a load to adjust are the cells with native pointers. -/
theorem nativeOffsets_eq (hslot : IsSlotSize slot) (hfits : o.Fits kind) :
    kind.nativeOffsets slot = ((o.cells kind slot).filter Cell.isNative).map Cell.offset := by
  have hnone {width : Nat} {vs : List FieldValue} (hvs : ∀ v ∈ vs, v.kind ≠ .native) :
      (elementCells width headerSize vs).filter Cell.isNative = [] := by
    rw [List.filter_eq_nil_iff]
    intro c hc
    rw [Cell.isNative, decide_eq_true_eq]
    exact hvs c.value (value_mem_of_mem_elementCells hc)
  cases kind with
  | record kinds =>
    obtain ⟨values, hpayload, hkinds⟩ := hfits
    rw [TypeKind.nativeOffsets, hslot.slotWidth_eq, ← hkinds, cells, hpayload]
    exact offsetsOf_eq ..
  | scalarArray size =>
    obtain ⟨values, hpayload, -⟩ := hfits
    rw [cells, hpayload, hnone]
    · rfl
    · intro v hv
      obtain ⟨x, -, rfl⟩ := List.mem_map.mp hv
      exact FieldKind.noConfusion
  | referenceArray =>
    obtain ⟨targets, hpayload⟩ := hfits
    rw [cells, hpayload, hnone]
    · rfl
    · intro v hv
      obtain ⟨x, -, rfl⟩ := List.mem_map.mp hv
      exact FieldKind.noConfusion

end

end SourceObject

/-- Objects are whole numbers of heap words. -/
theorem TypeKind.wordSize_dvd_objectSize (kind : TypeKind) (length : UInt32) (slot : Nat) :
    wordSize ∣ kind.objectSize length slot := by
  cases kind with
  | record kinds => exact dvd_alignUp_wordSize _
  | scalarArray size => exact dvd_alignUp_wordSize _
  | referenceArray => exact dvd_alignUp_wordSize _

end HeapImage
