import HeapImage.Proofs.Cells
import HeapImage.Proofs.Rewriting
import HeapImage.Proofs.Tiling

/-! # Members of an archive

The members of an archive are the selected objects and the root array. On their way from a graph
into a heap they change their places and the way in which they name each other, and nothing else:
at every stage, the bytes of a member are its header followed by its cells.

* `Member`, `Member.Of`: a member, and what it has to do with a graph and a registry.
* `Member.HeldAt`: the bytes at a position are those of a member, given what stands for references
  and what has become of native pointers.
* `Member.HeldAt.rewrite`: other references, after a pass over the slots.
* `Placed`, `Placed.Row`: members at their places, and members that stand back to back. -/

namespace HeapImage

/-- An object that an archive is made of. -/
structure Member where
  /-- The object's position in the graph; the root array has none. -/
  id : Option ObjectId
  region : Region
  object : SourceObject
  type : TypeInfo

/-- The root array as an object. -/
def rootObject (roots : List ObjectId) : SourceObject where
  typeIndex := TypeRegistry.rootIndex
  mark := 0
  payload := .references (roots.map some)

/-- The number that a cell holds, given the numbers that stand for referents and what has become of
native pointers. -/
def FieldValue.number (ref : ObjectId → Nat) (native : UInt64 → UInt64) : FieldValue → Nat
  | .scalar x => x.toNat
  | .native x => (native x).toNat
  | .reference none => 0
  | .reference (some id) => ref id

/-- Referents do not matter to what refers to nothing. -/
theorem FieldValue.number_of_not_referent {ref ref' : ObjectId → Nat} {native : UInt64 → UInt64}
    {v : FieldValue} (hv : ¬ ∃ id, v = .reference (some id)) :
    v.number ref native = v.number ref' native := by
  cases v with
  | scalar _ => rfl
  | native _ => rfl
  | reference target =>
    cases target with
    | none => rfl
    | some id => exact absurd ⟨id, rfl⟩ hv

namespace Member

/-- Number of bytes. -/
def size (m : Member) (slot : Nat) : Nat := m.type.kind.objectSize m.object.length slot

/-- The cells behind the header. -/
def cells (m : Member) (slot : Nat) : List Cell := m.object.cells m.type.kind slot

/-- The member is an object of the graph or the root array, and its type is registered. -/
structure Of (m : Member) (g : ObjectGraph) (r : TypeRegistry) (roots : List ObjectId) : Prop where
  object : ∀ id, m.id = some id → g.get? id = some m.object
  root : m.id = none → m.region = .opened ∧ m.object = rootObject roots
  type : r.get? m.object.typeIndex = some m.type
  fits : m.object.Fits m.type.kind
  length_lt : m.object.payload.length < 2 ^ 32

/-- Every member has room for its header. -/
theorem headerSize_le_size (m : Member) (slot : Nat) : headerSize ≤ m.size slot :=
  TypeKind.headerSize_le_objectSize ..

/-- Every member takes up memory. -/
theorem size_pos (m : Member) (slot : Nat) : 0 < m.size slot :=
  Nat.lt_of_lt_of_le (by decide) (m.headerSize_le_size slot)

/-- Members take up whole heap words. -/
theorem wordSize_dvd_size (m : Member) (slot : Nat) : wordSize ∣ m.size slot :=
  TypeKind.wordSize_dvd_objectSize ..

/-! ## Bytes of a member -/

/-- A header can be read where its two words are. -/
theorem read?_of_words {b : ByteArray} {p : Nat} {h : ObjectHeader}
    (hsize : p + headerSize ≤ b.size)
    (hmark : Bytes.number (Bytes.get b) p wordSize = h.mark.toNat)
    (hlayout : Bytes.number (Bytes.get b) (p + wordSize) wordSize = h.layoutWord.toNat) :
    ObjectHeader.read? b p = some h := by
  rw [ObjectHeader.read?, if_pos hsize, Bytes.valueAt_eq_number, Bytes.valueAt_eq_number, hmark,
    hlayout, UInt64.ofNat_toNat, UInt64.ofNat_toNat, ObjectHeader.ofWords_layoutWord]

/-- The bytes of a view from a position on are those of a member. -/
structure HeldAt (m : Member) (slot : Nat) (ref : ObjectId → Nat) (native : UInt64 → UInt64)
    (v : Nat → UInt8) (p : Nat) : Prop where
  mark : Bytes.number v p wordSize = m.object.mark.toNat
  layout : Bytes.number v (p + wordSize) wordSize = m.object.header.layoutWord.toNat
  cells : ∀ c ∈ m.cells slot, Bytes.number v (p + c.offset) c.width = c.value.number ref native

section

variable {m : Member} {g : ObjectGraph} {r : TypeRegistry} {roots : List ObjectId} {slot : Nat}
variable {ref ref' : ObjectId → Nat} {native native' : UInt64 → UInt64}
variable {v w : Nat → UInt8} {p q : Nat}

/-- The cells of a member stand in a row behind its header. -/
theorem Of.row_cells (h : m.Of g r roots) (hslot : IsSlotSize slot) :
    Cell.Row headerSize (m.size slot) (m.cells slot) :=
  SourceObject.row_cells hslot h.fits h.length_lt

/-- The cells of a member lie between its header and its end. -/
theorem Of.bounds (h : m.Of g r roots) (hslot : IsSlotSize slot) {c : Cell}
    (hc : c ∈ m.cells slot) : headerSize ≤ c.offset ∧ c.offset + c.width ≤ m.size slot :=
  (h.row_cells hslot).bounds c hc

/-- Only the bytes of the member matter. -/
theorem HeldAt.congr (h : m.HeldAt slot ref native v p) (hm : m.Of g r roots)
    (hslot : IsSlotSize slot) (hbytes : ∀ k < m.size slot, w (q + k) = v (p + k)) :
    m.HeldAt slot ref native w q := by
  have hsize := m.headerSize_le_size slot
  have hnumber : ∀ k n, k + n ≤ m.size slot →
      Bytes.number w (q + k) n = Bytes.number v (p + k) n := by
    intro k n hk
    apply Bytes.number_congr
    intro j hj
    rw [Nat.add_assoc, Nat.add_assoc]
    exact hbytes _ (by omega)
  refine ⟨?_, ?_, ?_⟩
  · rw [← h.mark]
    exact hnumber 0 wordSize (Nat.le_trans (by decide) hsize)
  · rw [← h.layout]
    exact hnumber wordSize wordSize hsize
  · intro c hc
    rw [← h.cells c hc]
    exact hnumber c.offset c.width (hm.bounds hslot hc).2

/-- The header of the member can be read from an array that holds it. -/
theorem HeldAt.read_header {b : ByteArray} (h : m.HeldAt slot ref native (Bytes.get b) p)
    (hsize : p + headerSize ≤ b.size) : ObjectHeader.read? b p = some m.object.header :=
  read?_of_words hsize h.mark h.layout

/-- Offsets of the reference slots. -/
def referenceOffsets (m : Member) (slot : Nat) : List Nat :=
  m.type.kind.referenceOffsets m.object.length slot

/-- Offsets of the native pointers. -/
def nativeOffsets (m : Member) (slot : Nat) : List Nat := m.type.kind.nativeOffsets slot

/-- The reference offsets of a member are those of its cells with references. -/
theorem Of.mem_referenceOffsets (h : m.Of g r roots) (hslot : IsSlotSize slot) {i : Nat} :
    i ∈ m.referenceOffsets slot ↔
      ∃ c ∈ m.cells slot, c.offset = i ∧ ∃ target, c.value = .reference target := by
  rw [referenceOffsets, SourceObject.referenceOffsets_eq hslot h.fits h.length_lt, List.mem_map]
  constructor
  · rintro ⟨c, hc, hoffset⟩
    obtain ⟨hmem, hkind⟩ := List.mem_filter.mp hc
    rw [Cell.isReference, decide_eq_true_eq] at hkind
    cases hv : c.value with
    | reference target => exact ⟨c, hmem, hoffset, target, hv⟩
    | scalar x => rw [hv] at hkind; cases hkind
    | native x => rw [hv] at hkind; cases hkind
  · rintro ⟨c, hc, hoffset, target, hv⟩
    refine ⟨c, List.mem_filter.mpr ⟨hc, ?_⟩, hoffset⟩
    rw [Cell.isReference, hv]
    rfl

/-- The native offsets of a member are those of its cells with native pointers. -/
theorem Of.mem_nativeOffsets (h : m.Of g r roots) (hslot : IsSlotSize slot) {i : Nat} :
    i ∈ m.nativeOffsets slot ↔
      ∃ c ∈ m.cells slot, c.offset = i ∧ ∃ x, c.value = .native x := by
  rw [nativeOffsets, SourceObject.nativeOffsets_eq hslot h.fits, List.mem_map]
  constructor
  · rintro ⟨c, hc, hoffset⟩
    obtain ⟨hmem, hkind⟩ := List.mem_filter.mp hc
    rw [Cell.isNative, decide_eq_true_eq] at hkind
    cases hv : c.value with
    | native x => exact ⟨c, hmem, hoffset, x, hv⟩
    | scalar x => rw [hv] at hkind; cases hkind
    | reference target => rw [hv] at hkind; cases hkind
  · rintro ⟨c, hc, hoffset, x, hv⟩
    refine ⟨c, List.mem_filter.mpr ⟨hc, ?_⟩, hoffset⟩
    rw [Cell.isNative, hv]
    rfl

/-- References take up an aligned slot. -/
theorem Of.width_of_reference (h : m.Of g r roots) (hslot : IsSlotSize slot) {c : Cell}
    {target : Option ObjectId} (hc : c ∈ m.cells slot) (hv : c.value = .reference target) :
    c.width = slot ∧ slot ∣ c.offset := by
  rcases SourceObject.width_of_mem_cells hslot h.fits hc with ⟨-, hw⟩ | ⟨hk, -⟩ | ⟨x, hx, -⟩
  · exact hw
  · rw [hv] at hk
    cases hk
  · rw [hv] at hx
    cases hx

/-- Reference slots do not overlap. -/
theorem Of.referenceOffsets_pairwise (h : m.Of g r roots) (hslot : IsSlotSize slot) :
    (m.referenceOffsets slot).Pairwise fun i j => i + slot ≤ j := by
  rw [referenceOffsets, SourceObject.referenceOffsets_eq hslot h.fits h.length_lt,
    List.pairwise_map]
  refine ((h.row_cells hslot).pairwise.filter _).imp_of_mem ?_
  intro c d hc hd hcd
  obtain ⟨hmem, hkind⟩ := List.mem_filter.mp hc
  rcases SourceObject.width_of_mem_cells hslot h.fits hmem with ⟨-, hw, -⟩ | ⟨hk, -⟩ | ⟨x, hx, -⟩
  · rwa [Cell.stop, hw] at hcd
  · rw [Cell.isReference, decide_eq_true_eq, hk] at hkind
    cases hkind
  · rw [Cell.isReference, decide_eq_true_eq, hx] at hkind
    cases hkind

/-- Reference slots lie behind the header and in the member. -/
theorem Of.bounds_of_referenceOffsets (h : m.Of g r roots) (hslot : IsSlotSize slot) {k : Nat}
    (hk : k ∈ m.referenceOffsets slot) : headerSize ≤ k ∧ k + slot ≤ m.size slot ∧ slot ∣ k := by
  obtain ⟨c, hc, rfl, target, hv⟩ := (h.mem_referenceOffsets hslot).mp hk
  obtain ⟨hwidth, hdvd⟩ := h.width_of_reference hslot hc hv
  have hbounds := h.bounds hslot hc
  exact ⟨hbounds.1, by omega, hdvd⟩

/-- Native pointers take up an aligned word. -/
theorem Of.width_of_native (h : m.Of g r roots) (hslot : IsSlotSize slot) {c : Cell} {x : UInt64}
    (hc : c ∈ m.cells slot) (hv : c.value = .native x) :
    c.width = wordSize ∧ wordSize ∣ c.offset := by
  rcases SourceObject.width_of_mem_cells hslot h.fits hc with ⟨hk, -⟩ | ⟨-, hw⟩ | ⟨x, hx, -⟩
  · rw [hv] at hk
    cases hk
  · exact hw
  · rw [hv] at hx
    cases hx

/-- Native pointers lie behind the header and in the member. -/
theorem Of.bounds_of_nativeOffsets (h : m.Of g r roots) (hslot : IsSlotSize slot) {k : Nat}
    (hk : k ∈ m.nativeOffsets slot) :
    headerSize ≤ k ∧ k + wordSize ≤ m.size slot ∧ wordSize ∣ k := by
  obtain ⟨c, hc, rfl, x, hv⟩ := (h.mem_nativeOffsets hslot).mp hk
  obtain ⟨hwidth, hdvd⟩ := h.width_of_native hslot hc hv
  have hbounds := h.bounds hslot hc
  exact ⟨hbounds.1, by omega, hdvd⟩

/-- A pass leaves a member behind whose cells hold other numbers, if it goes through some of the
cells and keeps away from everything else. -/
theorem HeldAt.rewrite {width : Nat} {R : Nat → Nat → Nat → Prop} {positions : List Nat}
    (h : m.HeldAt slot ref native v p) (hrw : Rewrites width R positions v w)
    (hheader : ∀ i ∈ positions, i + width ≤ p ∨ p + headerSize ≤ i)
    (hcells : ∀ c ∈ m.cells slot,
      (p + c.offset ∈ positions ∧ c.width = width ∧
        ∀ new, R (p + c.offset) (c.value.number ref native) new →
          new = c.value.number ref' native') ∨
      ((∀ i ∈ positions, p + c.offset + c.width ≤ i ∨ i + width ≤ p + c.offset) ∧
        c.value.number ref native = c.value.number ref' native')) :
    m.HeldAt slot ref' native' w p := by
  have hhead : headerSize = wordSize + wordSize := rfl
  refine ⟨?_, ?_, ?_⟩
  · rw [← h.mark]
    apply hrw.number_eq
    intro i hi
    have := hheader i hi
    omega
  · rw [← h.layout]
    apply hrw.number_eq
    intro i hi
    have := hheader i hi
    omega
  · intro c hc
    have hold := h.cells c hc
    -- A cell is one of the positions, or the pass goes past it.
    rcases hcells c hc with ⟨hmem, hwidth, hnew⟩ | ⟨hapart, hsame⟩
    · rw [hwidth] at hold ⊢
      apply hnew
      rw [← hold]
      exact hrw.inside _ hmem
    · rw [hrw.number_eq hapart, hold, hsame]

/-- A position that is that of a cell of some kind or away from the member is, for every cell, the
cell's own or away from the cell. -/
theorem Of.own_or_apart {width i : Nat} {offsets : List Nat} {kind : Cell → Prop}
    (hm : m.Of g r roots) (hslot : IsSlotSize slot)
    (hoffsets : ∀ k ∈ offsets, ∃ d ∈ m.cells slot, d.offset = k ∧ d.width = width ∧ kind d)
    (hi : (∃ k ∈ offsets, i = p + k) ∨ i + width ≤ p ∨ p + m.size slot ≤ i)
    {c : Cell} (hc : c ∈ m.cells slot) :
    (kind c ∧ i = p + c.offset) ∨ p + c.offset + c.width ≤ i ∨ i + width ≤ p + c.offset := by
  have hbounds := hm.bounds hslot hc
  rcases hi with ⟨k, hk, rfl⟩ | hlow | hhigh
  · obtain ⟨d, hd, hdk, hdw, hkind⟩ := hoffsets k hk
    rcases (hm.row_cells hslot).eq_or_apart hc hd with rfl | hcd | hdc
    · exact .inl ⟨hkind, by rw [hdk]⟩
    · rw [Cell.stop] at hcd
      omega
    · rw [Cell.stop] at hdc
      omega
  · omega
  · omega

/-- A position that is that of a cell or away from the member is away from the header. -/
theorem Of.apart_header {width i : Nat} {offsets : List Nat} {kind : Cell → Prop}
    (hm : m.Of g r roots) (hslot : IsSlotSize slot)
    (hoffsets : ∀ k ∈ offsets, ∃ d ∈ m.cells slot, d.offset = k ∧ d.width = width ∧ kind d)
    (hi : (∃ k ∈ offsets, i = p + k) ∨ i + width ≤ p ∨ p + m.size slot ≤ i) :
    i + width ≤ p ∨ p + headerSize ≤ i := by
  have hsize := m.headerSize_le_size slot
  rcases hi with ⟨k, hk, rfl⟩ | hlow | hhigh
  · obtain ⟨d, hd, hdk, -⟩ := hoffsets k hk
    have := (hm.bounds hslot hd).1
    omega
  · exact .inl hlow
  · omega

/-- **Relocation.** A pass over the reference slots of a member, which may go through other places
away from the member, changes what stands for the referents. -/
theorem HeldAt.rewrite_references {R : Nat → Nat → Nat → Prop} {positions : List Nat}
    (h : m.HeldAt slot ref native v p) (hm : m.Of g r roots) (hslot : IsSlotSize slot)
    (hrw : Rewrites slot R positions v w)
    (hall : ∀ k ∈ m.referenceOffsets slot, p + k ∈ positions)
    (honly : ∀ i ∈ positions, (∃ k ∈ m.referenceOffsets slot, i = p + k) ∨
      i + slot ≤ p ∨ p + m.size slot ≤ i)
    (hR : ∀ c ∈ m.cells slot, ∀ target, c.value = .reference target → ∀ new,
      R (p + c.offset) (c.value.number ref native) new → new = c.value.number ref' native) :
    m.HeldAt slot ref' native w p := by
  have hoffsets : ∀ k ∈ m.referenceOffsets slot, ∃ d ∈ m.cells slot, d.offset = k ∧
      d.width = slot ∧ ∃ target, d.value = .reference target := by
    intro k hk
    obtain ⟨d, hd, hdk, target, hdv⟩ := (hm.mem_referenceOffsets hslot).mp hk
    exact ⟨d, hd, hdk, (hm.width_of_reference hslot hd hdv).1, target, hdv⟩
  apply h.rewrite hrw
  · intro i hi
    exact hm.apart_header hslot hoffsets (honly i hi)
  · intro c hc
    by_cases hkind : ∃ target, c.value = .reference target
    · obtain ⟨target, hv⟩ := hkind
      have hmem := (hm.mem_referenceOffsets hslot).mpr ⟨c, hc, rfl, target, hv⟩
      exact .inl ⟨hall _ hmem, (hm.width_of_reference hslot hc hv).1, hR c hc target hv⟩
    · refine .inr ⟨?_, FieldValue.number_of_not_referent ?_⟩
      · intro i hi
        rcases hm.own_or_apart hslot hoffsets (honly i hi) hc with ⟨hown, -⟩ | hapart
        · exact absurd hown hkind
        · exact hapart
      · rintro ⟨id, hv⟩
        exact hkind ⟨_, hv⟩

/-- A pass over some of the native pointers of a member, which may go through other places away
from the member, changes what has become of them. -/
theorem HeldAt.rewrite_natives {R : Nat → Nat → Nat → Prop} {positions : List Nat}
    (h : m.HeldAt slot ref native v p) (hm : m.Of g r roots) (hslot : IsSlotSize slot)
    (hrw : Rewrites wordSize R positions v w)
    (honly : ∀ i ∈ positions, (∃ k ∈ m.nativeOffsets slot, i = p + k) ∨
      i + wordSize ≤ p ∨ p + m.size slot ≤ i)
    (hR : ∀ c ∈ m.cells slot, ∀ x, c.value = .native x →
      (p + c.offset ∈ positions ∧ ∀ new, R (p + c.offset) (native x).toNat new →
        new = (native' x).toNat) ∨
      (p + c.offset ∉ positions ∧ native x = native' x)) :
    m.HeldAt slot ref native' w p := by
  have hoffsets : ∀ k ∈ m.nativeOffsets slot, ∃ d ∈ m.cells slot, d.offset = k ∧
      d.width = wordSize ∧ ∃ x, d.value = .native x := by
    intro k hk
    obtain ⟨d, hd, hdk, x, hdv⟩ := (hm.mem_nativeOffsets hslot).mp hk
    exact ⟨d, hd, hdk, (hm.width_of_native hslot hd hdv).1, x, hdv⟩
  apply h.rewrite hrw
  · intro i hi
    exact hm.apart_header hslot hoffsets (honly i hi)
  · intro c hc
    -- Cells of other kinds lie apart from all native pointers, and their numbers do not depend on
    -- them.
    by_cases hkind : ∃ x, c.value = .native x
    · obtain ⟨x, hv⟩ := hkind
      have hnumber : ∀ f, c.value.number ref f = (f x).toNat := fun f => by rw [hv]; rfl
      rw [hnumber, hnumber]
      rcases hR c hc x hv with ⟨hmem, hnew⟩ | ⟨hmem, hsame⟩
      · exact .inl ⟨hmem, (hm.width_of_native hslot hc hv).1, hnew⟩
      · refine .inr ⟨?_, by rw [hsame]⟩
        intro i hi
        rcases hm.own_or_apart hslot hoffsets (honly i hi) hc with ⟨-, hown⟩ | hapart
        · rw [hown] at hi
          exact absurd hi hmem
        · exact hapart
    · refine .inr ⟨?_, ?_⟩
      · intro i hi
        rcases hm.own_or_apart hslot hoffsets (honly i hi) hc with ⟨hown, -⟩ | hapart
        · exact absurd hown hkind
        · exact hapart
      · cases hv : c.value with
        | native x => exact absurd ⟨x, hv⟩ hkind
        | scalar x => rfl
        | reference target => cases target <;> rfl

end

end Member

/-! ## Members at their places -/

/-- A member with the place where it starts. -/
structure Placed where
  member : Member
  offset : Nat

namespace Placed

/-- The first place behind the member. -/
def stop (x : Placed) (slot : Nat) : Nat := x.offset + x.member.size slot

/-- Members that stand back to back. -/
abbrev Row (slot start : Nat) (xs : List Placed) (stop : Nat) : Prop :=
  Tiles Placed.offset (fun x => x.member.size slot) start xs stop

/-- No two members overlap. -/
def Disjoint (slot : Nat) (xs : List Placed) : Prop :=
  ∀ x ∈ xs, ∀ y ∈ xs, x = y ∨ x.stop slot ≤ y.offset ∨ y.stop slot ≤ x.offset

/-- The bytes of a view at the place of the member are the member's. -/
def Held (x : Placed) (slot : Nat) (ref : ObjectId → Nat) (native : UInt64 → UInt64)
    (v : Nat → UInt8) : Prop :=
  x.member.HeldAt slot ref native v x.offset

/-- Places of the reference slots of some members. -/
def slots (xs : List Placed) (slot : Nat) : List Nat :=
  xs.flatMap fun x => (x.member.referenceOffsets slot).map (x.offset + ·)

variable {slot : Nat} {xs : List Placed}

/-- The slots of members are their reference offsets, from where they stand. -/
theorem mem_slots {i : Nat} :
    i ∈ slots xs slot ↔ ∃ x ∈ xs, ∃ k ∈ x.member.referenceOffsets slot, i = x.offset + k := by
  rw [slots, List.mem_flatMap]
  constructor
  · rintro ⟨x, hx, hi⟩
    obtain ⟨k, hk, rfl⟩ := List.mem_map.mp hi
    exact ⟨x, hx, k, hk, rfl⟩
  · rintro ⟨x, hx, k, hk, rfl⟩
    exact ⟨x, hx, List.mem_map.mpr ⟨k, hk, rfl⟩⟩

/-- The slots of two lists of members. -/
theorem slots_append (xs ys : List Placed) (slot : Nat) :
    slots (xs ++ ys) slot = slots xs slot ++ slots ys slot := by
  rw [slots, slots, slots, List.flatMap_append]

/-- The slots of one member. -/
theorem slots_singleton (x : Placed) (slot : Nat) :
    slots [x] slot = (x.member.referenceOffsets slot).map (x.offset + ·) := by
  rw [slots, List.flatMap_cons, List.flatMap_nil, List.append_nil]

/-- At `i` there is a native pointer of some members into a native image. -/
def NativeAt (xs : List Placed) (slot : Nat) (native : Extent) (i : Nat) : Prop :=
  ∃ x ∈ xs, ∃ c ∈ x.member.cells slot, ∃ v, c.value = .native v ∧
    native.contains v.toNat = true ∧ i = x.offset + c.offset

/-- Every member starts behind the end of the members in front of it. -/
abbrev Ascending (slot : Nat) (xs : List Placed) : Prop :=
  xs.Pairwise fun x y => x.stop slot ≤ y.offset

/-- Members in a row ascend. -/
theorem Row.ascending {start stop : Nat} (h : Row slot start xs stop) : Ascending slot xs := by
  induction xs generalizing start with
  | nil => exact .nil
  | cons x xs ih =>
    refine .cons ?_ (ih h.2)
    intro y hy
    rw [Placed.stop, h.1]
    exact (h.2.bounds y hy).1

/-- The slots of members lie where the members do. -/
theorem Row.bounds_of_mem_slots {g : ObjectGraph} {r : TypeRegistry} {roots : List ObjectId}
    {start stop i : Nat} (h : Row slot start xs stop) (hslot : IsSlotSize slot)
    (hof : ∀ x ∈ xs, x.member.Of g r roots) (hi : i ∈ slots xs slot) : start ≤ i ∧ i < stop := by
  obtain ⟨x, hx, k, hk, rfl⟩ := mem_slots.mp hi
  have hbounds := h.bounds x hx
  have hk' := (hof x hx).bounds_of_referenceOffsets hslot hk
  have hpos := hslot.pos
  omega

/-- Members in a row lie apart. -/
theorem Row.disjoint {start stop : Nat} (h : Row slot start xs stop) : Disjoint slot xs :=
  fun _ hx _ hy => h.eq_or_apart hx hy

/-- Rows that follow each other do not overlap. -/
theorem Disjoint.append {start middle middle' stop : Nat} {ys : List Placed}
    (hxs : Row slot start xs middle) (hle : middle ≤ middle') (hys : Row slot middle' ys stop) :
    Disjoint slot (xs ++ ys) := by
  intro x hx y hy
  rcases List.mem_append.mp hx with hx | hx <;> rcases List.mem_append.mp hy with hy | hy
  · exact hxs.disjoint x hx y hy
  · have hxstop := (hxs.bounds x hx).2
    have hystart := (hys.bounds y hy).1
    exact .inr (.inl (Nat.le_trans hxstop (Nat.le_trans hle hystart)))
  · have hystop := (hxs.bounds y hy).2
    have hxstart := (hys.bounds x hx).1
    exact .inr (.inr (Nat.le_trans hystop (Nat.le_trans hle hxstart)))
  · exact hys.disjoint x hx y hy

/-- Two rows of members, one behind the other, ascend. -/
theorem Ascending.append {start middle middle' stop : Nat} {ys : List Placed}
    (hxs : Row slot start xs middle) (hle : middle ≤ middle') (hys : Row slot middle' ys stop) :
    Ascending slot (xs ++ ys) := by
  refine List.pairwise_append.mpr ⟨hxs.ascending, hys.ascending, ?_⟩
  intro x hx y hy
  exact Nat.le_trans (hxs.bounds x hx).2 (Nat.le_trans hle (hys.bounds y hy).1)

/-- **Relocation of all members.** A pass over the reference slots of some members changes what
stands for the referents in each of them. -/
theorem Held.rewrite_references {g : ObjectGraph} {r : TypeRegistry} {roots : List ObjectId}
    {ref ref' : ObjectId → Nat} {native : UInt64 → UInt64} {v w : Nat → UInt8}
    {R : Nat → Nat → Nat → Prop} {positions : List Nat} {x : Placed} (hx : x ∈ xs)
    (h : x.Held slot ref native v) (hof : ∀ y ∈ xs, y.member.Of g r roots)
    (hslot : IsSlotSize slot) (hdisjoint : Disjoint slot xs)
    (hrw : Rewrites slot R positions v w)
    (hpositions : ∀ i, i ∈ positions ↔ i ∈ slots xs slot)
    (hR : ∀ c ∈ x.member.cells slot, ∀ target, c.value = .reference target → ∀ new,
      R (x.offset + c.offset) (c.value.number ref native) new →
        new = c.value.number ref' native) :
    x.Held slot ref' native w := by
  apply Member.HeldAt.rewrite_references h (hof x hx) hslot hrw
  · intro k hk
    exact (hpositions _).mpr (mem_slots.mpr ⟨x, hx, k, hk, rfl⟩)
  · intro i hi
    obtain ⟨y, hy, k, hk, rfl⟩ := mem_slots.mp ((hpositions i).mp hi)
    obtain ⟨d, hd, hdk, target, hdv⟩ := ((hof y hy).mem_referenceOffsets hslot).mp hk
    have hbounds := (hof y hy).bounds hslot hd
    have hwidth := ((hof y hy).width_of_reference hslot hd hdv).1
    -- A slot belongs to this member or to one that lies apart.
    rcases hdisjoint x hx y hy with rfl | hxy | hyx
    · exact .inl ⟨k, hk, rfl⟩
    · rw [stop] at hxy
      omega
    · rw [stop] at hyx
      omega
  · exact hR

/-- **Rebasing of native pointers.** A pass over the native pointers into a native image changes
them in each of the members. -/
theorem Held.rewrite_natives {g : ObjectGraph} {r : TypeRegistry} {roots : List ObjectId}
    {ref : ObjectId → Nat} {native native' : UInt64 → UInt64} {v w : Nat → UInt8}
    {R : Nat → Nat → Nat → Prop} {positions : List Nat} {e : Extent} {x : Placed} (hx : x ∈ xs)
    (h : x.Held slot ref native v) (hof : ∀ y ∈ xs, y.member.Of g r roots)
    (hslot : IsSlotSize slot) (hdisjoint : Disjoint slot xs)
    (hrw : Rewrites wordSize R positions v w)
    (hpositions : ∀ i, i ∈ positions ↔ NativeAt xs slot e i)
    (hR : ∀ i y, e.contains y.toNat = true → ∀ new, R i (native y).toNat new →
      new = (native' y).toNat)
    (hkept : ∀ y, e.contains y.toNat = false → native y = native' y) :
    x.Held slot ref native' w := by
  apply Member.HeldAt.rewrite_natives h (hof x hx) hslot hrw
  · intro i hi
    obtain ⟨y, hy, d, hd, u, hu, -, rfl⟩ := (hpositions i).mp hi
    have hbounds := (hof y hy).bounds hslot hd
    have hwidth := ((hof y hy).width_of_native hslot hd hu).1
    rcases hdisjoint x hx y hy with rfl | hxy | hyx
    · exact .inl ⟨_, ((hof x hx).mem_nativeOffsets hslot).mpr ⟨d, hd, rfl, u, hu⟩, rfl⟩
    · rw [stop] at hxy
      omega
    · rw [stop] at hyx
      omega
  · intro c hc u hu
    cases hin : e.contains u.toNat with
    | true => exact .inl ⟨(hpositions _).mpr ⟨x, hx, c, hc, u, hu, hin, rfl⟩, hR _ u hin⟩
    | false =>
      refine .inr ⟨?_, hkept u hin⟩
      intro hmem
      -- Another native pointer at this place would be this one.
      obtain ⟨y, hy, d, hd, u', hu', hin', heq⟩ := (hpositions _).mp hmem
      have hc' := (hof x hx).bounds hslot hc
      have hd' := (hof y hy).bounds hslot hd
      have hcwidth := ((hof x hx).width_of_native hslot hc hu).1
      have hdwidth := ((hof y hy).width_of_native hslot hd hu').1
      have hword : 0 < wordSize := by decide
      rcases hdisjoint x hx y hy with rfl | hxy | hyx
      · rcases ((hof x hx).row_cells hslot).eq_or_apart hc hd with rfl | hcd | hdc
        · rw [hu] at hu'
          cases hu'
          rw [hin] at hin'
          cases hin'
        · rw [Cell.stop] at hcd
          omega
        · rw [Cell.stop] at hdc
          omega
      · rw [stop] at hxy
        omega
      · rw [stop] at hyx
        omega

end Placed

/-- What becomes of a native pointer when a native image is moved by a distance. -/
def movedNative (native : Extent) (delta v : UInt64) : UInt64 :=
  if native.contains v.toNat then v + delta else v

end HeapImage
