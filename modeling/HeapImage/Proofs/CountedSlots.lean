import HeapImage.Proofs.LoadCounts
import HeapImage.Proofs.MovedMembers
import HeapImage.Proofs.SoundArchives
import Mathlib.Data.List.Sort

/-! # Counting the slots of members

Which reference slots of a member hold null is settled in the graph. Wherever the member is, and
whatever stands for its referents there, the slots that hold zero are the same ones. So everything
that counts references and nulls comes to the counts of the slots that the maps of the archive mark.

* `Member.nulls`, `Placed.map_slots`: which slots of members hold null.
* `Archive.slotValues`, `Archive.loadCounts`: what there is to count in an archive.
* `Archive.HoldsMembers.nulls_slotValues`: what there is to count in a dump. -/

namespace HeapImage

/-! ## Members -/

/-- Which of the reference slots of the member hold null. -/
def Member.nulls (m : Member) (slot : Nat) : List Bool :=
  ((m.cells slot).filter Cell.isReference).map fun c => c.value = .reference none

namespace Placed

variable {g : ObjectGraph} {r : TypeRegistry} {roots : List ObjectId} {slot : Nat}
variable {ref : ObjectId → Nat} {native : UInt64 → UInt64} {v : Nat → UInt8} {x : Placed}
variable {xs : List Placed}

/-- A slot of a member holds zero exactly if it holds null, unless zero stands for a referent. -/
theorem map_referenceOffsets (hof : x.member.Of g r roots) (hslot : IsSlotSize slot)
    (hheld : x.Held slot ref native v)
    (hne : ∀ c ∈ x.member.cells slot, ∀ i, c.value = .reference (some i) → ref i ≠ 0) :
    ((x.member.referenceOffsets slot).map fun k =>
      decide (Bytes.number v (x.offset + k) slot = 0)) = x.member.nulls slot := by
  rw [Member.referenceOffsets, SourceObject.referenceOffsets_eq hslot hof.fits hof.length_lt,
    List.map_map, Member.nulls]
  apply List.map_congr_left
  intro c hc
  obtain ⟨hmem, hkind⟩ := List.mem_filter.mp hc
  rw [Cell.isReference, decide_eq_true_eq] at hkind
  have hnumber := hheld.cells c hmem
  cases hv : c.value with
  | scalar y => rw [hv] at hkind; cases hkind
  | native y => rw [hv] at hkind; cases hkind
  | reference target =>
    rw [(hof.width_of_reference hslot hmem hv).1, hv] at hnumber
    rw [Function.comp_apply, hnumber]
    cases target with
    | none => rfl
    | some i => exact (decide_eq_false (hne c hmem i hv)).trans (decide_eq_false (by simp)).symm

/-- The slots of members hold zero where the members refer to null. -/
theorem map_slots (hof : ∀ x ∈ xs, x.member.Of g r roots) (hslot : IsSlotSize slot)
    (hheld : ∀ x ∈ xs, x.Held slot ref native v)
    (hne : ∀ x ∈ xs, ∀ c ∈ x.member.cells slot, ∀ i, c.value = .reference (some i) → ref i ≠ 0) :
    ((slots xs slot).map fun i => decide (Bytes.number v i slot = 0)) =
      xs.flatMap fun x => x.member.nulls slot := by
  rw [slots, List.map_flatMap]
  apply List.flatMap_congr
  intro x hx
  rw [List.map_map]
  exact map_referenceOffsets (hof x hx) hslot (hheld x hx) (hne x hx)

/-- The slots of members in ascending order are in ascending order. -/
theorem slots_pairwise (hslot : IsSlotSize slot) (hof : ∀ x ∈ xs, x.member.Of g r roots)
    (h : Ascending slot xs) : (slots xs slot).Pairwise (· < ·) := by
  have hpos := hslot.pos
  refine List.pairwise_flatMap.mpr ⟨?_, ?_⟩
  -- Within one member, and between two of them.
  · intro x hx
    rw [List.pairwise_map]
    refine ((hof x hx).referenceOffsets_pairwise hslot).imp ?_
    intro i j hij
    omega
  · refine h.imp_of_mem ?_
    intro x y hx hy hxy i hi j hj
    obtain ⟨k, hk, rfl⟩ := List.mem_map.mp hi
    obtain ⟨l, hl, rfl⟩ := List.mem_map.mp hj
    have hbounds := ((hof x hx).bounds_of_referenceOffsets hslot hk).2.1
    rw [stop] at hxy
    omega

end Placed

/-- The places that the map of references marks are the members' slots in their order. -/
theorem RegionMaps.MarksMembers.slots_eq {maps : RegionMaps} {g : ObjectGraph} {r : TypeRegistry}
    {roots : List ObjectId} {slot bottom top : Nat} {native : Extent} {xs : List Placed}
    (h : maps.MarksMembers slot bottom native xs) (hslot : IsSlotSize slot)
    (hrow : Placed.Row slot bottom xs top) (hof : ∀ x ∈ xs, x.member.Of g r roots) :
    (maps.references.toList.map fun bit => bottom + bit * slot) = Placed.slots xs slot := by
  refine List.Pairwise.eq_of_mem_iff (r := (· < ·)) ?_
    (Placed.slots_pairwise hslot hof hrow.ascending) fun _ => h.mem_slots hslot hrow hof
  rw [List.pairwise_map]
  refine maps.references.toList_pairwise.imp ?_
  intro i j hij
  exact Nat.add_lt_add_left (Nat.mul_lt_mul_of_pos_right hij hslot.pos) _

/-! ## Archives -/

namespace Archive

/-- The values in the slots that the maps of the archive mark, in image order. -/
def slotValues (a : Archive) : List Nat :=
  Region.all.flatMap fun region => (a.maps region).references.toList.map (a.slotValue region)

/-- What a load counts, which moves native pointers by a distance: the marked slots, those with null
apart from the others, and the marked native pointers unless they stay where they are. -/
def loadCounts (a : Archive) (delta : UInt64) : LoadCounts where
  references := a.slotValues.countP (· ≠ 0)
  nulls := a.slotValues.countP (· = 0)
  natives := if delta = 0 then 0 else a.opened.natives.count + a.closed.natives.count

variable {a : Archive} {delta : UInt64}

/-- What a load counts: native pointers if they are moved, and all slots. -/
theorem loadCounts_eq (a : Archive) (delta : UInt64) :
    a.loadCounts delta = (LoadCounts.zero.addNatives
      (if delta = 0 then 0 else a.opened.natives.count + a.closed.natives.count)).addSlots
        a.slotValues := by
  rw [LoadCounts.addSlots_eq, loadCounts]
  simp [LoadCounts.zero, LoadCounts.addNatives]

/-- Every set bit of the maps of references is counted once. -/
theorem references_add_nulls (a : Archive) (delta : UInt64) :
    (a.loadCounts delta).references + (a.loadCounts delta).nulls =
      a.opened.references.count + a.closed.references.count := by
  have hlength : a.slotValues.length = a.opened.references.count + a.closed.references.count := by
    rw [slotValues, Region.all, List.flatMap_cons, List.flatMap_cons, List.flatMap_nil,
      List.append_nil, List.length_append, List.length_map, List.length_map,
      ← BitMap.count_eq_length, ← BitMap.count_eq_length]
    rfl
  rw [← hlength, loadCounts, Nat.add_comm, List.length_eq_countP_add_countP (· = 0)]
  simp

/-- **The marked slots of a dump** hold zero where the members hold null. -/
theorem HoldsMembers.nulls_slotValues {g : ObjectGraph} {r : TypeRegistry} {roots : List ObjectId}
    {native : Extent} {members : Region → List Placed} {ref : ObjectId → Nat}
    (hm : a.HoldsMembers g r roots native members ref) :
    (a.slotValues.map fun value => decide (value = 0)) =
      (allMembers members).flatMap fun x => x.member.nulls a.encoding.slotSize := by
  have hslot : IsSlotSize a.encoding.slotSize := a.encoding.isSlotSize
  have hregion : ∀ region, (((a.maps region).references.toList.map (a.slotValue region)).map
      fun value => decide (value = 0)) =
        (members region).flatMap fun x => x.member.nulls a.encoding.slotSize := by
    intro region
    rw [← Placed.map_slots (hm.of region) hslot (hm.held region) fun x hx c hc i hv =>
      hm.ref_ne_zero hx hc hv, ← (hm.marks region).slots_eq hslot (hm.row region) (hm.of region),
      List.map_map, List.map_map]
    apply List.map_congr_left
    intro bit _
    rw [Function.comp_apply, slotValue, Bytes.valueAt_eq_number]
    rfl
  rw [slotValues, Region.all, List.flatMap_cons, List.flatMap_cons, List.flatMap_nil,
    List.append_nil, List.map_append, hregion, hregion, allMembers, List.flatMap_append]

end Archive

end HeapImage
