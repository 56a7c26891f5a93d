import HeapImage.Proofs.DumpedMembers
import HeapImage.Proofs.Encoding
import HeapImage.Proofs.SnapshotNodes

/-! # Members at new places

A load gives the members of an archive new places. If they are held there, with references to each
other's new places, then the heap presents them.

* `Archive.moved`: the members of an archive at new places.
* `Archive.HoldsMembers.storedAt_moved`: what is stored for a member at its new place.
* `Archive.HoldsMembers.presents_of_held`: the heap that holds them. -/

namespace HeapImage

/-- The member at a new place, given by its old one. -/
def Placed.moveTo (place : Nat → Nat) (x : Placed) : Placed := ⟨x.member, place x.offset⟩

namespace Archive

/-- The members of an archive at new places. -/
def moved (members : Region → List Placed) (place : Nat → Nat) : List Placed :=
  (allMembers members).map (Placed.moveTo place)

section

variable {members : Region → List Placed} {place : Nat → Nat}

/-- The moved members are the members at their new places. -/
theorem mem_moved {x : Placed} :
    x ∈ moved members place ↔ ∃ region, ∃ y ∈ members region, x = y.moveTo place := by
  rw [moved, List.mem_map]
  constructor
  · rintro ⟨y, hy, rfl⟩
    obtain ⟨region, hy⟩ := mem_allMembers.mp hy
    exact ⟨region, y, hy, rfl⟩
  · rintro ⟨region, y, hy, rfl⟩
    exact ⟨y, mem_allMembers.mpr ⟨region, hy⟩, rfl⟩

/-- Every member is moved. -/
theorem moveTo_mem_moved {region : Region} {y : Placed} (hy : y ∈ members region) :
    y.moveTo place ∈ moved members place :=
  mem_moved.mpr ⟨region, y, hy, rfl⟩

end

namespace HoldsMembers

variable {a : Archive} {g : ObjectGraph} {r : TypeRegistry} {roots : List ObjectId}
variable {native : Extent} {members : Region → List Placed} {ref : ObjectId → Nat}
variable {e : ReferenceEncoding} {place : Nat → Nat}

/-- No member is there twice. -/
theorem nodup (hm : a.HoldsMembers g r roots native members ref) : (allMembers members).Nodup :=
  List.Nodup.of_map _ hm.distinct

/-- What stands for a referent is not what stands for null. -/
theorem ref_ne_zero (hm : a.HoldsMembers g r roots native members ref) {region : Region}
    {x : Placed} (hx : x ∈ members region) {c : Cell}
    (hc : c ∈ x.member.cells a.encoding.slotSize) {i : ObjectId}
    (hv : c.value = .reference (some i)) : ref i ≠ 0 := by
  obtain ⟨region', y, hy, hid⟩ := hm.referents region x hx c hc i hv
  have hbase := hm.regions.base_ne_zero
  exact ReferenceEncoding.encode_ne_zero (by omega) (hm.stored region' y hy i hid)

/-- Moved members are told apart by their objects. -/
theorem ids_moved (hm : a.HoldsMembers g r roots native members ref) (place : Nat → Nat) :
    ((moved members place).map fun x => x.member.id).Nodup := by
  rw [moved, List.map_map]
  exact hm.distinct

/-- What is stored for a member is the stored form of its new place. -/
theorem storedAt_moved (hm : a.HoldsMembers g r roots native members ref) {region : Region}
    {y : Placed} (hy : y ∈ members region) {i : ObjectId} (hid : y.member.id = some i) {value : Nat}
    (hvalue : e.encode (place y.offset) = .ok value) :
    Placed.storedAt e (moved members place) i = value :=
  Placed.storedAt_eq (hm.ids_moved place) (moveTo_mem_moved hy) hid hvalue

/-- **A heap that holds the members** at new places presents them, if their places differ and all
that are referred to can be stored. -/
theorem presents_of_held {μ : Type} [Memory μ] {heap : μ} {moveNative : UInt64 → UInt64}
    {v : Nat → UInt8} (hm : a.HoldsMembers g r roots native members ref)
    (hslot : a.encoding.slotSize = e.slotSize)
    (hheld : ∀ region, ∀ x ∈ members region, (x.moveTo place).Held e.slotSize
      (Placed.storedAt e (moved members place)) moveNative v ∧
        Memory.Shows heap v (place x.offset) (x.member.size e.slotSize))
    (hplace : ∀ region, ∀ x ∈ members region, place x.offset ≠ 0 ∧ place x.offset < 2 ^ 64)
    (hinj : ∀ region, ∀ x ∈ members region, ∀ region', ∀ y ∈ members region',
      place x.offset = place y.offset → x = y)
    (hencode : ∀ region, ∀ x ∈ members region, ∀ c ∈ x.member.cells e.slotSize, ∀ i,
      c.value = .reference (some i) → ∀ region', ∀ y ∈ members region', y.member.id = some i →
        ∃ value, e.encode (place y.offset) = .ok value) :
    Presents heap e g r roots moveNative (moved members place)
      (Placed.storedAt e (moved members place)) := by
  constructor
  case of =>
    intro x hx
    obtain ⟨region, y, hy, rfl⟩ := mem_moved.mp hx
    exact hm.of region y hy
  case shows =>
    refine ⟨v, ?_⟩
    intro x hx
    obtain ⟨region, y, hy, rfl⟩ := mem_moved.mp hx
    exact hheld region y hy
  case ids => exact hm.ids_moved place
  case offsets =>
    rw [moved, List.map_map, List.nodup_map_iff_inj_on hm.nodup]
    intro x hx y hy heq
    obtain ⟨region, hx⟩ := mem_allMembers.mp hx
    obtain ⟨region', hy⟩ := mem_allMembers.mp hy
    exact hinj region x hx region' y hy heq
  case referents =>
    intro x hx c hc i hv
    obtain ⟨region, x, hx', rfl⟩ := mem_moved.mp hx
    obtain ⟨region', y, hy, hid⟩ := hm.referents region x hx' c (hslot.symm ▸ hc) i hv
    obtain ⟨value, hvalue⟩ := hencode region x hx' c hc i hv region' y hy hid
    -- What can be stored and is in memory is read back.
    obtain ⟨hne, hlt⟩ := hplace region' y hy
    rw [hm.storedAt_moved hy hid hvalue]
    exact ⟨y.moveTo place, moveTo_mem_moved hy, hid, ReferenceEncoding.encode_ne_zero hne hvalue,
      ReferenceEncoding.decode_encode hlt hvalue⟩

end HoldsMembers

end Archive

end HeapImage
