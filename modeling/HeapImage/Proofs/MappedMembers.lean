import HeapImage.Proofs.AddressRanges
import HeapImage.Proofs.ArenaMemory
import HeapImage.Proofs.MappingSteps
import HeapImage.Proofs.MovedMembers
import HeapImage.Proofs.Patching

/-! # Members of a mapped image

A dumped image that has been mapped presents the members of its graph at the granted base, with
references for the running heap and with native pointers into the moved native image.

* `mem_reservations_of_mapImage`: the place of a mapped image is set aside.
* `Archive.HoldsMembers.presents_of_patchImage`: the members of a patched image.
* `Archive.HoldsMembers.ofHeap_of_mapImage`: the snapshot of a mapped image. -/

namespace HeapImage

/-! ## Mapping -/

/-- Handing regions over keeps the address ranges that are set aside. -/
theorem Arena.reservations_completeMapped (regions : List Extent) (h : Arena) :
    (regions.foldl MappingHost.completeMapped h).reservations = h.reservations := by
  induction regions generalizing h with
  | nil => rfl
  | cons e regions ih =>
    rw [List.foldl_cons, ih]
    rfl

/-- The place of a mapped image is set aside. -/
theorem mem_reservations_of_mapImage {a : Archive} {h h' : Arena} {runtime : ReferenceEncoding}
    {delta : UInt64} {image : MappedImage} (hmap : mapImage a h runtime delta = (.ok image, h')) :
    ⟨image.heap.base, image.heap.base + a.image.size⟩ ∈ h'.reservations.toList := by
  obtain ⟨-, -, -, -, ⟨k, hreserve, rfl⟩, -⟩ := of_mapImage hmap
  rw [Arena.reservations_completeMapped]
  exact Arena.mem_reservations hreserve

/-! ## Members -/

/-- A mapped image shows its bytes. -/
theorem MappedHeap.shows {h : MappedHeap} {a n : Nat} (hbase : h.base ≤ a)
    (hstop : a + n ≤ h.base + h.image.size) :
    Memory.Shows h (fun x => Bytes.get h.image (x - h.base)) a n := by
  intro i len _ hlow hhigh
  have hfits : i - h.base + len ≤ h.image.size := by omega
  refine ⟨h.image.extract (i - h.base) (i - h.base + len), ?_, ?_, ?_⟩
  · change (if i < h.base then none else Bytes.slice? h.image (i - h.base) len) = _
    rw [if_neg (by omega), Bytes.slice?, if_pos hfits]
  · rw [ByteArray.size_extract, Nat.min_eq_left hfits, Nat.add_sub_cancel_left]
  · intro k hk
    have hplace : i - h.base + k = i + k - h.base := by omega
    rw [Bytes.get_extract, if_pos (by omega), hplace]

namespace Archive.HoldsMembers

variable {a : Archive} {g : ObjectGraph} {r : TypeRegistry} {roots : List ObjectId}
variable {native : Extent} {members : Region → List Placed} {ref : ObjectId → Nat}
variable {runtime : ReferenceEncoding} {actual : Nat} {delta : UInt64} {p : Patching}

/-- The image of a dump fits the place that it was made for and any other one in memory. -/
theorem fits (hm : a.HoldsMembers g r roots native members ref)
    (hcheck : checkEncodings a.encoding runtime = .ok ()) (hactual : actual ≠ 0)
    (htop : actual + a.image.size ≤ 2 ^ 64) : (a.rebasing runtime actual).Fits := by
  obtain ⟨hslot, hdump, -⟩ := checkEncodings_eq_ok hcheck
  exact ⟨hslot, hdump, hm.regions.base_ne_zero, Nat.le_of_lt hm.below, hactual, htop⟩

/-- An adjusted reference is the stored form of the new address of the member that it names. -/
theorem encode_of_value (hm : a.HoldsMembers g r roots native members ref)
    (hfits : (a.rebasing runtime actual).Fits) {u : Unit}
    (hedges : (a.rebasing runtime actual).checkEdges = .ok u) {region : Region} {y : Placed}
    (hy : y ∈ members region) {i : ObjectId} (hid : y.member.id = some i) {offset new : Nat}
    (hvalue : (a.rebasing runtime actual).value offset (ref i) = .ok new) :
    runtime.encode (actual + y.offset) = .ok new := by
  have hstop := hm.stop_le hy
  have hsize := y.member.headerSize_le_size a.encoding.slotSize
  have hword : headerSize = wordSize + wordSize := rfl
  have hplace : y.offset + wordSize ≤ a.image.size := by
    rw [Placed.stop] at hstop
    omega
  exact Rebasing.encode_of_value hfits hedges (hm.stored region y hy i hid) hplace hvalue

/-- Members of a mapped image have addresses of a machine. -/
theorem add_offset_lt (hm : a.HoldsMembers g r roots native members ref)
    (htop : actual + a.image.size ≤ 2 ^ 64) {region : Region} {y : Placed}
    (hy : y ∈ members region) : actual + y.offset < 2 ^ 64 := by
  have hstop := hm.stop_le hy
  have hpos := y.member.size_pos a.encoding.slotSize
  rw [Placed.stop] at hstop
  omega

/-- What references are replaced by is what is stored for the new addresses. -/
theorem storedAt_of_value (hm : a.HoldsMembers g r roots native members ref)
    (hfits : (a.rebasing runtime actual).Fits) {u : Unit}
    (hedges : (a.rebasing runtime actual).checkEdges = .ok u) {region : Region} {x : Placed}
    (hx : x ∈ members region) {c : Cell} (hc : c ∈ x.member.cells runtime.slotSize) {i : ObjectId}
    (hv : c.value = .reference (some i)) : ref i ≠ 0 ∧ ∀ offset new,
      (a.rebasing runtime actual).value offset (ref i) = .ok new →
        new % 256 ^ runtime.slotSize =
          Placed.storedAt runtime (moved members (actual + ·)) i := by
  have hslot : a.encoding.slotSize = runtime.slotSize := hfits.slotSize
  rw [← hslot] at hc
  obtain ⟨region', y, hy, hid⟩ := hm.referents region x hx c hc i hv
  refine ⟨hm.ref_ne_zero hx hc hv, ?_⟩
  intro offset new hnew
  have hnew' := hm.encode_of_value hfits hedges hy hid hnew
  have hlt := hm.add_offset_lt hfits.actual_le hy
  rw [Nat.mod_eq_of_lt (ReferenceEncoding.encode_lt hlt hnew'), hm.storedAt_moved hy hid hnew']

/-- **Patching an image** gives all its members the referents at their new addresses, and moves
their native pointers. All references that are not null have got new values. -/
theorem held_of_patchImage (hm : a.HoldsMembers g r roots native members ref)
    (hfits : (a.rebasing runtime actual).Fits)
    (h : patchImage a (a.rebasing runtime actual) delta = .ok p) :
    p.image.size = a.image.size ∧ ∀ region, ∀ x ∈ members region,
      x.Held runtime.slotSize (Placed.storedAt runtime (moved members (actual + ·)))
        (movedNative native delta) (Bytes.get p.image) ∧
      ∀ c ∈ x.member.cells runtime.slotSize, ∀ i, c.value = .reference (some i) →
        ∃ offset new, (a.rebasing runtime actual).value offset (ref i) = .ok new := by
  obtain ⟨hedges, q, hopened, hclosed⟩ := of_patchImage h
  have hslotSize : a.encoding.slotSize = runtime.slotSize := hfits.slotSize
  have hslot : IsSlotSize runtime.slotSize := runtime.isSlotSize
  have hrow := hm.row
  have hmarks := hm.marks
  have hheld := hm.held
  rw [hslotSize] at hrow hmarks hheld
  obtain ⟨hle, hend⟩ := hm.ranges_le
  obtain ⟨hsize, hopenHeld, hkept, hopenValues⟩ := Patching.held_of_region
    (m := a.rebasing runtime actual) (p := ⟨a.image, .zero⟩) hslot (hrow .opened)
    (hm.of .opened) (hmarks .opened) (hm.range_top_le .opened) (hheld .opened)
    (fun x hx c hc i hv => hm.storedAt_of_value hfits hedges hx hc hv) hopened
  -- Members outside a region that is patched stay as they are.
  have hclosedBefore : ∀ x ∈ members .closed,
      x.Held runtime.slotSize ref id (Bytes.get q.image) := by
    intro x hx
    apply Member.HeldAt.congr (hheld .closed x hx) (hm.of .closed x hx) hslot
    intro k _
    have hbounds := (hrow .closed).bounds x hx
    exact hkept _ (.inr (by omega))
  obtain ⟨hsize', hclosedHeld, hkept', hclosedValues⟩ := Patching.held_of_region
    (m := a.rebasing runtime actual) hslot (hrow .closed) (hm.of .closed) (hmarks .closed)
    (hsize.symm ▸ hend) hclosedBefore
    (fun x hx c hc i hv => hm.storedAt_of_value hfits hedges hx hc hv) hclosed
  have hopenAfter : ∀ x ∈ members .opened,
      x.Held runtime.slotSize (Placed.storedAt runtime (moved members (actual + ·)))
        (movedNative native delta) (Bytes.get p.image) := by
    intro x hx
    apply Member.HeldAt.congr (hopenHeld x hx) (hm.of .opened x hx) hslot
    intro k (hk : k < x.member.size runtime.slotSize)
    have hbounds := (hrow .opened).bounds x hx
    exact hkept' _ (.inl (by omega))
  refine ⟨hsize'.trans hsize, ?_⟩
  intro region x hx
  cases region with
  | opened => exact ⟨hopenAfter x hx, fun c hc i hv => ⟨_, hopenValues x hx c hc i hv⟩⟩
  | closed => exact ⟨hclosedHeld x hx, fun c hc i hv => ⟨_, hclosedValues x hx c hc i hv⟩⟩

/-- **The members of a patched image** stand at the new base. -/
theorem presents_of_patchImage (hm : a.HoldsMembers g r roots native members ref)
    (hfits : (a.rebasing runtime actual).Fits)
    (h : patchImage a (a.rebasing runtime actual) delta = .ok p) :
    Presents (⟨actual, p.image⟩ : MappedHeap) runtime g r roots (movedNative native delta)
      (moved members (actual + ·)) (Placed.storedAt runtime (moved members (actual + ·))) := by
  have hedges := (of_patchImage h).1
  have hslot : a.encoding.slotSize = runtime.slotSize := hfits.slotSize
  obtain ⟨hsize, hheld⟩ := hm.held_of_patchImage hfits h
  refine hm.presents_of_held (v := fun k => Bytes.get p.image (k - actual)) hslot ?_ ?_ ?_ ?_
  · intro region x hx
    constructor
    · apply Member.HeldAt.congr (hheld region x hx).1 (hm.of region x hx) runtime.isSlotSize
      intro k _
      rw [Placed.moveTo, Nat.add_assoc, Nat.add_sub_cancel_left]
    · have hstop := hm.stop_le hx
      rw [Placed.stop, hslot] at hstop
      apply MappedHeap.shows (h := ⟨actual, p.image⟩) (Nat.le_add_right ..)
      rw [hsize, Nat.add_assoc]
      exact Nat.add_le_add_left hstop _
  · intro region x hx
    have hactual : actual ≠ 0 := hfits.actual_ne_zero
    exact ⟨by omega, hm.add_offset_lt hfits.actual_le hx⟩
  · intro region x hx region' y hy heq
    -- All members have been moved by the same distance.
    exact (hm.eq_of_offset_eq hx hy (Nat.add_left_cancel heq)).2
  · intro region x hx c hc i hv region' y hy hid
    obtain ⟨offset, new, hnew⟩ := (hheld region x hx).2 c hc i hv
    exact ⟨new, hm.encode_of_value hfits hedges hy hid hnew⟩

/-- **The snapshot of a mapped image** is that of the graph. -/
theorem ofHeap_of_mapImage (hm : a.HoldsMembers g r roots native members ref) {h h' : Arena}
    {image : MappedImage} (hmap : mapImage a h runtime delta = (.ok image, h'))
    (hgranted : ∀ e ∈ h'.reservations.toList, e.bottom ≠ 0 ∧ e.top ≤ 2 ^ 64) :
    ∃ s, Snapshot.ofGraph g r roots (movedNative native delta) = .ok s ∧
      Snapshot.ofHeap image.heap image.types image.encoding image.root = .ok s := by
  obtain ⟨hcheck, htypes, hencoding, hroot, -, p, hpatch, himage, -⟩ := of_mapImage hmap
  obtain ⟨hbase, htop⟩ := hgranted _ (mem_reservations_of_mapImage hmap)
  have hfits := hm.fits hcheck hbase htop
  obtain ⟨x, hx, hid, hoffset⟩ := hm.root
  have hheap : image.heap = ⟨image.heap.base, p.image⟩ := by
    rw [← himage]
  have hextent : (moved members (image.heap.base + ·)).length ≤
      Memory.extent (⟨image.heap.base, p.image⟩ : MappedHeap) := by
    rw [moved, List.length_map]
    change _ ≤ p.image.size
    rw [(hm.held_of_patchImage hfits hpatch).1]
    exact hm.length_le
  rw [htypes, hm.types, hencoding, hroot, ← hoffset, hheap]
  exact (hm.presents_of_patchImage hfits hpatch).ofHeap_eq (moveTo_mem_moved hx) hid hextent

end Archive.HoldsMembers

end HeapImage
