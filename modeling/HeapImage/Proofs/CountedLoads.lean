import HeapImage.Proofs.CountedSlots
import HeapImage.Proofs.LoadedMembers
import HeapImage.Proofs.MappingSteps
import HeapImage.Proofs.Patching
import Mathlib.Tactic.Choose

/-! # What a load counts

An image that is mapped is patched slot by slot in image order, one that is copied block by block in
the order in which objects were given memory. Both count every marked slot once, with the value that
the archive has in it, so they report the same counts.

* `Patching.counts_of_region`, `Archive.Sound.counts_of_patchImage`: the counts of a mapped image.
* `CopyPlan.Complete.toList_eq`: the marks of a region are those of its copies, in image order.
* `CopyPlan.Complete.sum_nativeCount`: the native pointers of all copies.
* `Archive.HoldsMembers.counts_of_loads`: the counts of a copied dump. -/

namespace HeapImage

/-! ## Mapped images -/

namespace Patching

variable {m : Rebasing} {delta : UInt64} {p p' : Patching}

/-- The slots at some places are counted with the values that they had before any was adjusted. -/
theorem counts_of_references {offsets : List Nat} (hapart : offsets.Pairwise (Apart m.slotSize))
    (h : references m offsets p = .ok p') : p'.counts =
      p.counts.addSlots (offsets.map fun i => Bytes.number (Bytes.get p.image) i m.slotSize) := by
  induction offsets generalizing p with
  | nil =>
    cases h
    rfl
  | cons i rest ih =>
    obtain ⟨image, counts⟩ := p
    obtain ⟨hi, hrest⟩ := List.pairwise_cons.mp hapart
    rw [references] at h
    rw [List.map_cons, LoadCounts.addSlots_cons, LoadCounts.addSlot, ← Bytes.valueAt_eq_number]
    dsimp only at h ⊢
    split at h
    · rename_i hzero
      rw [if_pos hzero]
      exact ih hrest h
    · rename_i hne
      split at h
      · cases h
      · rename_i value _
        rw [if_neg hne, ih hrest h]
        -- The other slots do not overlap this one.
        congr 1
        apply List.map_congr_left
        intro j hj
        apply Bytes.number_congr
        intro k hk
        have hij : Apart m.slotSize i j := hi j hj
        rw [Apart] at hij
        rw [Bytes.get_setValue, if_neg (by omega)]

/-- Patching native pointers counts each of them. -/
theorem counts_of_natives (delta : UInt64) (offsets : List Nat) (p : Patching) :
    (natives delta offsets p).counts = p.counts.addNatives offsets.length := by
  induction offsets generalizing p with
  | nil => rfl
  | cons i rest ih =>
    rw [natives, ih, List.length_cons, Nat.add_comm rest.length, LoadCounts.addNatives_add]
    rfl

/-- **A region** is counted with the values that its slots had before. -/
theorem counts_of_region {maps : RegionMaps} {start : Nat}
    (h : region m delta start maps p = .ok p') : p'.counts =
      (p.counts.addSlots ((slots m start maps).map fun i =>
        Bytes.number (Bytes.get p.image) i m.slotSize)).addNatives
          (if delta = 0 then 0 else maps.natives.count) := by
  rw [region, Except.bind_eq_ok] at h
  obtain ⟨q, hreferences, h⟩ := h
  have hcounts := counts_of_references (places_pairwise ..) hreferences
  split at h
  · rename_i hzero
    cases h
    rw [if_pos hzero]
    exact hcounts
  · rename_i hne
    cases h
    rw [if_neg hne, counts_of_natives, List.length_map, hcounts, BitMap.count_eq_length]
    rfl

end Patching

namespace Archive

variable {a : Archive} {m : Rebasing} {delta : UInt64} {p : Patching}

/-- The slots of a region, before anything is patched. -/
theorem map_slots (hslot : m.slotSize = a.slotSize) (region : Region) :
    ((Patching.slots m (a.header.range region).bottom (a.maps region)).map fun i =>
      Bytes.number (Bytes.get a.image) i m.slotSize) =
        (a.maps region).references.toList.map (a.slotValue region) := by
  rw [Patching.slots, List.map_map]
  apply List.map_congr_left
  intro bit _
  rw [Function.comp_apply, slotValue, Bytes.valueAt_eq_number, hslot]
  rfl

/-- **The counts of a mapped image** are those of its archive. -/
theorem Sound.counts_of_patchImage (hsound : a.Sound) (hslot : m.slotSize = a.slotSize)
    (h : patchImage a m delta = .ok p) : p.counts = a.loadCounts delta := by
  obtain ⟨-, q, hopened, hclosed⟩ := of_patchImage h
  -- Patching the open region has left the slots of the closed one as they were.
  have hkept : ((Patching.slots m (a.header.range .closed).bottom a.closed).map fun i =>
      Bytes.number (Bytes.get q.image) i m.slotSize) =
        a.closed.references.toList.map (a.slotValue .closed) := by
    refine .trans ?_ (map_slots hslot .closed)
    apply List.map_congr_left
    intro i hi
    rw [← Bytes.valueAt_eq_number, ← Bytes.valueAt_eq_number,
      (hsound.closed_of_opened hslot hopened).2 i hi]
  have hopenValues : ((Patching.slots m (a.header.range .opened).bottom a.opened).map fun i =>
      Bytes.number (Bytes.get a.image) i m.slotSize) =
        a.opened.references.toList.map (a.slotValue .opened) := map_slots hslot .opened
  have hcounts := Patching.counts_of_region hclosed
  rw [hkept, Patching.counts_of_region hopened] at hcounts
  dsimp only at hcounts
  rw [hopenValues] at hcounts
  rw [hcounts, loadCounts_eq, LoadCounts.addSlots_addNatives, LoadCounts.addSlots_addNatives,
    ← LoadCounts.addSlots_append, ← LoadCounts.addNatives_add, slotValues, Region.all,
    List.flatMap_cons, List.flatMap_cons, List.flatMap_nil, List.append_nil]
  congr 1
  split <;> rfl

/-- The counts that an image is mapped with. -/
theorem Sound.counts_of_mapImage {μ : Type} [MappingHost μ] {host host' : μ}
    {runtime : ReferenceEncoding} {image : MappedImage} (hsound : a.Sound)
    (hmap : mapImage a host runtime delta = (.ok image, host')) :
    image.counts = a.loadCounts delta := by
  obtain ⟨hcheck, -, -, -, -, p, hpatch, -, hcounts⟩ := of_mapImage hmap
  have hslot : (a.rebasing runtime image.heap.base).slotSize = a.slotSize :=
    (checkEncodings_eq_ok hcheck).1.symm
  rw [hcounts]
  exact hsound.counts_of_patchImage hslot hpatch

end Archive

/-! ## Copied objects -/

/-- The copies from the open region and those from the closed one are all copies. -/
theorem Copy.filter_append_perm (cs : List Copy) :
    ((cs.filter fun c => c.region = .opened) ++ cs.filter fun c => c.region = .closed).Perm cs := by
  have hclosed : (cs.filter fun c => !decide (c.region = .opened)) =
      cs.filter fun c => c.region = .closed := by
    apply List.filter_congr
    intro c _
    cases c.region <;> rfl
  have hperm := List.filter_append_perm (fun c => c.region = .opened) cs
  rwa [hclosed] at hperm

namespace CopyPlan.Complete

variable {p : CopyPlan} {b : ByteArray} {cs : List Copy}

/-- What a map of a region marks it marks in the copies from there. -/
theorem toList_eq (hall : p.Complete b cs) {region : Region} {m : BitMap} {width : Nat}
    (hwidth : 0 < width) (hword : width ∣ wordSize)
    (hsize : m.size = (p.header.range region).length / width) :
    m.toList = (cs.filter fun c => c.region = region).flatMap fun c =>
      m.ones ((c.span.offset - p.bottom region) / width)
        ((c.span.offset - p.bottom region) / width + c.span.size / width) := by
  have hrow := hall region
  have hsizes : ∀ o ∈ (cs.filter fun c => c.region = region).map Copy.span, width ∣ o.size := by
    intro o ho
    rw [(hrow.found o ho).size]
    exact Nat.dvd_trans hword (TypeKind.wordSize_dvd_objectSize ..)
  have hones := m.ones_of_tiles hwidth (Nat.le_refl _) (Nat.sub_self _ ▸ Nat.dvd_zero _) hsizes
    hrow.tiles
  rw [Nat.sub_self, Nat.zero_div, List.flatMap_map] at hones
  rw [BitMap.toList, hsize, Extent.length, hones]
  rfl

/-- What a map of a region marks in all copies from it. -/
theorem sum_length_places (hall : p.Complete b cs) {region : Region} {m : BitMap} {width : Nat}
    (hwidth : 0 < width) (hword : width ∣ wordSize)
    (hsize : m.size = (p.header.range region).length / width) :
    ((cs.filter fun c => c.region = region).map fun c =>
      (c.places m width (p.bottom region)).length).sum = m.count := by
  rw [BitMap.count_eq_length, hall.toList_eq hwidth hword hsize, List.length_flatMap]
  congr 1
  apply List.map_congr_left
  intro c _
  exact List.length_map ..

/-- **The native pointers of all copies** are those that the maps mark, unless they stay where they
are. -/
theorem sum_nativeCount (hall : p.Complete b cs) (hsize : ∀ region,
      (p.maps region).natives.size = (p.header.range region).length / wordSize) :
    (cs.map fun c => c.nativeCount p).sum =
      if p.delta = 0 then 0 else p.opened.natives.count + p.closed.natives.count := by
  by_cases hzero : p.delta = 0
  · simp [Copy.nativeCount, hzero]
  · have hregion : ∀ region, ((cs.filter fun c => c.region = region).map fun c =>
        c.nativeCount p).sum = (p.maps region).natives.count := by
      intro region
      rw [← hall.sum_length_places (by decide) (Nat.dvd_refl _) (hsize region)]
      congr 1
      apply List.map_congr_left
      intro c hc
      rw [Copy.nativeCount, if_neg hzero, Copy.natives,
        of_decide_eq_true (List.mem_filter.mp hc).2]
    have hsplit := (Copy.filter_append_perm cs).map fun c => c.nativeCount p
    rw [if_neg hzero, ← hsplit.sum_nat, List.map_append, List.sum_append, hregion, hregion]
    rfl

end CopyPlan.Complete

namespace Archive.HoldsMembers

variable {a : Archive} {g : ObjectGraph} {r : TypeRegistry} {roots : List ObjectId}
variable {native : Extent} {members : Region → List Placed} {ref : ObjectId → Nat}
variable {runtime : ReferenceEncoding} {delta : UInt64} {cs : List Copy}
variable {h h' : Arena} {o : CopiedObjects}

/-- Every copy is that of one member, and every member has one copy. -/
theorem exists_members_of_copies (hm : a.HoldsMembers g r roots native members ref)
    (hslot : a.encoding.slotSize = runtime.slotSize)
    (hloads : (a.plan runtime delta).Loads a.image h o h' cs) : ∃ f : Copy → Placed,
      (∀ c ∈ cs, f c ∈ members c.region ∧ c.span = (f c).span runtime.slotSize) ∧
      (cs.map f).Perm (allMembers members) := by
  obtain ⟨root, -, -⟩ := hm.root
  have hnonempty : Nonempty Placed := ⟨root⟩
  have hmember : ∀ c ∈ cs, ∃ x, x ∈ members c.region ∧ c.span = x.span runtime.slotSize :=
    fun c hc => hm.member_of_copy hslot hloads.all hc
  choose! f hf using hmember
  have hnodup : cs.Nodup := by
    refine hloads.apart.imp_of_mem ?_
    rintro c _ hc - hapart rfl
    have hpos := hloads.all.size_pos hc
    rw [Copy.stop] at hapart
    omega
  refine ⟨f, hf, (List.perm_ext_iff_of_nodup ?_ hm.nodup).mpr ?_⟩
  · -- Two copies of one member would be of one place in the image.
    refine (List.nodup_map_iff_inj_on hnodup).mpr ?_
    intro c hc d hd heq
    refine hm.eq_of_span_offset_eq hslot hloads.all hc hd ?_
    rw [(hf c hc).2, (hf d hd).2, heq]
  · intro x
    rw [List.mem_map, mem_allMembers]
    constructor
    · rintro ⟨c, hc, rfl⟩
      exact ⟨c.region, (hf c hc).1⟩
    · rintro ⟨region, hx⟩
      obtain ⟨c, hc, -, hspan, -⟩ := hm.copy_of_member hslot hloads.all hx
      have hoffset : (f c).offset = x.offset :=
        congrArg ObjectSpan.offset ((hf c hc).2.symm.trans hspan)
      exact ⟨c, hc, (hm.eq_of_offset_eq (hf c hc).1 hx hoffset).2⟩

/-- The marked references of a copy are those of the member in their order. -/
theorem references_eq (hm : a.HoldsMembers g r roots native members ref)
    (hslot : a.encoding.slotSize = runtime.slotSize) {c : Copy} {x : Placed}
    (hx : x ∈ members c.region) (hspan : c.span = x.span runtime.slotSize) :
    c.references (a.plan runtime delta) =
      (x.member.referenceOffsets runtime.slotSize).map (c.dest + ·) := by
  have hof : ∀ y ∈ [(⟨x.member, c.dest⟩ : Placed)], y.member.Of g r roots :=
    List.forall_mem_singleton.mpr (hm.of c.region x hx)
  rw [← Placed.slots_singleton ⟨x.member, c.dest⟩]
  -- Both lists are in ascending order, so it is enough that they have the same elements.
  refine List.Pairwise.eq_of_mem_iff (r := (· < ·)) ?_
    (Placed.slots_pairwise runtime.isSlotSize hof (List.pairwise_singleton ..)) ?_
  · refine (c.places_ascending ..).imp ?_
    intro i j hij
    exact Nat.lt_of_lt_of_le (Nat.lt_add_of_pos_right (a.plan runtime delta).isSlotSize.pos) hij
  · intro i
    rw [hm.mem_references hslot hx hspan, Placed.slots_singleton, List.mem_map]
    exact ⟨fun ⟨k, hk, heq⟩ => ⟨k, hk, heq.symm⟩, fun ⟨k, hk, heq⟩ => ⟨k, hk, heq.symm⟩⟩

/-- **The counts of a copied dump** are those of its archive. -/
theorem counts_of_loads (hm : a.HoldsMembers g r roots native members ref) (hsound : a.Sound)
    (hslot : a.encoding.slotSize = runtime.slotSize)
    (hloads : (a.plan runtime delta).Loads a.image h o h' cs) :
    o.counts = a.loadCounts delta := by
  obtain ⟨v, hcopies, hcounts⟩ := hloads.counts
  obtain ⟨f, hf, hperm⟩ := hm.exists_members_of_copies hslot hloads
  -- A slot of a copy is null exactly if the field of the member is.
  have hnulls : ((cs.flatMap fun c => c.references (a.plan runtime delta)).map fun i =>
      decide (Bytes.number v i runtime.slotSize = 0)) =
        (cs.map f).flatMap fun x => x.member.nulls runtime.slotSize := by
    rw [List.map_flatMap, List.flatMap_map]
    apply List.flatMap_congr
    intro c hc
    obtain ⟨hx, hspan⟩ := hf c hc
    rw [hm.references_eq hslot hx hspan, List.map_map]
    have hof : (⟨(f c).member, c.dest⟩ : Placed).member.Of g r roots := hm.of c.region (f c) hx
    exact Placed.map_referenceOffsets hof runtime.isSlotSize
      (hm.held_of_copy hslot (hcopies c hc) hx hspan) fun d hd i hv =>
        hm.ref_ne_zero hx (hslot.symm ▸ hd) hv
  have hnatives := hloads.all.sum_nativeCount fun region => by
    rw [maps_plan]
    exact hsound.size_natives region
  rw [hcounts, hnatives, loadCounts_eq]
  apply LoadCounts.addSlots_congr
  rw [hm.nulls_slotValues, List.map_map, hslot]
  exact (List.Perm.of_eq hnulls).trans (hperm.flatMap_right _)

end Archive.HoldsMembers

end HeapImage
