import HeapImage.Proofs.FailedLoads
import HeapImage.Proofs.LoadSafety

/-! # What a copy hands over

A copy hands the blocks of its objects over to the heap when both passes are done, in the order of
the image. Only then is the root array looked up. A copy that fails has therefore handed nothing
over, as long as an object starts at the offset that the header gives for the root array. The check
of a header asks only that a root array at this offset would lie in the open region.

* `Archive.objectStarts`: where the objects of an image start.
* `Arena.Receives`: a heap to which some blocks have been handed over.
* `Archive.receives_of_copyImage`: what a copy hands over. -/

namespace HeapImage

/-- The image offsets at which objects start. -/
def Archive.objectStarts (a : Archive) : List Nat :=
  Region.all.flatMap fun region =>
    (ObjectSpan.scan a.image a.types a.slotSize (a.header.range region).bottom
      (a.header.range region).top).1.map ObjectSpan.offset

/-- Some blocks have been handed over to a heap, each of them once, in the order of the image. -/
structure Arena.Receives (h : Arena) (blocks : List Block) (h' : Arena) : Prop where
  loadedRegions : h'.loadedRegions.toList = h.loadedRegions.toList ++ blocks.map Block.dest
  ordered : blocks.Pairwise fun b c => b.streamTop ≤ c.streamOffset

namespace CopyStep

/-- Blocks are handed over in order, behind those that the heap had. -/
theorem loadedRegions_completeLoaded (blocks : Array Block) (h : Arena) :
    (blocks.foldl (fun h b => Destination.completeLoaded h b.dest) h).loadedRegions.toList =
      h.loadedRegions.toList ++ blocks.toList.map Block.dest := by
  rw [← Array.foldl_toList]
  induction blocks.toList generalizing h with
  | nil => exact (List.append_nil _).symm
  | cons b bs ih =>
    rw [List.foldl_cons, ih, List.map_cons, List.append_cons]
    exact congrArg (· ++ _) Array.toList_push

end CopyStep

/-- Blocks are in the order of their copies. -/
theorem Grouped.ordered {blocks : List Block} {cs : List Copy} (h : Grouped blocks cs)
    (hstream : cs.Pairwise fun c d => c.span.stop ≤ d.span.offset) :
    blocks.Pairwise fun b c => b.streamTop ≤ c.streamOffset := by
  obtain ⟨groups, rfl, rfl, hcovers⟩ := h
  rw [List.pairwise_map]
  refine (List.pairwise_flatMap.mp hstream).2.imp_of_mem ?_
  intro g k hg hk hbetween
  obtain ⟨c, hc, hstop⟩ := (hcovers g hg).stream.exists_last (hcovers g hg).ne_nil
  obtain ⟨d, hd, hoffset⟩ := (hcovers k hk).stream.exists_first (hcovers k hk).ne_nil
  exact (Nat.le_of_eq hstop.symm).trans (hoffset ▸ hbetween c hc d hd)

/-- A complete copy of an image with a root array has blocks. -/
theorem CopyPlan.Complete.blocks_ne_nil {p : CopyPlan} {b : ByteArray} {cs : List Copy}
    {blocks : List Block} (h : p.Complete b cs) (hregions : p.header.SoundRegions)
    (hgrouped : Grouped blocks cs) : blocks ≠ [] := by
  rintro rfl
  obtain ⟨groups, hgroups, rfl, -⟩ := hgrouped
  obtain rfl := List.map_eq_nil_iff.mp hgroups.symm
  have hempty : (p.header.range .opened).bottom = (p.header.range .opened).top := (h .opened).tiles
  have htop : (p.header.range .opened).top =
      (p.header.range .opened).bottom + p.header.openSize.toNat := rfl
  have hroot := hregions.root_le
  have hpos : 0 < headerSize := by decide
  omega

/-- An object that starts in the image is among those that are copied. -/
theorem CopyPlan.Complete.exists_copy {a : Archive} {runtime : ReferenceEncoding} {delta : UInt64}
    {cs : List Copy} (h : (a.plan runtime delta).Complete a.image cs)
    (hslot : a.slotSize = runtime.slotSize) {offset : Nat} (hstart : offset ∈ a.objectStarts) :
    ∃ c ∈ cs, c.span.offset = offset := by
  obtain ⟨region, -, hregion⟩ := List.mem_flatMap.mp hstart
  obtain ⟨o, ho, rfl⟩ := List.mem_map.mp hregion
  have hrow := h region
  have hscan := (ObjectSpan.scan_eq hrow.tiles.le).mpr hrow
  change ObjectSpan.scan a.image a.types runtime.slotSize _ _ = _ at hscan
  rw [hslot] at ho
  rw [show ObjectSpan.scan a.image a.types runtime.slotSize (a.header.range region).bottom
    (a.header.range region).top = _ from hscan] at ho
  obtain ⟨c, hc, rfl⟩ := List.mem_map.mp ho
  exact ⟨c, (List.mem_filter.mp hc).1, rfl⟩

/-- Both passes together leave blocks to hand over, and mark where the copied objects start. -/
theorem CopyStep.receives_of_runs {p : CopyPlan} {b : ByteArray} {h : Arena}
    {s t : CopyState Arena} {u v : Unit} (hregions : p.header.SoundRegions)
    (hsize : b.size = p.header.imageLength.toNat) (hw : h.WellFormed)
    (hmaterialize :
      Runs (materialize p) ⟨h, b, BitMap.empty (b.size / wordSize), #[], 0, .zero⟩ u s)
    (hrelocate : Runs (relocate p) s v t) :
    t.blocks.toList ≠ [] ∧
      h.Receives t.blocks.toList
        (t.blocks.foldl (fun h b => Destination.completeLoaded h b.dest) t.heap) ∧
      ∃ cs, p.Complete b cs ∧ ∀ c ∈ cs, t.starts.contains (c.span.offset / wordSize) = true := by
  obtain ⟨cs, heap, hcopied, hall, rfl, -⟩ :=
    of_runs_passes hregions hsize hw hmaterialize hrelocate
  have hkept : heap.loadedRegions = h.loadedRegions :=
    ((pending_relocate p).kept hrelocate).trans ((pending_materialize p).kept hmaterialize)
  refine ⟨hall.blocks_ne_nil hregions hcopied.blocks, ⟨?_, hcopied.blocks.ordered hcopied.stream⟩,
    cs, hall, fun c hc => (hcopied.starts _).mpr ⟨c, hc, rfl⟩⟩
  rw [loadedRegions_completeLoaded, hkept]

namespace Archive

variable {bytes : ByteArray} {checksum : Bool} {a : Archive} {h : Arena}

/-- **What a copy hands over.** A copy that succeeds hands over each of its blocks once, in the
order of the image. One that fails has handed nothing over, unless no object starts at the offset of
the root array: then the root array is looked up in vain after the blocks have been handed over. -/
theorem receives_of_copyImage (hread : ofBytes bytes checksum = .ok a) (hreachable : h.Reachable)
    (runtime : ReferenceEncoding) (delta : UInt64) :
    (∀ o h', copyImage a h runtime delta = (.ok o, h') → h.Receives o.blocks.toList h') ∧
    ∀ e h', copyImage a h runtime delta = (.error e, h') →
      h'.loadedRegions = h.loadedRegions ∨
      a.header.rootOffset.toNat ∉ a.objectStarts ∧
        e = .load (.noObjectStart a.header.rootOffset.toNat) ∧
        ∃ blocks, blocks ≠ [] ∧ h.Receives blocks h' := by
  have hsound := sound_of_ofBytes hread
  refine ⟨fun o h' hcopy => ?_, fun e h' hcopy => ?_⟩
  · obtain ⟨-, -, -, t, rfl, hblocks, -, -, hrun⟩ := of_copyImage hcopy
    obtain ⟨s₁, s₂, hmaterialize, hrelocate, rfl, -⟩ := CopyStep.of_runs_load hrun
    obtain ⟨-, hreceives, -⟩ := CopyStep.receives_of_runs hsound.regions hsound.size_image
      hreachable.wellFormed hmaterialize hrelocate
    exact hblocks ▸ hreceives
  · rcases fails_of_copyImage hcopy with ⟨-, rfl⟩ | ⟨hcheck, t, rfl, hfails⟩
    · exact .inl rfl
    · obtain ⟨-, hkept | ⟨s₁, s₂, hmaterialize, hrelocate, hnone, he, rfl⟩⟩ :=
        CopyStep.of_fails_load hfails
      · exact .inl hkept
      · obtain ⟨hne, hreceives, cs, hall, hstarts⟩ := CopyStep.receives_of_runs hsound.regions
          hsound.size_image hreachable.wellFormed hmaterialize hrelocate
        refine .inr ⟨fun hstart => ?_, he, _, hne, hreceives⟩
        -- The root array would be found: the check of the header makes its offset one of words.
        obtain ⟨c, hc, hoffset⟩ := hall.exists_copy (checkEncodings_eq_ok hcheck).1 hstart
        have hroot : a.header.rootOffset.toNat % wordSize = 0 :=
          Nat.mod_eq_zero_of_dvd hsound.regions.dvd_root
        rw [resolve?, if_pos ⟨hroot, hoffset ▸ hstarts c hc⟩] at hnone
        cases hnone

/-! ## A root array that is not there -/

/-- The archive with a header that has the root array at another offset. -/
def withRoot (a : Archive) (offset : UInt64) : Archive :=
  { a with header := { a.header with rootOffset := offset } }

/-- Another root offset keeps the sections where they are. -/
theorem Sections.withRoot (h : a.Sections) (offset : UInt64) : (a.withRoot offset).Sections where
  imageOffset := h.imageOffset
  imageLength := h.imageLength
  typesOffset := h.typesOffset
  typesLength := h.typesLength
  bitmapsOffset := h.bitmapsOffset
  bitmapsLength := h.bitmapsLength
  checksumOffset := h.checksumOffset
  openReferences := h.openReferences
  openNatives := h.openNatives
  closedReferences := h.closedReferences
  closedNatives := h.closedNatives

/-- The cycle of two pairs: it can be copied, it fails in a tiny arena, and it fails after the
hand-over if its root offset is that of no object. -/
theorem exists_handedOver_cycle : ∃ a, dump .pairs .cycle .cycle .small = .ok a ∧
    a.fileSize < 2 ^ 64 ∧ a.header.rootOffset.toNat ∈ a.objectStarts ∧
    (a.withRoot 8).header.check = .ok () ∧
    (∃ o h', copyImage a Arena.standard a.encoding 0 = (.ok o, h')) ∧
    (∃ e h', copyImage a Arena.tiny a.encoding 0 = (.error e, h')) ∧
    ∃ e h', copyImage (a.withRoot 8) Arena.standard a.encoding 0 = (.error e, h') ∧
      h'.loadedRegions ≠ #[] := by
  obtain ⟨a, hdump, hok⟩ : ∃ a, dump .pairs .cycle .cycle .small = .ok a ∧
      decide (a.fileSize < 2 ^ 64 ∧ a.header.rootOffset.toNat ∈ a.objectStarts ∧
        (a.withRoot 8).header.check.isOk = true ∧
        (copyImage a Arena.standard a.encoding 0).1.isOk = true ∧
        (copyImage a Arena.tiny a.encoding 0).1.isOk = false ∧
        (copyImage (a.withRoot 8) Arena.standard a.encoding 0).1.isOk = false ∧
        (copyImage (a.withRoot 8) Arena.standard a.encoding 0).2.loadedRegions ≠ #[]) = true :=
    Except.exists_of_any (by decide +kernel)
  obtain ⟨hsize, hroot, hcheck, hdone, hfull, hmissing, hregions⟩ := of_decide_eq_true hok
  have hends : ∀ run : Except ArchiveError CopiedObjects × Arena,
      (run.1.isOk = true → ∃ o h', run = (.ok o, h')) ∧
      (run.1.isOk = false → ∃ e, run = (.error e, run.2)) := by
    rintro ⟨e | o, h'⟩
    · exact ⟨nofun, fun _ => ⟨e, rfl⟩⟩
    · exact ⟨fun _ => ⟨o, h', rfl⟩, nofun⟩
  obtain ⟨e, hrun⟩ := (hends _).2 hfull
  obtain ⟨e', hrun'⟩ := (hends _).2 hmissing
  exact ⟨a, hdump, hsize, hroot, Except.eq_ok_of_isOk hcheck, (hends _).1 hdone, ⟨e, _, hrun⟩,
    e', _, hrun', hregions⟩

/-- A copy of the cycle hands its blocks over, and nothing if the heap is full after one object. If
the header has the root array in the middle of an object, then the copy fails with everything handed
over. -/
theorem receives_of_copyImage_cycle : ∃ a, ofBytes a.toBytes true = .ok a ∧
    (∃ o h', copyImage a Arena.standard a.encoding 0 = (.ok o, h') ∧
      Arena.standard.Receives o.blocks.toList h') ∧
    (∃ e h', copyImage a Arena.tiny a.encoding 0 = (.error e, h') ∧
      h'.loadedRegions = Arena.tiny.loadedRegions) ∧
    ofBytes (a.withRoot 8).toBytes true = .ok (a.withRoot 8) ∧
    ∃ h' blocks, copyImage (a.withRoot 8) Arena.standard a.encoding 0 =
        (.error (.load (.noObjectStart 8)), h') ∧
      blocks ≠ [] ∧ Arena.standard.Receives blocks h' := by
  obtain ⟨a, hdump, hsize, hroot, hcheck, ⟨o, h₁, hdone⟩, ⟨e₂, h₂, hfull⟩, e₃, h₃, hmissing,
    hregions⟩ := exists_handedOver_cycle
  obtain ⟨hsections, -, hread⟩ := sections_of_dump DumpOptions.inWords_small
    TypeRegistry.fitsTable_pairs hdump hsize
  obtain ⟨htypes, hmapped⟩ := parts_of_dump DumpOptions.inWords_small hdump
  have hread' : ofBytes (a.withRoot 8).toBytes true = .ok (a.withRoot 8) :=
    ofBytes_of_sections (hsections.withRoot 8) hcheck (htypes ▸ TypeRegistry.fitsTable_pairs)
      hmapped true
  refine ⟨a, hread true, ⟨o, h₁, hdone, ?_⟩, ⟨e₂, h₂, hfull, ?_⟩, hread', ?_⟩
  · exact (receives_of_copyImage (hread true) .standard _ _).1 _ _ hdone
  · rcases (receives_of_copyImage (hread true) (.withMaxBytes 40 .standard) _ _).2 _ _ hfull with
      hkept | ⟨hstart, -⟩
    · exact hkept
    · exact absurd hroot hstart
  · rcases (receives_of_copyImage hread' .standard _ _).2 _ _ hmissing with
      hkept | ⟨-, rfl, blocks, hne, hreceives⟩
    · exact absurd hkept hregions
    · exact ⟨h₃, blocks, hmissing, hne, hreceives⟩

end Archive

end HeapImage
