import HeapImage.Proofs.CheckedCopying
import HeapImage.Proofs.FileRoundTrip

/-! # Memory safety

Reading a file checks its header only. The image, the maps and the types are whatever the file says:
regions need not start at heap words, maps may mark any slots, and objects may have any lengths.
Nothing that goes through them leaves the bytes and the bits that are there all the same.

* `Archive.safe_of_ofBytes`: checking the maps, mapping and copying come to no fault. -/

namespace HeapImage

/-- **Memory safety.** Whatever bytes an archive has been read from, with its digest checked or not,
checking its maps, mapping its image for any host and copying its objects into any heap go to bytes
and bits only that are there: with every access checked they give what they give without checks. A
walk through a region, be it in place or in a copy of its bytes, comes to no more objects than there
is room for headers. -/
theorem Archive.safe_of_ofBytes {bytes : ByteArray} {checksum : Bool} {a : Archive}
    (hread : ofBytes bytes checksum = .ok a) :
    Checked.checkMaps a = .ok a.checkMaps ∧
    (∀ (μ : Type) [MappingHost μ] [HeapSums μ] (host : μ) (runtime : ReferenceEncoding)
      (delta : UInt64), Checked.mapImage .unbounded a host runtime delta =
        .ok (mapImage a host runtime delta)) ∧
    (∀ (μ : Type) [Destination μ] [HeapSums μ] (heap : μ) (runtime : ReferenceEncoding)
      (delta : UInt64), Checked.copyImage .unbounded a heap runtime delta =
        .ok (copyImage a heap runtime delta)) ∧
    (∀ (b : ByteArray) (slot : Nat) (region : Region),
      headerSize * (ObjectSpan.scan b a.types slot (a.header.range region).bottom
        (a.header.range region).top).1.length ≤ (a.header.range region).length) ∧
    ∀ (b : ByteArray) (slot : Nat),
      headerSize * (ObjectSpan.scan b a.types slot 0 b.size).1.length ≤ b.size := by
  have hsound := sound_of_ofBytes hread
  refine ⟨hsound.checkMaps_eq_ok, ?_, ?_, ?_, ?_⟩
  · -- Without an end of memory, all sums fit.
    intro μ _ _ host runtime delta
    exact hsound.mapImage_eq_ok rfl (fun _ _ => trivial) (fun _ _ _ => trivial)
      (AddressSpace.covers_unbounded _)
  · intro μ _ _ heap runtime delta
    exact hsound.copyImage_eq_ok (sumsFit_unbounded μ) trivial trivial
      (AddressSpace.covers_unbounded _)
  · intro b slot region
    exact ObjectSpan.length_scan_le b a.types slot (hsound.bounds region).1
  · intro b slot
    exact ObjectSpan.length_scan_le b a.types slot (Nat.zero_le b.size)

/-- The file of the cycle. -/
theorem Archive.safe_of_ofBytes_cycle : ∃ a, ofBytes a.toBytes false = .ok a ∧
    Checked.checkMaps a = .ok a.checkMaps ∧
    Checked.mapImage .unbounded a Arena.standard (.narrow 0 3) 0 =
      .ok (mapImage a Arena.standard (.narrow 0 3) 0) ∧
    Checked.copyImage .unbounded a Arena.standard (.narrow 0 3) 0 =
      .ok (copyImage a Arena.standard (.narrow 0 3) 0) := by
  obtain ⟨a, hdump, hsize⟩ := exists_dump_cycle_fileSize_lt
  obtain ⟨-, -, hread⟩ := sections_of_dump DumpOptions.inWords_small TypeRegistry.fitsTable_pairs
    hdump hsize
  obtain ⟨hmaps, hmap, hcopy, -, -⟩ := safe_of_ofBytes (hread false)
  exact ⟨a, hread false, hmaps, hmap Arena _ _ _, hcopy Arena _ _ _⟩

end HeapImage
