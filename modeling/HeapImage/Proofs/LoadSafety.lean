import HeapImage.Load.Outcome
import HeapImage.Proofs.CopiedReferences
import HeapImage.Proofs.FileRoundTrip
import HeapImage.Proofs.SoundArchives

/-! # Loading leaves no wild references

Whatever bytes an archive has been read from, the references of its copied objects lead to copied
objects, if both regions of its image start at heap words.

* `Archive.references_of_copyImage`: where the references of a loaded archive lead. -/

namespace HeapImage

/-- **No wild references.** If both regions of an archive start at heap words, then a load that
copies its objects gives memory that was not in use before to each of them. The root that it returns
is the address of a copy, and every marked reference in the blocks that is not null leads to one. -/
theorem Archive.references_of_copyImage {bytes : ByteArray} {checksum : Bool} {a : Archive}
    {h h' : Arena} {runtime : ReferenceEncoding} {delta : UInt64} {o : CopiedObjects}
    (hread : ofBytes bytes checksum = .ok a)
    (haligned : wordSize ∣ a.header.closedOffset.toNat ∨ a.header.closedSize = 0)
    (hreachable : h.Reachable) (hcopy : copyImage a h runtime delta = (.ok o, h'))
    (haddress : h'.Addressable) :
    ∃ cs : List Copy, (a.plan runtime delta).Complete a.image cs ∧
      Grouped o.blocks.toList cs ∧ o.objects = cs.length ∧
      (∀ c ∈ cs, h'.Holds c.dest c.span.size) ∧
      (cs.Pairwise fun c d => c.stop ≤ d.dest ∨ d.stop ≤ c.dest) ∧
      (∀ c ∈ cs, ∀ x n, h.Holds x n → x + n ≤ c.dest ∨ c.stop ≤ x) ∧
      (∃ c ∈ cs, c.dest = o.root) ∧
      ∀ b ∈ o.blocks.toList, ∀ k,
        ((a.plan runtime delta).maps b.region).references.contains k = true →
        b.streamOffset ≤ (a.header.range b.region).bottom + k * runtime.slotSize →
        (a.header.range b.region).bottom + k * runtime.slotSize < b.streamTop →
        ∃ v, Memory.readValue? h' (b.dest.bottom +
            ((a.header.range b.region).bottom + k * runtime.slotSize - b.streamOffset))
            runtime.slotSize = some v ∧
          (v ≠ 0 → ∃ c ∈ cs, runtime.decode v = c.dest) := by
  have hsound := sound_of_ofBytes hread
  obtain ⟨cs, hloads⟩ := loads_of_copyImage hsound.regions hsound.size_image haligned
    hreachable.wellFormed hcopy haddress
  obtain ⟨c, hc, -, hroot⟩ := hloads.root
  obtain ⟨v, -, hrewrites⟩ := hloads.contents
  refine ⟨cs, hloads.all, hloads.blocks, hloads.objects, hloads.holds, hloads.apart, hloads.fresh,
    ⟨c, hc, hroot⟩, ?_⟩
  intro b hb k hk hlow hhigh
  have hslot := List.mem_flatMap.mpr ⟨b, hb, hloads.blocks.mem_slots hloads.all hb hk hlow hhigh⟩
  -- A marked slot of a block is one of the references of a copy.
  rw [hloads.blocks.slots_eq hloads.all] at hslot
  obtain ⟨d, hd, hplace⟩ := List.mem_flatMap.mp hslot
  obtain ⟨hstart, hstop⟩ := Copy.bounds_of_mem_places hplace
  exact ⟨_, ((hloads.holds d hd).part hstart hstop).readValue? hloads.wellFormed
    (a.plan runtime delta).isSlotSize.pos, (hrewrites.inside _ hslot).leads hloads.dest_lt⟩

namespace Archive

/-- The cycle of two pairs can be copied. -/
theorem exists_copy_cycle : ∃ a o h', dump .pairs .cycle .cycle .small = .ok a ∧
    a.fileSize < 2 ^ 64 ∧ wordSize ∣ a.header.closedOffset.toNat ∧
    copyImage a Arena.standard (.narrow 0 3) 0 = (.ok o, h') ∧ h'.Addressable := by
  have hok : (match dump .pairs .cycle .cycle .small with
      | .ok a =>
        match copyImage a Arena.standard (.narrow 0 3) 0 with
        | (.ok _, h') => decide (a.fileSize < 2 ^ 64 ∧ wordSize ∣ a.header.closedOffset.toNat ∧
          h'.Addressable)
        | (.error _, _) => false
      | .error _ => false) = true := by decide +kernel
  cases hdump : dump .pairs .cycle .cycle .small with
  | error e =>
    rw [hdump] at hok
    cases hok
  | ok a =>
    rw [hdump] at hok
    dsimp only at hok
    split at hok
    · rename_i o h' hcopy
      obtain ⟨hsize, hdvd, haddress⟩ := of_decide_eq_true hok
      exact ⟨a, o, h', rfl, hsize, hdvd, hcopy, haddress⟩
    · cases hok

/-- The cycle is copied to a fresh heap. -/
theorem references_of_copyImage_cycle : ∃ a o h' cs, ofBytes a.toBytes false = .ok a ∧
    wordSize ∣ a.header.closedOffset.toNat ∧
    copyImage a Arena.standard (.narrow 0 3) 0 = (.ok o, h') ∧ h'.Addressable ∧
    Grouped o.blocks.toList cs ∧ ∃ c ∈ cs, c.dest = o.root := by
  obtain ⟨a, o, h', hdump, hsize, hdvd, hcopy, haddress⟩ := exists_copy_cycle
  obtain ⟨-, -, hread⟩ := sections_of_dump DumpOptions.inWords_small TypeRegistry.fitsTable_pairs
    hdump hsize
  obtain ⟨cs, -, hgrouped, -, -, -, -, hroot, -⟩ :=
    references_of_copyImage (hread false) (.inl hdvd) .standard hcopy haddress
  exact ⟨a, o, h', cs, hread false, hdvd, hcopy, haddress, hgrouped, hroot⟩

end Archive

end HeapImage
