import HeapImage.Proofs.CheckedVerification
import HeapImage.Proofs.CountedLoads
import HeapImage.Proofs.MappedDumps

/-! # Every load verifies, and all loads count alike

The objects of a dump, wherever a load has put them, are a sound heap: they tile the extents that
the load gives, and their references lead to each other, also those of objects that the roots do not
reach. What verification counts there is what the load has counted and what the maps of the archive
mark, so an image that is mapped and one that is copied report the same counts.

A load is given the archive itself, as the dump left it. A program that reads it from a file loads
the same archive, as long as the file is read back as the archive that was written.

* `Archive.withView`: an archive from memory or from disk.
* `LoadOutcome.counts?`, `Archive.LoadsTo`: a load that succeeds, with its counts.
* `Archive.HoldsMembers.verifyHeap_of_copyImage`: copied objects are a sound heap.
* `Archive.verifyOutcome_of_loadsTo`: the counts of all loads. -/

namespace HeapImage

/-- What was adjusted, if the archive was loaded. -/
def LoadOutcome.counts? : LoadOutcome → Option LoadCounts
  | mapped m => some m.counts
  | loaded c => some c.counts
  | disabled _ => none

namespace Archive

/-- The archive with or without a view of its file. -/
def withView (a : Archive) (isMapped : Bool) : Archive := { a with isMapped := isMapped }

/-- The view of a sound archive is sound. -/
theorem Sound.withView {a : Archive} (h : a.Sound) (isMapped : Bool) :
    (a.withView isMapped).Sound :=
  { h with }

/-- The view of an archive holds the same members. -/
theorem HoldsMembers.withView {a : Archive} {g : ObjectGraph} {r : TypeRegistry}
    {roots : List ObjectId} {native : Extent} {members : Region → List Placed}
    {ref : ObjectId → Nat} (h : a.HoldsMembers g r roots native members ref) (isMapped : Bool) :
    (a.withView isMapped).HoldsMembers g r roots native members ref :=
  { h with }

/-- The archive, from memory or from disk, is mapped into some heap or copied to it, with an outcome
and some counts. All memory of the heap that this leads to and all address ranges that it has set
aside are in the address space, and none of them starts at null. -/
structure LoadsTo (a : Archive) (runtime : ReferenceEncoding) (delta : UInt64)
    (outcome : LoadOutcome) (heap : Arena) (counts : LoadCounts) : Prop where
  run : ∃ (before : Arena) (isMapped : Bool), before.Reachable ∧
    LoadOutcome.From (a.withView isMapped) before runtime delta outcome heap
  addressable : heap.Addressable
  granted : ∀ e ∈ heap.reservations.toList, e.bottom ≠ 0 ∧ e.top ≤ 2 ^ 64
  counts : outcome.counts? = some counts

/-- What a program that starts up loads has been mapped or copied. -/
theorem LoadsTo.of_loadArchive {a : Archive} {source : ArchiveSource} {options : LoadOptions}
    {isMapped : Bool} {before heap : Arena} {outcome : LoadOutcome} {counts : LoadCounts}
    (hopen : source.open? options.verifyChecksum = .ok (a.withView isMapped))
    (hreachable : before.Reachable)
    (hload : loadArchive source before options = (.ok outcome, heap))
    (haddressable : heap.Addressable)
    (hgranted : ∀ e ∈ heap.reservations.toList, e.bottom ≠ 0 ∧ e.top ≤ 2 ^ 64)
    (hcounts : outcome.counts? = some counts) :
    a.LoadsTo (options.runtime.getD a.encoding) (nativeDelta a options) outcome heap counts := by
  refine ⟨⟨before, isMapped, hreachable, ?_⟩, haddressable, hgranted, hcounts⟩
  rcases LoadOutcome.from_of_loadArchive hopen hload with ⟨e, rfl⟩ | hfrom
  · cases hcounts
  · exact hfrom

/-! ## Copied objects -/

namespace HoldsMembers

variable {a : Archive} {g : ObjectGraph} {r : TypeRegistry} {roots : List ObjectId}
variable {native : Extent} {members : Region → List Placed} {ref : ObjectId → Nat}
variable {runtime : ReferenceEncoding} {delta : UInt64} {cs : List Copy}
variable {h h' : Arena} {o : CopiedObjects}

/-- The blocks of a copied dump are filled with its members. -/
theorem exists_rows_of_loads (hm : a.HoldsMembers g r roots native members ref)
    (hslot : a.encoding.slotSize = runtime.slotSize)
    (hloads : (a.plan runtime delta).Loads a.image h o h' cs) :
    ∃ rows : List (Extent × List Placed), o.extents = rows.map Prod.fst ∧
      (∀ row ∈ rows, Placed.Row runtime.slotSize row.1.bottom row.2 row.1.top) ∧
      (rows.flatMap Prod.snd).Perm (moved members (addressOfCopy cs)) := by
  obtain ⟨f, hf, hperm⟩ := hm.exists_members_of_copies hslot hloads
  obtain ⟨groups, hblocks, hcs, hcovers⟩ := hloads.blocks
  refine ⟨groups.map fun group =>
    (group.1.dest, group.2.map fun c => (f c).moveTo (addressOfCopy cs)), ?_, ?_, ?_⟩
  · rw [CopiedObjects.extents, hblocks, List.map_map, List.map_map]
    rfl
  · refine List.forall_mem_map.mpr ?_
    intro group hgroup
    have hmem : ∀ c ∈ group.2, c ∈ cs := by
      intro c hc
      rw [hcs]
      exact List.mem_flatMap.mpr ⟨group, hgroup, hc⟩
    refine Tiles.map (d := 0) (hcovers group hgroup).dest ?_ ?_
    · intro c hc
      have hplace := hm.addressOfCopy_eq hslot hloads.all (hmem c hc)
      rw [(hf c (hmem c hc)).2] at hplace
      exact hplace
    · intro c hc
      rw [(hf c (hmem c hc)).2]
      rfl
  · rw [List.flatMap_map, ← List.map_flatMap, ← hcs, moved]
    -- Blocks are filled in the order of the heap, the members are listed in that of the regions.
    have hmoved := hperm.map (Placed.moveTo (addressOfCopy cs))
    rwa [List.map_map] at hmoved

/-- **Copied objects of a dump** are a heap that verification accepts, with the counts of the
archive, and the copy has counted the same. -/
theorem verifyHeap_of_copyImage (hm : a.HoldsMembers g r roots native members ref)
    (hsound : a.Sound) (hw : h.WellFormed) (hcopy : copyImage a h runtime delta = (.ok o, h'))
    (haddress : h'.Addressable) :
    verifyHeap h' o.types o.encoding o.extents = .ok a.report ∧ o.counts = a.loadCounts delta := by
  obtain ⟨hcheck, htypes, hencoding, -⟩ := of_copyImage hcopy
  obtain ⟨-, -, hshift⟩ := checkEncodings_eq_ok hcheck
  obtain ⟨hslot, cs, hloads⟩ := hm.exists_loads hw hcopy haddress
  obtain ⟨rows, hextents, hrows, hmembers⟩ := hm.exists_rows_of_loads hslot hloads
  refine ⟨?_, hm.counts_of_loads hsound hslot hloads⟩
  rw [hextents, htypes, hm.types, hencoding]
  exact hm.verifyHeap_eq hslot (hm.presents_of_loads hslot hloads)
    (ReferenceEncoding.check_eq_ok.mpr hshift) hrows hmembers

/-- The root of copied objects is one of the objects that verification finds. -/
theorem exists_root_of_copyImage (hm : a.HoldsMembers g r roots native members ref)
    (hw : h.WellFormed) (hcopy : copyImage a h runtime delta = (.ok o, h'))
    (haddress : h'.Addressable) :
    ∃ objects, VerifiedObject.walkAll h' o.types o.encoding.slotSize o.extents = .ok objects ∧
      ∃ x ∈ objects.toList, x.address = o.root := by
  obtain ⟨-, htypes, hencoding, -⟩ := of_copyImage hcopy
  obtain ⟨hslot, cs, hloads⟩ := hm.exists_loads hw hcopy haddress
  obtain ⟨rows, hextents, hrows, hmembers⟩ := hm.exists_rows_of_loads hslot hloads
  obtain ⟨objects, hwalk, hlist⟩ :=
    (hm.presents_of_loads hslot hloads).exists_walkAll hrows hmembers
  obtain ⟨x, hx, -, hroot⟩ := hm.root_of_loads hslot hloads
  rw [hextents, htypes, hm.types, hencoding, ← hroot]
  refine ⟨objects, hwalk, x.verified, ?_, rfl⟩
  rw [hlist]
  exact List.mem_map_of_mem (hmembers.mem_iff.mpr hx)

end HoldsMembers

/-! ## All loads -/

variable {r : TypeRegistry} {g : ObjectGraph} {selection : Selection} {o : DumpOptions}
variable {a : Archive} {runtime : ReferenceEncoding} {delta : UInt64} {outcome : LoadOutcome}
variable {heap : Arena} {counts : LoadCounts}

/-- What a load that succeeds leads to is accepted, and the load has counted what there is to count
in the archive. -/
theorem LoadsTo.verifyOutcome_eq (hload : a.LoadsTo runtime delta outcome heap counts)
    (hwords : o.InWords) (hdump : dump r g selection o = .ok a) (hsize : a.fileSize < 2 ^ 64) :
    verifyOutcome heap outcome = .ok a.report ∧ counts = a.loadCounts delta := by
  obtain ⟨members, ref, hm⟩ := holdsMembers_of_dump hwords hdump
  obtain ⟨before, isMapped, hreachable, hfrom⟩ := hload.run
  have hview := hm.withView isMapped
  have hsound := (sound_of_dump hwords hdump hsize).withView isMapped
  have hcounts := hload.counts
  cases hfrom with
  | mapped hmap =>
    obtain ⟨hbase, htop⟩ := hload.granted _ (mem_reservations_of_mapImage hmap)
    exact ⟨hview.verifyHeap_of_mapImage hmap hbase htop,
      (Option.some.inj hcounts).symm.trans (hsound.counts_of_mapImage hmap)⟩
  | loaded hchunks hnext hcopy =>
    obtain ⟨hverify, heq⟩ := hview.verifyHeap_of_copyImage hsound
      (hreachable.wellFormed.congr hchunks hnext) hcopy hload.addressable
    exact ⟨hverify, (Option.some.inj hcounts).symm.trans heq⟩

/-- **Every load verifies.** Whatever has been dumped, be it mapped or copied, under whatever
encoding and with whatever native image, verification accepts what a load that succeeds leads to. It
finds all objects that were dumped, and as many references and nulls as the load has counted, and
meets no sum that is too large where the ends of the loaded objects are addresses. References and
nulls together are the set bits of the maps of references, and if native pointers move, the load has
moved one for each set bit of the maps of native pointers. So any two loads of the archive count
alike, as long as both move native pointers or neither does. -/
theorem verifyOutcome_of_loadsTo (hwords : o.InWords) (hdump : dump r g selection o = .ok a)
    (hsize : a.fileSize < 2 ^ 64) (hload : a.LoadsTo runtime delta outcome heap counts) :
    verifyOutcome heap outcome =
        .ok ⟨a.header.objectCount.toNat, counts.references, counts.nulls⟩ ∧
      (∀ checks : Checks, (∀ x ∈ outcome.extents, checks.space.Has x.top) →
        Checked.verifyOutcome checks heap outcome =
          .ok (.ok ⟨a.header.objectCount.toNat, counts.references, counts.nulls⟩)) ∧
      counts.references + counts.nulls = a.opened.references.count + a.closed.references.count ∧
      (delta ≠ 0 → counts.natives = a.opened.natives.count + a.closed.natives.count) ∧
      ∀ runtime' delta' outcome' heap' counts',
        a.LoadsTo runtime' delta' outcome' heap' counts' → (delta' = 0 ↔ delta = 0) →
          counts' = counts := by
  obtain ⟨hverify, rfl⟩ := hload.verifyOutcome_eq hwords hdump hsize
  refine ⟨hverify, fun checks htops => Checked.verifyOutcome_eq_ok htops hverify,
    a.references_add_nulls _, fun hne => if_neg hne, ?_⟩
  intro runtime' delta' outcome' heap' counts' hload' hdelta
  obtain ⟨-, rfl⟩ := hload'.verifyOutcome_eq hwords hdump hsize
  rw [loadCounts, loadCounts]
  simp only [hdelta]

/-- The cycle verifies in a heap, mapped and copied, and both loads count alike. -/
theorem verifyOutcome_of_loadsTo_cycle : ∃ a counts,
    dump .pairs .cycle .cycle .small = .ok a ∧ a.fileSize < 2 ^ 64 ∧
    nativeDelta a (.distant .mapped) ≠ 0 ∧
    counts.natives = a.opened.natives.count + a.closed.natives.count ∧
    ∀ mode ∈ [LoadMode.mapped, .loaded], ∃ outcome heap,
      loadArchive (.memory a.toBytes) Arena.distant (.distant mode) = (.ok outcome, heap) ∧
      a.LoadsTo (.narrow 0x2000 3) (nativeDelta a (.distant mode)) outcome heap counts ∧
      verifyOutcome heap outcome =
        .ok ⟨a.header.objectCount.toNat, counts.references, counts.nulls⟩ := by
  obtain ⟨a, image, objects, h, h', hdump, hsize, hmap, haddress, hgranted, hcopy, haddress',
    hgranted'⟩ := exists_load_cycle
  obtain ⟨-, -, hread⟩ := sections_of_dump DumpOptions.inWords_small TypeRegistry.fitsTable_pairs
    hdump hsize
  have hview : a = a.withView false := by
    rw [withView, ← (parts_of_dump DumpOptions.inWords_small hdump).2]
  obtain ⟨members, ref, hm⟩ := holdsMembers_of_dump DumpOptions.inWords_small hdump
  have hreachable : Arena.Reachable .distant := .withMapping _ .standard
  have hopen : ArchiveSource.open? (.memory a.toBytes) false = .ok (a.withView false) :=
    (hread false).trans (congrArg Except.ok hview)
  have hmapped : loadArchive (.memory a.toBytes) Arena.distant (.distant .mapped) =
      (.ok (.mapped image), h) := LoadOutcome.loadArchive_mapped (hread false) rfl rfl hmap
  have hcopied : loadArchive (.memory a.toBytes) Arena.distant (.distant .loaded) =
      (.ok (.loaded objects), h') := LoadOutcome.loadArchive_loaded (hread false) rfl rfl hcopy
  have hloads : a.LoadsTo _ _ (.mapped image) h image.counts :=
    .of_loadArchive hopen hreachable hmapped haddress hgranted rfl
  have hloads' : a.LoadsTo _ _ (.loaded objects) h' objects.counts :=
    .of_loadArchive hopen hreachable hcopied haddress' hgranted' rfl
  have hdelta : nativeDelta a (.distant .mapped) ≠ 0 := by
    change 0x18000 - a.header.nativeBase ≠ 0
    rw [hm.nativeBase]
    decide
  obtain ⟨hverify, -, -, hnatives, halike⟩ := verifyOutcome_of_loadsTo DumpOptions.inWords_small
    hdump hsize hloads
  obtain ⟨hverify', -⟩ := verifyOutcome_of_loadsTo DumpOptions.inWords_small hdump hsize hloads'
  -- Both loads count alike, since both count what the archive has.
  have hsame : objects.counts = image.counts := halike _ _ _ _ _ hloads' Iff.rfl
  rw [hsame] at hloads' hverify'
  refine ⟨a, image.counts, hdump, hsize, hdelta, hnatives hdelta, ?_⟩
  intro mode hmode
  rcases List.mem_cons.mp hmode with rfl | hmode
  · exact ⟨_, _, hmapped, hloads, hverify⟩
  · obtain rfl := List.mem_singleton.mp hmode
    exact ⟨_, _, hcopied, hloads', hverify'⟩

end Archive

end HeapImage
