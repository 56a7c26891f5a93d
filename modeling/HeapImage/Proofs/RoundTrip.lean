import HeapImage.Proofs.VerifiedLoads

/-! # From a graph to a heap

A graph that is dumped, written to a file and loaded again is the same graph, whichever way it is
loaded: what can be reached from the root in the heap is what can be reached from the roots of the
dump, with native pointers moved along with the native image.

* `LoadOutcome.checkedSnapshot?`: the snapshot of what was loaded, with all sums checked.
* `LoadOptions.nativeDistance`: how far native pointers are moved.
* `Archive.snapshot_of_loadArchive`: the whole way. -/

namespace HeapImage

/-- The snapshot of what was loaded, all sums on the way being addresses. -/
def LoadOutcome.checkedSnapshot? (space : AddressSpace) (heap : Arena) :
    LoadOutcome → Option (Checked (Except ArchiveError Snapshot))
  | mapped m => some (Checked.ofHeap space m.heap m.types m.encoding m.root)
  | loaded c => some (Checked.ofHeap space heap c.types c.encoding c.root)
  | disabled _ => none

/-- The distance that a load moves a native image, which the dump expected at the start of its
native range. -/
def LoadOptions.nativeDistance (options : LoadOptions) (native : Extent) : UInt64 :=
  match options.nativeBase with
  | some base => base - UInt64.ofNat native.bottom
  | none => 0

namespace Archive

/-- **Round trip.** A graph that is dumped to a file and loaded from it, be it mapped or copied and
under whatever encoding, has the same snapshot in the heap as before. Of its native pointers, those
into the native range have been moved by the distance of the native image. Where the ends of the
loaded objects are addresses, taking the snapshot comes to no sum that is too large. -/
theorem snapshot_of_loadArchive {r : TypeRegistry} {g : ObjectGraph} {selection : Selection}
    {o : DumpOptions} {a : Archive} {options : LoadOptions} {heap heap' : Arena}
    {outcome : LoadOutcome} (hwords : o.InWords) (hfits : r.FitsTable)
    (hdump : dump r g selection o = .ok a) (hsize : a.fileSize < 2 ^ 64)
    (hreachable : heap.Reachable)
    (hload : loadArchive (.memory a.toBytes) heap options = (.ok outcome, heap'))
    (haddress : heap'.Addressable)
    (hgranted : ∀ e ∈ heap'.reservations.toList, e.bottom ≠ 0 ∧ e.top ≤ 2 ^ 64)
    (havailable : outcome.isAvailable = true) :
    ∃ s, Snapshot.ofGraph g r selection.roots
        (movedNative o.native (options.nativeDistance o.native)) = .ok s ∧
      outcome.snapshot? heap' = some (.ok s) ∧
      ∀ space : AddressSpace, (∀ x ∈ outcome.extents, space.Has x.top) →
        outcome.checkedSnapshot? space heap' = some (.ok (.ok s)) := by
  obtain ⟨-, -, hread⟩ := sections_of_dump hwords hfits hdump hsize
  obtain ⟨members, ref, hm⟩ := holdsMembers_of_dump hwords hdump
  have hopen : ArchiveSource.open? (.memory a.toBytes) options.verifyChecksum = .ok a :=
    hread options.verifyChecksum
  have hdelta : nativeDelta a options = options.nativeDistance o.native := by
    unfold nativeDelta LoadOptions.nativeDistance
    cases options.nativeBase with
    | none => rfl
    | some base => exact congrArg (base - ·) hm.nativeBase
  rw [← hdelta]
  rcases LoadOutcome.from_of_loadArchive hopen hload with ⟨e, rfl⟩ | hfrom
  · cases havailable
  · -- An outcome that can be walked through comes from mapping the image or from copying it.
    cases hfrom with
    | mapped hmap =>
      obtain ⟨hbase, htop⟩ := hgranted _ (mem_reservations_of_mapImage hmap)
      obtain ⟨s, hgraph, hheap⟩ := hm.ofHeap_of_mapImage hmap hgranted
      obtain ⟨objects, hwalk, hroot⟩ := hm.exists_root_of_mapImage hmap hbase htop
      have hverify := hm.verifyHeap_of_mapImage hmap hbase htop
      exact ⟨s, hgraph, congrArg some hheap, fun space htops =>
        congrArg some (Checked.ofHeap_eq_ok htops hverify hwalk hroot hheap)⟩
    | loaded hchunks hnext hcopy =>
      have hw := hreachable.wellFormed.congr hchunks hnext
      obtain ⟨s, hgraph, hheap⟩ := hm.ofHeap_of_copyImage hw hcopy haddress
      obtain ⟨objects, hwalk, hroot⟩ := hm.exists_root_of_copyImage hw hcopy haddress
      obtain ⟨hverify, -⟩ := hm.verifyHeap_of_copyImage (sound_of_dump hwords hdump hsize) hw hcopy
        haddress
      exact ⟨s, hgraph, congrArg some hheap, fun space htops =>
        congrArg some (Checked.ofHeap_eq_ok htops hverify hwalk hroot hheap)⟩

/-- The cycle keeps its shape in a heap, mapped and copied. -/
theorem snapshot_of_loadArchive_cycle : ∃ a, dump .pairs .cycle .cycle .small = .ok a ∧
    ∀ mode ∈ [LoadMode.mapped, .loaded], ∃ outcome heap' s,
      loadArchive (.memory a.toBytes) Arena.distant (.distant mode) = (.ok outcome, heap') ∧
      Snapshot.ofGraph .cycle .pairs [⟨0⟩, ⟨1⟩] (movedNative ⟨0x8000, 0x9000⟩ 0x10000) = .ok s ∧
      outcome.snapshot? heap' = some (.ok s) := by
  obtain ⟨a, image, objects, h, h', hdump, hsize, hmap, haddress, hgranted, hcopy, haddress',
    hgranted'⟩ := exists_load_cycle
  obtain ⟨-, -, hread⟩ := sections_of_dump DumpOptions.inWords_small TypeRegistry.fitsTable_pairs
    hdump hsize
  have hreachable : Arena.Reachable .distant := .withMapping _ .standard
  refine ⟨a, hdump, ?_⟩
  intro mode hmode
  rcases List.mem_cons.mp hmode with rfl | hmode
  · have hload : loadArchive (.memory a.toBytes) Arena.distant (.distant .mapped) =
        (.ok (.mapped image), h) := LoadOutcome.loadArchive_mapped (hread false) rfl rfl hmap
    obtain ⟨s, hgraph, hheap, -⟩ := snapshot_of_loadArchive DumpOptions.inWords_small
      TypeRegistry.fitsTable_pairs hdump hsize hreachable hload haddress hgranted rfl
    exact ⟨_, _, s, hload, hgraph, hheap⟩
  · obtain rfl := List.mem_singleton.mp hmode
    have hload : loadArchive (.memory a.toBytes) Arena.distant (.distant .loaded) =
        (.ok (.loaded objects), h') := LoadOutcome.loadArchive_loaded (hread false) rfl rfl hcopy
    obtain ⟨s, hgraph, hheap, -⟩ := snapshot_of_loadArchive DumpOptions.inWords_small
      TypeRegistry.fitsTable_pairs hdump hsize hreachable hload haddress' hgranted' rfl
    exact ⟨_, _, s, hload, hgraph, hheap⟩

end Archive

/-! ## A name that is cut off -/

/-- The standard options but for a small alignment. -/
def DumpOptions.fine : DumpOptions := { standard with alignment := 64 }

/-- The fine options are in words. -/
theorem DumpOptions.inWords_fine : DumpOptions.fine.InWords where
  heapEnd_lt := show 0x800000000 < 2 ^ 64 by decide
  capacity_lt := show 256 * 1024 * 1024 < 2 ^ 64 by decide
  native_lt := show 0x840000000 < 2 ^ 64 by decide

/-- An array of one number. -/
def ObjectGraph.number : ObjectGraph where
  objects := #[⟨1, 0, .scalars [5]⟩]

namespace Archive

/-- Its dump can be loaded with the types that are left of its own, but the number is no reference.
-/
theorem exists_load_oversized : ∃ a o h,
    dump .oversized .number (.default .number) .fine = .ok a ∧
    copyImage (a.withTypes .cutOff) Arena.standard a.encoding 0 = (.ok o, h) ∧ h.Addressable ∧
    (∀ e ∈ h.reservations.toList, e.bottom ≠ 0 ∧ e.top ≤ 2 ^ 64) ∧
    (Snapshot.ofHeap h o.types o.encoding o.root).toOption = none ∧
    (verifyHeap h o.types o.encoding o.extents).toOption = none := by
  let mistaken (o : CopiedObjects) (h : Arena) : Bool :=
    decide (h.Addressable ∧ (∀ e ∈ h.reservations.toList, e.bottom ≠ 0 ∧ e.top ≤ 2 ^ 64) ∧
      (Snapshot.ofHeap h o.types o.encoding o.root).toOption = none ∧
      (verifyHeap h o.types o.encoding o.extents).toOption = none)
  have hok : ((dump .oversized .number (.default .number) .fine).toOption.any fun a =>
      (copyImage (a.withTypes .cutOff) Arena.standard a.encoding 0).1.toOption.any fun o =>
        mistaken o (copyImage (a.withTypes .cutOff) Arena.standard a.encoding 0).2) = true := by
    decide +kernel
  obtain ⟨a, hdump, hok⟩ := Except.exists_of_any hok
  obtain ⟨o, h, hcopy, hok⟩ := Except.exists_of_any_state (p := mistaken) hok
  exact ⟨a, o, h, hdump, hcopy, of_decide_eq_true hok⟩

/-- The file of the dump is read with those types. -/
theorem ofBytes_oversized {a : Archive}
    (hdump : dump .oversized .number (.default .number) .fine = .ok a) :
    a.fileSize < 2 ^ 64 ∧ ∀ checksum, ofBytes a.toBytes checksum = .ok (a.withTypes .cutOff) := by
  have hwords := DumpOptions.inWords_fine
  obtain ⟨htypes, hmapped⟩ := parts_of_dump hwords hdump
  have hsize : a.fileSize < 2 ^ 64 := by
    have hle := fileSize_le_of_dump hwords hdump
    rw [TypeTable.length_encode_oversized, ArchiveHeader.pageSize,
      show DumpOptions.fine.heapEnd = 2 ^ 35 from rfl] at hle
    omega
  obtain ⟨hsections, hheader⟩ := header_of_dump hwords hdump hsize
  exact ⟨hsize, ofBytes_of_decode hsections.inPlace hheader
    (htypes ▸ TypeTable.decode_oversized) hmapped⟩

/-- The types have to fit in a type table: what is left of a longer name may stand for other types,
under which the objects of the graph are something else. -/
theorem snapshot_ne_of_loadArchive : ∃ a outcome heap',
    DumpOptions.fine.InWords ∧
    dump .oversized .number (.default .number) .fine = .ok a ∧ a.fileSize < 2 ^ 64 ∧
    Arena.Reachable .standard ∧
    loadArchive (.memory a.toBytes) Arena.standard { LoadOptions.standard with mode := .loaded } =
      (.ok outcome, heap') ∧
    heap'.Addressable ∧ (∀ e ∈ heap'.reservations.toList, e.bottom ≠ 0 ∧ e.top ≤ 2 ^ 64) ∧
    outcome.isAvailable = true ∧
    ¬ ∃ s, Snapshot.ofGraph .number .oversized (Selection.default .number).roots
        (movedNative DumpOptions.fine.native
          (LoadOptions.standard.nativeDistance DumpOptions.fine.native)) = .ok s ∧
      outcome.snapshot? heap' = some (.ok s) := by
  obtain ⟨a, o, h, hdump, hcopy, haddress, hgranted, hsnapshot, -⟩ := exists_load_oversized
  obtain ⟨hsize, hread⟩ := ofBytes_oversized hdump
  have hload : loadArchive (.memory a.toBytes) Arena.standard
      { LoadOptions.standard with mode := .loaded } = (.ok (.loaded o), h) :=
    LoadOutcome.loadArchive_loaded (hread true) rfl rfl hcopy
  refine ⟨a, .loaded o, h, DumpOptions.inWords_fine, hdump, hsize, .standard, hload, haddress,
    hgranted, rfl, ?_⟩
  rintro ⟨s, -, hs⟩
  rw [Option.some.inj hs] at hsnapshot
  cases hsnapshot

end Archive

end HeapImage
