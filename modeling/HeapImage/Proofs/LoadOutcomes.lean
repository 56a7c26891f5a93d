import HeapImage.Proofs.FailedLoads
import HeapImage.Proofs.FileRoundTrip
import HeapImage.Proofs.LoadedMembers
import HeapImage.Proofs.MappedMembers

/-! # What a load has done

A load that does not fail has mapped the image of its archive, or copied the objects, or done
without the archive, whatever was asked for and whatever was tried first.

* `LoadOutcome.From`, `LoadOutcome.from_of_loadArchive`: what has been done when an archive is
  loaded.
* `LoadOutcome.snapshot?`: the snapshot of what was loaded.
* `Archive.exists_load_cycle`: a small graph that is mapped and copied. -/

namespace HeapImage

/-! ## Loading -/

namespace LoadOutcome

/-- An archive has been mapped, or it has been copied to a heap with the same memory as before. -/
inductive From (a : Archive) (heap : Arena) (runtime : ReferenceEncoding) (delta : UInt64) :
    LoadOutcome → Arena → Prop
  | mapped {image : MappedImage} {heap' : Arena} :
    mapImage a heap runtime delta = (.ok image, heap') →
      From a heap runtime delta (mapped image) heap'
  | loaded {objects : CopiedObjects} {k heap' : Arena} : k.chunks = heap.chunks →
    k.nextBase = heap.nextBase → copyImage a k runtime delta = (.ok objects, heap') →
    From a heap runtime delta (loaded objects) heap'

variable {a : Archive} {heap heap' : Arena} {runtime : ReferenceEncoding} {delta : UInt64}
variable {outcome : LoadOutcome} {source : ArchiveSource} {options : LoadOptions}

/-- What mapping gives comes from a mapped image. -/
theorem from_of_mapOutcome (h : mapOutcome a heap runtime delta = (.ok outcome, heap')) :
    From a heap runtime delta outcome heap' := by
  rw [mapOutcome] at h
  split at h
  · rename_i image k hmap
    cases h
    exact .mapped hmap
  · cases h

/-- What copying gives comes from copied objects. -/
theorem from_of_copyOutcome (h : copyOutcome a heap runtime delta = (.ok outcome, heap')) :
    From a heap runtime delta outcome heap' := by
  rw [copyOutcome] at h
  split at h
  · rename_i objects k hcopy
    cases h
    exact .loaded rfl rfl hcopy
  · cases h

/-- **A load** ends with a mapped image or with copied objects, unless it fails. -/
theorem from_of_tryLoad (hopen : source.open? options.verifyChecksum = .ok a)
    (h : tryLoad source heap options = (.ok outcome, heap')) :
    From a heap (options.runtime.getD a.encoding) (nativeDelta a options) outcome heap' := by
  rw [tryLoad_eq_verified hopen] at h
  have hrun := eq_of_verified h
  cases hmode : options.mode with
  | mapped =>
    rw [hmode] at hrun
    exact from_of_mapOutcome hrun
  | loaded =>
    rw [hmode] at hrun
    exact from_of_copyOutcome hrun
  | auto =>
    rw [hmode, attempt_auto hopen] at hrun
    split at hrun
    · rename_i hmapped
      cases hrun
      exact from_of_mapOutcome hmapped
    · exact from_of_copyOutcome hrun

/-- A load that does not fail has loaded the archive or done without it. -/
theorem from_of_loadArchive (hopen : source.open? options.verifyChecksum = .ok a)
    (h : loadArchive source heap options = (.ok outcome, heap')) :
    (∃ e, outcome = disabled e) ∨
      From a heap (options.runtime.getD a.encoding) (nativeDelta a options) outcome heap' := by
  rw [loadArchive] at h
  split at h
  · rename_i outcome' k hload
    cases h
    exact .inr (from_of_tryLoad hopen hload)
  · split at h
    · cases h
      exact .inl ⟨_, rfl⟩
    · cases h

/-- An archive that can be mapped is loaded in mapped mode. -/
theorem loadArchive_mapped {image : MappedImage}
    (hopen : source.open? options.verifyChecksum = .ok a)
    (hmode : options.mode = .mapped) (hverify : options.verifyAfterLoad = false)
    (hmap : mapImage a heap (options.runtime.getD a.encoding) (nativeDelta a options) =
      (.ok image, heap')) :
    loadArchive source heap options = (.ok (mapped image), heap') := by
  rw [loadArchive, tryLoad, hopen]
  dsimp only
  rw [hmode, hverify]
  dsimp only
  rw [mapOutcome, hmap]
  rfl

/-- An archive that can be copied is loaded in loaded mode. -/
theorem loadArchive_loaded {objects : CopiedObjects}
    (hopen : source.open? options.verifyChecksum = .ok a) (hmode : options.mode = .loaded)
    (hverify : options.verifyAfterLoad = false)
    (hcopy : copyImage a heap (options.runtime.getD a.encoding) (nativeDelta a options) =
      (.ok objects, heap')) :
    loadArchive source heap options = (.ok (loaded objects), heap') := by
  rw [loadArchive, tryLoad, hopen]
  dsimp only
  rw [hmode, hverify]
  dsimp only
  rw [copyOutcome, hcopy]
  rfl

/-! ## Snapshots -/

/-- The snapshot of what was loaded, from its root and with the encoding of the running heap. -/
def snapshot? (heap : Arena) : LoadOutcome → Option (Except ArchiveError Snapshot)
  | mapped m => some (Snapshot.ofHeap m.heap m.types m.encoding m.root)
  | loaded c => some (Snapshot.ofHeap heap c.types c.encoding c.root)
  | disabled _ => none

end LoadOutcome

/-- A heap that maps images somewhere else than requested. -/
def Arena.distant : Arena := standard.withMapping (.atFixed 0x300000)

/-- A load under another encoding, with a native image that has been moved. -/
def LoadOptions.distant (mode : LoadMode) : LoadOptions where
  mode := mode
  runtime := some (.narrow 0x2000 3)
  nativeBase := some 0x18000
  verifyAfterLoad := false
  verifyChecksum := false

namespace Archive

/-- The cycle of two pairs can be mapped and copied to an arena far from where it was dumped for. -/
theorem exists_load_cycle : ∃ a image objects h h', dump .pairs .cycle .cycle .small = .ok a ∧
    a.fileSize < 2 ^ 64 ∧
    mapImage a Arena.distant (.narrow 0x2000 3) (nativeDelta a (.distant .mapped)) =
      (.ok image, h) ∧
    h.Addressable ∧ (∀ e ∈ h.reservations.toList, e.bottom ≠ 0 ∧ e.top ≤ 2 ^ 64) ∧
    copyImage a Arena.distant (.narrow 0x2000 3) (nativeDelta a (.distant .loaded)) =
      (.ok objects, h') ∧
    h'.Addressable ∧ ∀ e ∈ h'.reservations.toList, e.bottom ≠ 0 ∧ e.top ≤ 2 ^ 64 := by
  have hok : (match dump .pairs .cycle .cycle .small with
      | .ok a =>
        match mapImage a Arena.distant (.narrow 0x2000 3) (nativeDelta a (.distant .mapped)) with
        | (.ok _, h) =>
          match copyImage a Arena.distant (.narrow 0x2000 3) (nativeDelta a (.distant .loaded)) with
          | (.ok _, h') => decide (a.fileSize < 2 ^ 64 ∧ h.Addressable ∧
            (∀ e ∈ h.reservations.toList, e.bottom ≠ 0 ∧ e.top ≤ 2 ^ 64) ∧ h'.Addressable ∧
            ∀ e ∈ h'.reservations.toList, e.bottom ≠ 0 ∧ e.top ≤ 2 ^ 64)
          | (.error _, _) => false
        | (.error _, _) => false
      | .error _ => false) = true := by decide +kernel
  cases hdump : dump .pairs .cycle .cycle .small with
  | error e =>
    rw [hdump] at hok
    cases hok
  | ok a =>
    rw [hdump] at hok
    dsimp only at hok
    split at hok
    · rename_i image h hmap
      split at hok
      · rename_i objects h' hcopy
        obtain ⟨hsize, haddress, hgranted, haddress', hgranted'⟩ := of_decide_eq_true hok
        exact ⟨a, image, objects, h, h', rfl, hsize, hmap, haddress, hgranted, hcopy, haddress',
          hgranted'⟩
      · cases hok
    · cases hok

end Archive

end HeapImage
