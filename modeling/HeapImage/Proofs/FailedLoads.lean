import HeapImage.Load.Outcome
import HeapImage.Proofs.FileRoundTrip
import HeapImage.Proofs.PendingCopies

/-! # Loads that fail

A load that fails does so in one of two ways. What makes an archive unusable for this run is found
before anything has been handed over, and the heap is left as it was. Everything that goes wrong
while objects are copied, or is found when references are checked, stops the program. Between the
two there is nothing: a disabled archive has left the heap as it was, and an error is one that the
program cannot do without the archive for.

* `LoadOutcome.Ends`: the ways in which a load can end.
* `LoadOutcome.attempt`, `LoadOutcome.verified`, `LoadOutcome.settled`: a load in three stages.
* `LoadOutcome.loadArchive_leaves`: what a load that fails leaves.
* `LoadOutcome.loadArchive_auto`: a load that tries both ways. -/

namespace HeapImage

/-! ## Verification -/

/-- What verification finds is fatal, if the encoding itself is sound. -/
theorem severity_of_verifyHeap {μ : Type} [Memory μ] {heap : μ} {types : TypeRegistry}
    {encoding : ReferenceEncoding} {extents : List Extent} {e : ArchiveError}
    (hcheck : encoding.check = .ok ()) (h : verifyHeap heap types encoding extents = .error e) :
    e.severity = .fatal := by
  rw [verifyHeap, hcheck] at h
  cases hextents : checkExtents heap types encoding extents with
  | ok report =>
    rw [hextents] at h
    cases h
  | error fault =>
    rw [hextents] at h
    cases h
    rfl

/-! ## Loads -/

namespace LoadOutcome

variable {a : Archive} {source : ArchiveSource} {options : LoadOptions} {heap : Arena}

/-- How a load from a heap ends: what it gives can only be refused for good, it can be done without
and has left the heap as it was, or it stops the program. -/
inductive Ends (heap : Arena) : Except ArchiveError LoadOutcome × Arena → Prop
  | available {outcome : LoadOutcome} {heap' : Arena} : outcome.isAvailable = true →
    (∀ e, verifyOutcome heap' outcome = .error e → e.severity = .fatal) →
    Ends heap (.ok outcome, heap')
  | without {e : ArchiveError} : e.isRecoverable = true → Ends heap (.error e, heap)
  | stopped {e : ArchiveError} {heap' : Arena} : e.severity = .fatal → Ends heap (.error e, heap')

/-- An image is mapped, or it can be done without. -/
theorem mapOutcome_ends (a : Archive) (heap : Arena) (runtime : ReferenceEncoding)
    (delta : UInt64) :
    (∃ outcome heap', mapOutcome a heap runtime delta = (.ok outcome, heap') ∧
      outcome.isAvailable = true ∧
      ∀ e, verifyOutcome heap' outcome = .error e → e.severity = .fatal) ∨
    ∃ e, mapOutcome a heap runtime delta = (.error e, heap) ∧ e.isRecoverable = true := by
  rw [mapOutcome]
  cases hmap : mapImage a heap runtime delta with
  | mk result heap' =>
    cases result with
    | ok image =>
      obtain ⟨hcheck, -, hencoding, -⟩ := of_mapImage hmap
      refine .inl ⟨_, _, rfl, rfl, fun e => severity_of_verifyHeap ?_⟩
      rw [hencoding]
      exact ReferenceEncoding.check_eq_ok.mpr (checkEncodings_eq_ok hcheck).2.2
    | error e =>
      obtain ⟨rfl, he⟩ := of_mapImage_error hmap
      exact .inr ⟨e, rfl, he⟩

/-- Objects are copied, or the load can be done without, or the program stops. -/
theorem ends_copyOutcome (a : Archive) (heap : Arena) (runtime : ReferenceEncoding)
    (delta : UInt64) : Ends heap (copyOutcome a heap runtime delta) := by
  rw [copyOutcome]
  split
  · rename_i objects heap' hcopy
    obtain ⟨hcheck, -, hencoding, -⟩ := of_copyImage hcopy
    refine .available rfl fun e => severity_of_verifyHeap ?_
    rw [hencoding]
    exact ReferenceEncoding.check_eq_ok.mpr (checkEncodings_eq_ok hcheck).2.2
  · rename_i e heap' hcopy
    rcases of_copyImage_error hcopy with ⟨rfl, he⟩ | he
    · exact .without he
    · exact .stopped he

/-- What a mode asks for, with an archive that has been read. -/
def attempt (source : ArchiveSource) (a : Archive) (heap : Arena) (options : LoadOptions) :
    LoadMode → Except ArchiveError LoadOutcome × Arena
  | .mapped => mapOutcome a heap (options.runtime.getD a.encoding) (nativeDelta a options)
  | .loaded => copyOutcome a heap (options.runtime.getD a.encoding) (nativeDelta a options)
  | .auto => autoOutcome source options.verifyChecksum a heap (options.runtime.getD a.encoding)
      (nativeDelta a options)

/-- An image that cannot be mapped is copied to the heap as it was before. -/
theorem attempt_auto (hopen : source.open? options.verifyChecksum = .ok a) :
    attempt source a heap options .auto =
      match attempt source a heap options .mapped with
      | (.ok outcome, heap') => (.ok outcome, heap')
      | (.error _, _) => attempt source a heap options .loaded := by
  change autoOutcome source options.verifyChecksum a heap (options.runtime.getD a.encoding)
    (nativeDelta a options) = _
  rw [autoOutcome, attempt]
  rcases mapOutcome_ends a heap (options.runtime.getD a.encoding) (nativeDelta a options) with
    ⟨outcome, heap', hrun, -⟩ | ⟨e, hrun, he⟩
  · rw [hrun]
  · rw [hrun]
    dsimp only
    rw [if_pos he, hopen]
    rfl

/-- **An attempt** in any mode ends in one of the ways in which a load ends. -/
theorem ends_attempt (hopen : source.open? options.verifyChecksum = .ok a) (mode : LoadMode) :
    Ends heap (attempt source a heap options mode) := by
  have hmapped : Ends heap (attempt source a heap options .mapped) := by
    rw [attempt]
    rcases mapOutcome_ends a heap (options.runtime.getD a.encoding) (nativeDelta a options) with
      ⟨outcome, heap', hrun, houtcome, hverify⟩ | ⟨e, hrun, he⟩
    · exact hrun ▸ .available houtcome hverify
    · exact hrun ▸ .without he
  cases mode with
  | mapped => exact hmapped
  | loaded => exact ends_copyOutcome ..
  | auto =>
    rw [attempt_auto hopen]
    split
    · rename_i hrun
      exact hrun ▸ hmapped
    · exact ends_copyOutcome ..

/-- The run of a load whose references are checked in the end, if that is asked for. -/
def verified (verify : Bool) (run : Except ArchiveError LoadOutcome × Arena) :
    Except ArchiveError LoadOutcome × Arena :=
  match run.1 with
  | .error e => (.error e, run.2)
  | .ok outcome =>
    if verify then
      match verifyOutcome run.2 outcome with
      | .ok _ => (.ok outcome, run.2)
      | .error e => (.error e, run.2)
    else (.ok outcome, run.2)

/-- Without verification an attempt stays as it is. -/
theorem verified_false (run : Except ArchiveError LoadOutcome × Arena) :
    verified false run = run := by
  rcases run with ⟨e | outcome, heap⟩ <;> rfl

/-- Verification keeps the heap. -/
theorem verified_heap (verify : Bool) (run : Except ArchiveError LoadOutcome × Arena) :
    (verified verify run).2 = run.2 := by
  obtain ⟨e | outcome, heap⟩ := run
  · rfl
  · rw [verified]
    dsimp only
    split
    · split <;> rfl
    · rfl

/-- A load whose references are found to be in order has a report of them. -/
theorem exists_report_of_verified {outcome : LoadOutcome} {heap' : Arena}
    (h : (verified true (.ok outcome, heap')).1.isOk = true) :
    ∃ report, verifyOutcome heap' outcome = .ok report := by
  rw [verified] at h
  dsimp only at h
  rw [if_pos rfl] at h
  split at h
  · rename_i report hreport
    exact ⟨report, hreport⟩
  · cases h

/-- A look at the references after a load changes nothing. -/
theorem eq_of_verified {verify : Bool} {run : Except ArchiveError LoadOutcome × Arena}
    {outcome : LoadOutcome} {heap' : Arena} (h : verified verify run = (.ok outcome, heap')) :
    run = (.ok outcome, heap') := by
  obtain ⟨result, k⟩ := run
  cases result with
  | error e => cases h
  | ok outcome' =>
    rw [verified] at h
    dsimp only at h
    split at h
    · split at h
      · exact h
      · cases h
    · exact h

/-- The run of a load that disables the archive if the program can do without it. -/
def settled : Except ArchiveError LoadOutcome × Arena → Except ArchiveError LoadOutcome × Arena
  | (.ok outcome, heap) => (.ok outcome, heap)
  | (.error e, heap) => if e.isRecoverable then (.ok (disabled e), heap) else (.error e, heap)

/-- Trying to load is an attempt in the mode that is asked for, and verification. -/
theorem tryLoad_eq_verified (hopen : source.open? options.verifyChecksum = .ok a) (heap : Arena) :
    tryLoad source heap options =
      verified options.verifyAfterLoad (attempt source a heap options options.mode) := by
  rw [tryLoad, hopen]
  rfl

/-- Loading is trying to load, with recoverable errors settled. -/
theorem loadArchive_eq_settled (source : ArchiveSource) (heap : Arena) (options : LoadOptions) :
    loadArchive source heap options = settled (tryLoad source heap options) := by
  rw [loadArchive]
  rcases tryLoad source heap options with ⟨e | outcome, heap'⟩ <;> rfl

section

variable {run : Except ArchiveError LoadOutcome × Arena} {outcome : LoadOutcome} {heap' : Arena}

/-- Verification leaves a load with one of its ends. -/
theorem Ends.verified (h : Ends heap run) (verify : Bool) :
    Ends heap (LoadOutcome.verified verify run) := by
  cases h with
  | without he => exact .without he
  | stopped he => exact .stopped he
  | available houtcome hverify =>
    rw [LoadOutcome.verified]
    dsimp only
    split
    · split
      · exact .available houtcome hverify
      · rename_i e he
        exact .stopped (hverify e he)
    · exact .available houtcome hverify

/-- Fatal errors are passed on. -/
theorem settled_of_fatal {e : ArchiveError} (he : e.severity = .fatal) (heap : Arena) :
    settled (.error e, heap) = (.error e, heap) := by
  rw [settled, ArchiveError.isRecoverable, he, if_neg nofun]

/-- What has been loaded is not disabled by a look at its references. -/
theorem settled_ne_disabled (houtcome : outcome.isAvailable = true)
    (hverify : ∀ e, verifyOutcome heap' outcome = .error e → e.severity = .fatal) (verify : Bool)
    (reason : ArchiveError) (k : Arena) :
    settled (verified verify (.ok outcome, heap')) ≠ (.ok (disabled reason), k) := by
  have hdisabled : outcome ≠ disabled reason := by
    rintro rfl
    cases houtcome
  rw [verified]
  dsimp only
  split
  · split
    · exact fun h => hdisabled (Except.ok.inj (congrArg Prod.fst h))
    · rename_i e he
      rw [settled_of_fatal (hverify e he)]
      exact nofun
  · exact fun h => hdisabled (Except.ok.inj (congrArg Prod.fst h))

end

/-- **A load that tries both ways** ends as one that maps the image does, unless that one disables
the archive. Then it ends as one that copies the objects does, from the same heap. -/
theorem loadArchive_auto (source : ArchiveSource) (heap : Arena) (options : LoadOptions) :
    loadArchive source heap { options with mode := .auto } =
      match loadArchive source heap { options with mode := .mapped } with
      | (.ok (disabled _), _) => loadArchive source heap { options with mode := .loaded }
      | run => run := by
  cases hopen : source.open? options.verifyChecksum with
  | error e =>
    have hdisabled : ∀ mode, loadArchive source heap { options with mode := mode } =
        (.ok (disabled (.format e)), heap) := by
      intro mode
      rw [loadArchive, tryLoad]
      dsimp only
      rw [hopen]
      rfl
    rw [hdisabled, hdisabled, hdisabled]
  | ok a =>
    have hload : ∀ mode, loadArchive source heap { options with mode := mode } =
        settled (verified options.verifyAfterLoad (attempt source a heap options mode)) := by
      intro mode
      rw [loadArchive_eq_settled]
      exact congrArg settled
        (@tryLoad_eq_verified a source { options with mode := mode } hopen heap)
    rw [hload, hload, hload, attempt_auto hopen]
    rw [show attempt source a heap options .mapped = mapOutcome .. from rfl]
    -- Mapping has an outcome that is not disabled any more, or it fails and disables the archive.
    rcases mapOutcome_ends a heap (options.runtime.getD a.encoding) (nativeDelta a options) with
      ⟨outcome, heap', hrun, houtcome, hverify⟩ | ⟨e, hrun, he⟩
    · rw [hrun]
      dsimp only
      split
      · rename_i hdisabled
        exact absurd hdisabled (settled_ne_disabled houtcome hverify _ _ _)
      · rfl
    · have hdisabled : settled (verified options.verifyAfterLoad (.error e, heap)) =
        (.ok (disabled e), heap) := if_pos he
      rw [hrun, hdisabled]

/-- **A load that fails** either leaves the heap as it was, and the archive is disabled, or it stops
the program. -/
theorem loadArchive_leaves (source : ArchiveSource) (heap : Arena) (options : LoadOptions) :
    (∀ reason heap', loadArchive source heap options = (.ok (disabled reason), heap') →
      heap' = heap) ∧
    ∀ e heap', loadArchive source heap options = (.error e, heap') → e.severity = .fatal := by
  -- The file is opened first; what comes after that is an attempt, verified or not.
  have hends : Ends heap (tryLoad source heap options) := by
    cases hopen : source.open? options.verifyChecksum with
    | error e =>
      rw [tryLoad, hopen]
      exact .without rfl
    | ok a =>
      rw [tryLoad_eq_verified hopen]
      exact (ends_attempt hopen _).verified _
  rw [loadArchive_eq_settled]
  generalize tryLoad source heap options = run at hends
  cases hends with
  | available houtcome _ =>
    refine ⟨?_, nofun⟩
    rintro reason _ ⟨⟩
    cases houtcome
  | without he =>
    rw [settled, if_pos he]
    refine ⟨?_, nofun⟩
    rintro reason _ ⟨⟩
    rfl
  | stopped he =>
    rw [settled_of_fatal he]
    refine ⟨nofun, ?_⟩
    rintro e _ ⟨⟩
    exact he

end LoadOutcome

/-! ## Two failures -/

/-- A heap that maps images in a place that is not aligned. -/
def Arena.crooked : Arena := standard.withMapping (.atFixed 0x300008)

/-- A heap with room for one pair. -/
def Arena.tiny : Arena := standard.withMaxBytes 40

namespace LoadOutcome

/-- The cycle is not mapped in a place that is not aligned, and not copied to a heap that is full
after the first of its objects. -/
theorem loadArchive_leaves_cycle : ∃ a, Archive.dump .pairs .cycle .cycle .small = .ok a ∧
    (∃ reason heap', loadArchive (.memory a.toBytes) Arena.crooked
        { LoadOptions.standard with mode := .mapped } = (.ok (disabled reason), heap') ∧
      heap' = Arena.crooked) ∧
    ∃ e heap', loadArchive (.memory a.toBytes) Arena.tiny
        { LoadOptions.standard with mode := .loaded } = (.error e, heap') ∧
      e.severity = .fatal := by
  obtain ⟨a, hdump, hok⟩ : ∃ a, Archive.dump .pairs .cycle .cycle .small = .ok a ∧
      decide (a.fileSize < 2 ^ 64 ∧
        ((settled (mapOutcome a Arena.crooked a.encoding 0)).1.toOption.any
          fun outcome => !outcome.isAvailable) = true ∧
        (settled (copyOutcome a Arena.tiny a.encoding 0)).1.isOk = false) = true :=
    Except.exists_of_any (by decide +kernel)
  obtain ⟨hsize, hdisabled, hstopped⟩ := of_decide_eq_true hok
  obtain ⟨-, -, hread⟩ := Archive.sections_of_dump DumpOptions.inWords_small
    TypeRegistry.fitsTable_pairs hdump hsize
  have hopen : (ArchiveSource.memory a.toBytes).open? true = .ok a := hread true
  have hload : ∀ heap mode, loadArchive (.memory a.toBytes) heap
      { LoadOptions.standard with mode := mode } =
        settled (attempt (.memory a.toBytes) a heap .standard mode) := by
    intro heap mode
    rw [loadArchive_eq_settled]
    refine congrArg settled (.trans ?_ (verified_false _))
    exact @tryLoad_eq_verified a _ { LoadOptions.standard with mode := mode } hopen heap
  refine ⟨a, hdump, ?_, ?_⟩
  · have hrun : _ = settled (mapOutcome a Arena.crooked a.encoding 0) :=
      hload Arena.crooked .mapped
    rcases hend : settled (mapOutcome a Arena.crooked a.encoding 0) with ⟨e | outcome, heap'⟩
    · rw [hend] at hdisabled
      cases hdisabled
    · rw [hend] at hdisabled hrun
      cases outcome with
      | disabled reason => exact ⟨reason, heap', hrun, (loadArchive_leaves ..).1 _ _ hrun⟩
      | mapped | loaded => cases hdisabled
  · have hrun : _ = settled (copyOutcome a Arena.tiny a.encoding 0) := hload Arena.tiny .loaded
    rcases hend : settled (copyOutcome a Arena.tiny a.encoding 0) with ⟨e | outcome, heap'⟩
    · rw [hend] at hrun
      exact ⟨e, heap', hrun, (loadArchive_leaves ..).2 _ _ hrun⟩
    · rw [hend] at hstopped
      cases hstopped

end LoadOutcome

end HeapImage
