import HeapImage.Proofs.AddressSums
import HeapImage.Proofs.KeptSnapshots
import HeapImage.Proofs.LoadOutcomes

/-! # Loads that do not disturb each other

A program can load any number of archives into one heap, sound ones and others. However each of
these loads ends, the memory that had been allocated before it keeps its bytes. So whatever was
loaded earlier stays as it is, as long as its references do not lead out of the memory that had been
allocated by then. Those of a dump never do. Another file can have references that its maps do not
mark, and a load takes them as they are: they may show memory that a later load is given.

* `LoadOutcome.keeps_loadArchive`, `Arena.keeps_loads`: one load, and any number of them.
* `LoadOutcome.Enclosed`, `LoadOutcome.enclosed_of_dump`: graphs that lie in allocated memory.
* `Arena.loads_undisturbed`: memory and snapshots stay the same.
* `Arena.loads_disturbed_retyped`: references into memory that had not been allocated. -/

namespace HeapImage

/-! ## One load -/

namespace Arena

variable {h k : Arena}

/-- Reserving addresses keeps memory. -/
theorem Keeps.reserve (hk : h.Keeps k) (requested len : Nat) :
    h.Keeps (k.reserve requested len).2 := by
  obtain ⟨rs, hrs⟩ := k.reserve_eq requested len
  rw [hrs]
  exact hk.congr rfl rfl

/-- Handing mapped regions over keeps memory. -/
theorem Keeps.completeMapped (hk : h.Keeps k) (regions : List Extent) :
    h.Keeps (regions.foldl MappingHost.completeMapped k) := by
  induction regions generalizing k with
  | nil => exact hk
  | cons e regions ih => exact ih (hk.congr rfl rfl)

end Arena

namespace LoadOutcome

variable {a : Archive} {heap heap' : Arena} {source : ArchiveSource} {options : LoadOptions}
variable {outcome : LoadOutcome}

/-- Mapping an image takes addresses, but no memory of the heap. -/
theorem keeps_mapOutcome (hw : heap.WellFormed) (a : Archive) (runtime : ReferenceEncoding)
    (delta : UInt64) : heap.Keeps (mapOutcome a heap runtime delta).2 := by
  rw [mapOutcome]
  cases hmap : mapImage a heap runtime delta with
  | mk result heap' =>
    cases result with
    | ok image =>
      obtain ⟨-, -, -, -, ⟨granted, hreserve, rfl⟩, -⟩ := of_mapImage hmap
      have hgranted := (Arena.Keeps.refl hw).reserve a.header.requestedBase.toNat a.image.size
      rw [show heap.reserve a.header.requestedBase.toNat a.image.size = _ from hreserve] at hgranted
      exact hgranted.completeMapped image.regions
    | error e =>
      obtain ⟨rfl, -⟩ := of_mapImage_error hmap
      exact .refl hw

/-- What is made of a copy leaves the heap alone. -/
theorem snd_copyOutcome (a : Archive) (heap : Arena) (runtime : ReferenceEncoding)
    (delta : UInt64) :
    (copyOutcome a heap runtime delta).2 = (copyImage a heap runtime delta).2 := by
  rw [copyOutcome]
  split <;> rename_i hcopy <;> rw [hcopy]

/-- An attempt to load keeps memory. -/
theorem keeps_attempt (hopen : source.open? options.verifyChecksum = .ok a)
    (hw : heap.WellFormed) (mode : LoadMode) :
    heap.Keeps (attempt source a heap options mode).2 := by
  have hmapped : heap.Keeps (attempt source a heap options .mapped).2 := keeps_mapOutcome hw ..
  have hloaded : heap.Keeps (attempt source a heap options .loaded).2 :=
    snd_copyOutcome .. ▸ (Archive.sound_of_open? hopen).keeps_copyImage hw ..
  cases mode with
  | mapped => exact hmapped
  | loaded => exact hloaded
  | auto =>
    rw [attempt_auto hopen]
    split
    · rename_i hrun
      rwa [hrun] at hmapped
    · exact hloaded

/-- A look at the references leaves the heap alone. -/
theorem snd_verified (verify : Bool) (run : Except ArchiveError LoadOutcome × Arena) :
    (verified verify run).2 = run.2 := by
  unfold verified
  split
  · rfl
  · split
    · split <;> rfl
    · rfl

/-- Settling an error keeps the heap. -/
theorem snd_settled (run : Except ArchiveError LoadOutcome × Arena) :
    (settled run).2 = run.2 := by
  rw [settled.eq_def]
  split
  · rfl
  · split <;> rfl

/-- **A load** keeps all memory, from whatever bytes, in whatever way and however it ends. -/
theorem keeps_loadArchive (hw : heap.WellFormed) (source : ArchiveSource) (options : LoadOptions) :
    heap.Keeps (loadArchive source heap options).2 := by
  rw [loadArchive_eq_settled, snd_settled]
  cases hopen : source.open? options.verifyChecksum with
  | error e =>
    rw [tryLoad, hopen]
    exact .refl hw
  | ok a =>
    rw [tryLoad_eq_verified hopen, snd_verified]
    exact keeps_attempt hopen hw options.mode

/-! ## What is enclosed -/

/-- All that can be reached from the root of what was loaded has been allocated. A mapped image is
memory of its own. -/
def Enclosed (heap : Arena) : LoadOutcome → Prop
  | mapped _ | disabled _ => True
  | loaded c => heap.Encloses c.types c.encoding c.root

/-- Kept memory shows the same graph. -/
theorem Enclosed.snapshot?_eq (h : outcome.Enclosed heap) (hk : heap.Keeps heap')
    (hw : heap.WellFormed) : outcome.snapshot? heap' = outcome.snapshot? heap := by
  cases outcome with
  | mapped | disabled => rfl
  | loaded c => exact congrArg some (hk.ofHeap_eq hw h)

/-- **A graph that has been dumped** and is loaded from the file lies in allocated memory. -/
theorem enclosed_of_dump {r : TypeRegistry} {g : ObjectGraph} {selection : Selection}
    {o : DumpOptions} (hwords : o.InWords) (hfits : r.FitsTable)
    (hdump : Archive.dump r g selection o = .ok a) (hsize : a.fileSize < 2 ^ 64)
    (hw : heap.WellFormed)
    (hload : loadArchive (.memory a.toBytes) heap options = (.ok outcome, heap'))
    (haddress : heap'.Addressable) : outcome.Enclosed heap' := by
  obtain ⟨-, -, hread⟩ := Archive.sections_of_dump hwords hfits hdump hsize
  obtain ⟨members, ref, hm⟩ := Archive.holdsMembers_of_dump hwords hdump
  have hopen : ArchiveSource.open? (.memory a.toBytes) options.verifyChecksum = .ok a :=
    hread options.verifyChecksum
  rcases from_of_loadArchive hopen hload with ⟨e, rfl⟩ | hfrom
  · trivial
  · cases hfrom with
    | mapped hmap => trivial
    | loaded hchunks hnext hcopy =>
      exact hm.encloses_of_copyImage (hw.congr hchunks hnext) hcopy haddress

end LoadOutcome

/-! ## Any number of loads -/

/-- A load that a program asks for. -/
structure LoadRequest where
  source : ArchiveSource
  options : LoadOptions

namespace Arena

variable {h : Arena}

/-- The heap after some loads, one after another, however each of them ends. -/
def loads (h : Arena) (requests : List LoadRequest) : Arena :=
  requests.foldl (fun h request => (loadArchive request.source h request.options).2) h

@[simp] theorem loads_nil (h : Arena) : h.loads [] = h := rfl

@[simp] theorem loads_cons (h : Arena) (request : LoadRequest) (requests : List LoadRequest) :
    h.loads (request :: requests) =
      (loadArchive request.source h request.options).2.loads requests := rfl

/-- Loads one after the other. -/
theorem loads_append (h : Arena) (earlier later : List LoadRequest) :
    h.loads (earlier ++ later) = (h.loads earlier).loads later := List.foldl_append ..

/-- **Any number of loads** keep all memory. -/
theorem keeps_loads (hw : h.WellFormed) (requests : List LoadRequest) :
    h.Keeps (h.loads requests) := by
  induction requests generalizing h with
  | nil => exact .refl hw
  | cons request requests ih =>
    have hfirst := LoadOutcome.keeps_loadArchive hw request.source request.options
    exact hfirst.trans (ih hfirst.wellFormed)

/-- **Loads do not disturb each other.** After any loads into a heap, further ones leave every byte
as it is that has been allocated by then; and everything that was loaded keeps its snapshot if all
that can be reached from its root has been allocated by then. -/
theorem loads_undisturbed (hreachable : h.Reachable) (earlier later : List LoadRequest) :
    (∀ a n, 0 < n → (h.loads earlier).Holds a n → (h.loads (earlier ++ later)).Holds a n ∧
      (h.loads (earlier ++ later)).read? a n = (h.loads earlier).read? a n) ∧
    ∀ outcome : LoadOutcome, outcome.Enclosed (h.loads earlier) →
      outcome.snapshot? (h.loads (earlier ++ later)) = outcome.snapshot? (h.loads earlier) := by
  have hw := (keeps_loads hreachable.wellFormed earlier).wellFormed
  have hkeeps := keeps_loads hw later
  rw [loads_append]
  constructor
  · intro a n hn hholds
    exact ⟨hkeeps.holds a n hholds, hkeeps.read?_eq hw hholds hn⟩
  · intro outcome houtcome
    exact houtcome.snapshot?_eq hkeeps hw

/-- The cycle keeps its root and its snapshot when it is loaded a second time. -/
theorem loads_undisturbed_cycle : ∃ a objects, Archive.dump .pairs .cycle .cycle .small = .ok a ∧
    ∃ request : LoadRequest, request = ⟨.memory a.toBytes, .distant .loaded⟩ ∧
      (loadArchive request.source Arena.distant request.options).1 = .ok (.loaded objects) ∧
      (Arena.distant.loads [request]).Holds objects.root headerSize ∧
      (Arena.distant.loads [request, request]).read? objects.root headerSize =
        (Arena.distant.loads [request]).read? objects.root headerSize ∧
      (LoadOutcome.loaded objects).snapshot? (Arena.distant.loads [request, request]) =
        (LoadOutcome.loaded objects).snapshot? (Arena.distant.loads [request]) := by
  obtain ⟨a, -, objects, -, h, hdump, hsize, -, -, -, hcopy, haddress, -⟩ :=
    Archive.exists_load_cycle
  obtain ⟨-, -, hread⟩ := Archive.sections_of_dump DumpOptions.inWords_small
    TypeRegistry.fitsTable_pairs hdump hsize
  have hreachable : Arena.Reachable .distant := .withMapping _ .standard
  have hload : loadArchive (.memory a.toBytes) Arena.distant (.distant .loaded) =
      (.ok (.loaded objects), h) := LoadOutcome.loadArchive_loaded (hread false) rfl rfl hcopy
  -- What the first load gives is enclosed, so the second one cannot disturb it.
  have henclosed := LoadOutcome.enclosed_of_dump DumpOptions.inWords_small
    TypeRegistry.fitsTable_pairs hdump hsize hreachable.wellFormed hload haddress
  let request : LoadRequest := ⟨.memory a.toBytes, .distant .loaded⟩
  have hfirst : Arena.distant.loads [request] = h := congrArg Prod.snd hload
  obtain ⟨hmemory, hsnapshot⟩ := loads_undisturbed hreachable [request] [request]
  rw [hfirst] at hmemory hsnapshot
  have hholds : h.Holds objects.root headerSize := (henclosed _ .root).1
  refine ⟨a, objects, hdump, request, rfl, congrArg Prod.fst hload, ?_⟩
  rw [hfirst]
  exact ⟨hholds, (hmemory _ _ (by decide) hholds).2, hsnapshot _ henclosed⟩

end Arena

/-! ## References to memory that has not been allocated -/

/-- Pairs whose first field is no reference, but has the place and the size of one. -/
def TypeRegistry.words : TypeRegistry where
  types := #[.rootArray, ⟨"Pair", .record [.scalar, .native]⟩]
  first := rfl
  supported := by decide
  distinct := by decide

/-- One pair. Its first field is the stored form of an address in the standard arena, behind the two
objects that this graph is loaded as. -/
def ObjectGraph.word : ObjectGraph where
  objects := #[⟨1, 1, .fields [.scalar 0x7ffffe07, .native 0x10]⟩]

/-- One pair, which is the only root. -/
def Selection.word : Selection where
  entries := [(⟨0⟩, .opened)]
  roots := [⟨0⟩]

namespace Archive

variable {a : Archive}

/-- The archive whose type table says that the first field of a pair is a reference. The maps do not
mark it. -/
def retyped (a : Archive) : Archive := { a with types := .pairs }

/-- A type table of the same length leaves all sections where they are. -/
theorem Sections.retyped (h : a.Sections)
    (hlength : (TypeTable.encode a.types).length = (TypeTable.encode .pairs).length) :
    a.retyped.Sections where
  imageOffset := h.imageOffset
  imageLength := h.imageLength
  typesOffset := h.typesOffset
  typesLength := h.typesLength.trans hlength
  bitmapsOffset := hlength ▸ h.bitmapsOffset
  bitmapsLength := h.bitmapsLength
  checksumOffset := h.checksumOffset
  openReferences := h.openReferences
  openNatives := h.openNatives
  closedReferences := h.closedReferences
  closedNatives := h.closedNatives

end Archive

/-- The types of words fit a type table. -/
theorem TypeRegistry.fitsTable_words : TypeRegistry.words.FitsTable where
  size := by decide
  name := by decide
  kind t ht := by
    rcases List.mem_cons.mp ht with rfl | ht
    · trivial
    · rw [List.mem_singleton.mp ht]
      change 2 < 2 ^ 32
      decide

namespace Archive

/-- After a second copy of the retyped archive, the first one shows something else. -/
theorem exists_copy_retyped : ∃ a o h, dump .words .word .word .small = .ok a ∧
    a.fileSize < 2 ^ 64 ∧ copyImage a.retyped Arena.standard a.encoding 0 = (.ok o, h) ∧
    Snapshot.ofHeap (copyImage a.retyped h a.encoding 0).2 o.types o.encoding o.root ≠
      Snapshot.ofHeap h o.types o.encoding o.root := by
  obtain ⟨a, hdump, hok⟩ : ∃ a, dump .words .word .word .small = .ok a ∧
      (decide (a.fileSize < 2 ^ 64) &&
        (copyImage a.retyped Arena.standard a.encoding 0).1.toOption.any fun o =>
          let h := (copyImage a.retyped Arena.standard a.encoding 0).2
          (Snapshot.ofHeap (copyImage a.retyped h a.encoding 0).2 o.types o.encoding
            o.root).toOption != (Snapshot.ofHeap h o.types o.encoding o.root).toOption) = true :=
    Except.exists_of_any (by decide +kernel)
  rw [Bool.and_eq_true, decide_eq_true_eq] at hok
  obtain ⟨hsize, hdiffers⟩ := hok
  generalize hcopy : copyImage a.retyped Arena.standard a.encoding 0 = run at hdiffers
  obtain ⟨result, h⟩ := run
  cases result with
  | error e => cases hdiffers
  | ok o =>
    exact ⟨a, o, h, hdump, hsize, hcopy, fun heq => bne_iff_ne.mp hdiffers (congrArg _ heq)⟩

/-- The file of the retyped archive reads back. -/
theorem open?_retyped {a : Archive} (hdump : dump .words .word .word .small = .ok a)
    (hsize : a.fileSize < 2 ^ 64) (verifyChecksum : Bool) :
    (ArchiveSource.memory a.retyped.toBytes).open? verifyChecksum = .ok a.retyped := by
  obtain ⟨hsections, hheader, -⟩ := sections_of_dump DumpOptions.inWords_small
    TypeRegistry.fitsTable_words hdump hsize
  obtain ⟨htypes, hmapped⟩ := parts_of_dump DumpOptions.inWords_small hdump
  have hlength : (TypeTable.encode a.types).length = (TypeTable.encode .pairs).length := by
    rw [htypes]
    decide +kernel
  exact ofBytes_of_sections (hsections.retyped hlength) hheader TypeRegistry.fitsTable_pairs
    hmapped verifyChecksum

end Archive

namespace Arena

/-- Loading a file may change what an earlier load of it shows, if that one shows memory that had
not been allocated. -/
theorem loads_disturbed_retyped :
    ∃ a, Archive.dump .words .word .word .small = .ok a ∧
      ∃ request : LoadRequest, request = ⟨.memory a.retyped.toBytes,
        { LoadOptions.standard with mode := .loaded }⟩ ∧
        ∃ outcome h, loadArchive request.source Arena.standard request.options = (.ok outcome, h) ∧
          outcome.snapshot? (h.loads [request]) ≠ outcome.snapshot? h := by
  obtain ⟨a, o, h, hdump, hsize, hcopy, hdiffers⟩ := Archive.exists_copy_retyped
  have hopen := Archive.open?_retyped hdump hsize
  let options : LoadOptions := { LoadOptions.standard with mode := .loaded }
  have hload : loadArchive (.memory a.retyped.toBytes) Arena.standard options =
      (.ok (.loaded o), h) := LoadOutcome.loadArchive_loaded (hopen true) rfl rfl hcopy
  have hsecond : (loadArchive (.memory a.retyped.toBytes) h options).2 =
      (copyImage a.retyped h a.encoding 0).2 := by
    rw [LoadOutcome.loadArchive_eq_settled, LoadOutcome.snd_settled,
      @LoadOutcome.tryLoad_eq_verified a.retyped _ options (hopen true), LoadOutcome.snd_verified]
    exact LoadOutcome.snd_copyOutcome ..
  refine ⟨a, hdump, ⟨.memory a.retyped.toBytes, options⟩, rfl, .loaded o, h, hload, ?_⟩
  rw [loads_cons, loads_nil, hsecond]
  exact fun heq => hdiffers (Option.some.inj heq)

end Arena

end HeapImage
