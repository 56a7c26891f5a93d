import HeapImage.CommandLine.Run
import HeapImage.Proofs.CopyProgress
import HeapImage.Proofs.FailedLoads
import HeapImage.Proofs.GraphFileSizes
import HeapImage.Proofs.RoundTrip
import HeapImage.Proofs.SessionArchive

/-! # Files that commands make and take

The dump command puts its images below 32 GiB, and an arena starts its chunks at 16 GiB and has room
there for all that a dump may stage. So every address that comes up in a load, be it of the image or
of a copy, can be stored under the encoding of the dump, and no load of a dumped file can fail: not
the trial load of the verify command, nor a load in any mode.

* `Archive.Kept`: what a dump keeps to of its options.
* `Archive.open?_of_ofBytes`: an archive from memory and from disk.
* `CommandLine.exists_copyImage_of_dump`, `CommandLine.exists_mapImage_of_dump`: a dumped image is
  copied, and it is mapped.
* `CommandLine.fits_of_dumpFile`: a graph file of less than 4 GiB has no number that is cut off.
* `CommandLine.Verifies`: the steps of the verify command.
* `CommandLine.verifies_and_loads_of_dumpFile`: every file that the dump command writes is accepted
  by the verify command, and can be loaded. -/

namespace HeapImage

/-! ## What a dump keeps to -/

namespace Archive

/-- An archive has the encoding of the options, ends below their heap end, has no more objects than
may be staged, and its maps are those of its image. -/
structure Kept (a : Archive) (o : DumpOptions) : Prop where
  encoding : a.encoding = o.encoding
  below : a.header.requestedBase.toNat + a.image.size ≤ o.heapEnd
  capacity : a.header.openSize.toNat + a.header.closedSize.toNat ≤ o.capacity
  checkMaps : a.checkMaps = .ok ()

variable {r : TypeRegistry} {g : ObjectGraph} {selection : Selection} {o : DumpOptions}
variable {a : Archive}

/-- **Every dump** keeps to its options. -/
theorem kept_of_dump (hwords : o.InWords) (h : dump r g selection o = .ok a) : a.Kept o := by
  obtain ⟨s, q, opened, closed, os, cs, rfl, rfl, hcheck, hmaps, rfl, hs⟩ :=
    complete_of_dump hwords h
  have hstanding := hs.standing
  have hfields := headerSays_assemble s.registry opened closed hstanding hwords hcheck
  have hsum := hs.sum_size_le
  have hopen : 0 + (os.map fun x => x.member.size s.slotSize).sum = s.openTop :=
    Tiles.add_sum hs.openRow
  have hclosed : s.closedBottom + (cs.map fun x => x.member.size s.slotSize).sum = s.closedTop :=
    Tiles.add_sum hs.closedRow
  have hbottom := hfields.closedOffset
  have hstop := hfields.closedStop
  rw [List.map_append, List.sum_append] at hsum
  refine ⟨hfields.encoding, ?_, ?_, checkMaps_assemble hstanding hwords hcheck hmaps⟩
  · rw [hfields.requestedBase]
    change q.opened.bottom + s.output.size ≤ s.options.heapEnd
    rw [hs.size_output]
    exact hstanding.base_add_le
  · rw [hfields.openSize]
    omega

/-! ## Opening -/

/-- The view makes no difference to where an archive can be mapped. -/
theorem Anchored.withView (h : a.Anchored) (isMapped : Bool) : (a.withView isMapped).Anchored :=
  ⟨h.check, h.base_ne_zero, h.below, h.aligned, h.storable, h.dvd_size, h.le_size⟩

/-- An archive that can be read is opened from memory and from disk. -/
theorem open?_of_ofBytes {bytes : ByteArray} {checksum : Bool}
    (h : ofBytes bytes checksum = .ok a) (hmapped : a.isMapped = false) :
    (ArchiveSource.memory bytes).open? checksum = .ok (a.withView false) ∧
      (ArchiveSource.file (.ok bytes)).open? checksum = .ok (a.withView true) := by
  have hsame : a.withView false = a := by
    rw [Archive.withView, ← hmapped]
  constructor
  · rw [hsame]
    exact h
  · change openFile (.ok bytes) checksum = .ok (a.withView true)
    rw [openFile, h]
    rfl

end Archive

/-! ## Loading in any mode -/

namespace LoadOutcome

variable {a : Archive} {heap : Arena} {source : ArchiveSource} {options : LoadOptions}
variable {image : MappedImage} {objects : CopiedObjects} {mapped copied : Arena}

/-- An archive that can be mapped and copied is loaded in every mode. -/
theorem exists_loadArchive (hopen : source.open? options.verifyChecksum = .ok a)
    (hverify : options.verifyAfterLoad = false)
    (hmap : mapImage a heap (options.runtime.getD a.encoding) (nativeDelta a options) =
      (.ok image, mapped))
    (hcopy : copyImage a heap (options.runtime.getD a.encoding) (nativeDelta a options) =
      (.ok objects, copied)) :
    ∃ outcome heap', loadArchive source heap options = (.ok outcome, heap') ∧
      outcome.isAvailable = true := by
  have hmapped : attempt source a heap options .mapped = (.ok (.mapped image), mapped) := by
    rw [attempt, mapOutcome, hmap]
  have hcopied : attempt source a heap options .loaded = (.ok (.loaded objects), copied) := by
    rw [attempt, copyOutcome, hcopy]
  -- Mapping comes first, so there is nothing to fall back from.
  have hauto : attempt source a heap options .auto = (.ok (.mapped image), mapped) := by
    rw [attempt_auto hopen, hmapped]
  obtain ⟨outcome, heap', hrun, havailable⟩ : ∃ outcome heap',
      attempt source a heap options options.mode = (.ok outcome, heap') ∧
        outcome.isAvailable = true := by
    cases options.mode with
    | mapped => exact ⟨_, _, hmapped, rfl⟩
    | loaded => exact ⟨_, _, hcopied, rfl⟩
    | auto => exact ⟨_, _, hauto, rfl⟩
  refine ⟨outcome, heap', ?_, havailable⟩
  rw [loadArchive_eq_settled, tryLoad_eq_verified hopen, hverify, verified_false, hrun]
  rfl

end LoadOutcome

namespace CommandLine

variable {wide : Bool} {alignment : Option Nat} {r : TypeRegistry} {g : ObjectGraph}
variable {selection : Selection} {a : Archive} {address : Nat}

/-! ## The settings of the dump command -/

/-- The settings of the command line are in words. -/
theorem inWords_dumpSettings (wide : Bool) (alignment : Option Nat) :
    (dumpSettings wide alignment).InWords where
  heapEnd_lt := show 0x800000000 < 2 ^ 64 by decide
  capacity_lt := show 256 * 1024 * 1024 < 2 ^ 64 by decide
  native_lt := show 0x840000000 < 2 ^ 64 by decide

/-- Every heap word below the heap end can be stored. -/
theorem exists_encode_dumpSettings (hne : address ≠ 0) (haligned : wordSize ∣ address)
    (hbelow : address < 0x800000000) :
    ∃ value, (dumpSettings wide alignment).encoding.encode address = .ok value := by
  cases wide with
  | true => exact ⟨address, rfl⟩
  | false =>
    obtain ⟨value, hvalue⟩ : 8 ∣ address := haligned
    have hnarrow : (ReferenceEncoding.narrow 0 3).encode address = .ok value := by
      rw [ReferenceEncoding.encode_narrow_eq_ok hne]
      refine ⟨Nat.zero_le _, ?_, by omega, ?_⟩
      · change address = 0 + value * 8
        omega
      · change value ≤ 0xffffffff
        omega
    exact ⟨value, hnarrow⟩

/-- The encoding reaches the last word below the heap end. -/
theorem reaches_dumpSettings (hbelow : address + wordSize ≤ 0x800000000) :
    (dumpSettings wide alignment).encoding.reaches address = true := by
  cases wide with
  | true => rfl
  | false =>
    have hword : wordSize = 8 := rfl
    refine decide_eq_true ?_
    change address ≤ 0x7fffffff8
    omega

/-! ## Dumped images -/

/-- **A dumped image is copied** to a standard arena, and the copies are accepted. -/
theorem exists_copyImage_of_dump
    (h : Archive.dump r g selection (dumpSettings wide alignment) = .ok a) (hsound : a.Sound)
    (isMapped : Bool) :
    ∃ objects heap, copyImage (a.withView isMapped) Arena.standard a.encoding 0 =
        (.ok objects, heap) ∧
      verifyHeap heap objects.types objects.encoding objects.extents = .ok a.report := by
  have hwords := inWords_dumpSettings wide alignment
  have hkept := Archive.kept_of_dump hwords h
  have hanchored := Archive.anchored_of_dump hwords h
  obtain ⟨members, ref, hm⟩ := Archive.holdsMembers_of_dump hwords h
  have hbelow : a.header.requestedBase.toNat + a.image.size ≤ 0x800000000 := hkept.below
  have hcapacity : a.header.openSize.toNat + a.header.closedSize.toNat ≤ 0x10000000 :=
    hkept.capacity
  -- The copies take up less than the 16 GiB between the first chunk and the heap end.
  have hfits : (a.withView isMapped).image.size + Arena.standard.chunkSize + Arena.pageSize ≤
      maxBuffer := by
    change a.image.size + 0x100000 + 0x1000 ≤ 0x7fffffffffffffff
    omega
  have hroom : 0x400000000 + 2 * Arena.standard.chunkSize + 4 * (Arena.standard.allocatedBytes +
      a.header.openSize.toNat + a.header.closedSize.toNat) ≤ 0x800000000 := by
    change 0x400000000 + 2 * 0x100000 + 4 * (0 + a.header.openSize.toNat +
      a.header.closedSize.toNat) ≤ 0x800000000
    omega
  have hencode : ∀ address, 0x400000000 ≤ address → address + headerSize ≤ 0x800000000 →
      wordSize ∣ address → ∃ value, a.encoding.encode address = .ok value := by
    intro address hlow hhigh hdvd
    have hsize : headerSize = 16 := rfl
    rw [hkept.encoding]
    exact exists_encode_dumpSettings (by omega) hdvd (by omega)
  obtain ⟨objects, heap, hcopy, haddress⟩ := (hm.withView isMapped).exists_copyImage
    hanchored.checkEncodings_self Arena.paced_standard (by decide) hfits hroom (by decide) hencode
  obtain ⟨hverify, -⟩ := (hm.withView isMapped).verifyHeap_of_copyImage (hsound.withView isMapped)
    Arena.paced_standard.wellFormed hcopy haddress
  exact ⟨objects, heap, hcopy, hverify⟩

/-- **A dumped image is mapped** at its requested base, and no assertion fails. -/
theorem exists_mapImage_of_dump
    (h : Archive.dump r g selection (dumpSettings wide alignment) = .ok a) (hsound : a.Sound)
    (isMapped : Bool) :
    (∃ image heap, mapImage (a.withView isMapped) Arena.standard a.encoding 0 =
      (.ok image, heap)) ∧
    mappingAssertion? (a.withView isMapped) Arena.standard a.encoding = none := by
  have hwords := inWords_dumpSettings wide alignment
  have hkept := Archive.kept_of_dump hwords h
  have hanchored := (Archive.anchored_of_dump hwords h).withView isMapped
  obtain ⟨members, ref, hm⟩ := Archive.holdsMembers_of_dump hwords h
  have hreserve : MappingHost.reserve Arena.standard a.header.requestedBase.toNat a.image.size =
      (some a.header.requestedBase.toNat, _) := Arena.reserve_of_fresh a.image.size rfl rfl
  have hreaches : a.encoding.reaches a.lastWord = true := by
    have hbelow : a.header.requestedBase.toNat + a.image.size ≤ 0x800000000 := hkept.below
    have hword := (Archive.anchored_of_dump hwords h).le_size
    rw [hkept.encoding]
    refine reaches_dumpSettings ?_
    rw [Archive.lastWord]
    omega
  obtain ⟨hmapped, -⟩ := hanchored.mapImage_self (hsound.withView isMapped) 0 hreserve
  obtain ⟨image, heap, hmap, -⟩ := hmapped hreaches
  exact ⟨⟨image, heap, hmap⟩, (hm.withView isMapped).mappingAssertion?_self hanchored hreserve⟩

/-! ## Graph files -/

/-- The graph file with a text that can be read. -/
theorem readGraph_toUTF8 {text : String} {file : GraphFile} (path : String)
    (h : GraphFile.parse? text = some file) : readGraph path (.ok text.toUTF8) = .ok file := by
  have hvalid : text.toUTF8.IsValidUTF8 := text.isValidUTF8
  have htext : String.fromUTF8? text.toUTF8 = some text := by
    rw [String.fromUTF8?, dif_pos hvalid]
    rfl
  have hcontents : textOf (.ok text.toUTF8) = .ok text := by
    rw [textOf.eq_def]
    dsimp only
    rw [htext]
  rw [readGraph, hcontents]
  dsimp only
  rw [h]

/-- The text of a file is as long as the file. -/
theorem size_of_textOf {bytes : ByteArray} {text : String} (h : textOf (.ok bytes) = .ok text) :
    text.utf8ByteSize = bytes.size := by
  rw [textOf.eq_def] at h
  dsimp only at h
  split at h
  · rename_i text' htext
    cases h
    rw [String.fromUTF8?] at htext
    split at htext
    · rw [← Option.some.inj htext]
      rfl
    · cases htext
  · cases h

/-- A graph file that is read is what its text parses to. -/
theorem parse?_of_readGraph {path : String} {bytes : ByteArray} {file : GraphFile}
    (h : readGraph path (.ok bytes) = .ok file) :
    ∃ text : String, text.utf8ByteSize = bytes.size ∧ GraphFile.parse? text = some file := by
  unfold readGraph at h
  split at h
  · cases h
  · rename_i text htext
    split at h
    · rename_i file' hparse
      cases h
      exact ⟨text, size_of_textOf htext, hparse⟩
    · cases h

/-- A graph file is dumped if it can be read, its types are sound, and its graph can be dumped. -/
theorem dumpFile_eq_ok {graph : String} {contents : FileContents} {o : DumpOptions} :
    dumpFile graph contents o = .ok a ↔ ∃ file r, readGraph graph contents = .ok file ∧
      file.registry = .ok r ∧ Archive.dump r file.graph file.selectionOrDefault o = .ok a := by
  simp only [dumpFile, Except.bind_eq_ok, Except.mapError_eq_ok]
  constructor
  · rintro ⟨file, hfile, r, hr, hdump⟩
    exact ⟨file, r, hfile, hr, hdump⟩
  · rintro ⟨file, r, hfile, hr, hdump⟩
    exact ⟨file, hfile, r, hr, hdump⟩

/-- **No number of a dump** of a graph file of less than 4 GiB is cut off: the type table can be
read back, and so can the places of the sections. -/
theorem fits_of_dumpFile {graph : String} {bytes : ByteArray} (hsize : bytes.size < 2 ^ 32)
    (h : dumpFile graph (.ok bytes) (dumpSettings wide alignment) = .ok a) :
    a.types.FitsTable ∧ a.fileSize < 2 ^ 64 := by
  obtain ⟨file, r, hread, hr, hdump⟩ := dumpFile_eq_ok.mp h
  obtain ⟨text, htext, hparse⟩ := parse?_of_readGraph hread
  have hwords := inWords_dumpSettings wide alignment
  obtain ⟨hfits, htable⟩ := GraphFile.fitsTable_of_parse? (htext ▸ hsize) hparse hr
  have hfile := Archive.fileSize_le_of_dump hwords hdump
  have hend : (dumpSettings wide alignment).heapEnd = 2 ^ 35 := rfl
  rw [(Archive.parts_of_dump hwords hdump).1]
  refine ⟨hfits, ?_⟩
  rw [hend, ArchiveHeader.pageSize] at hfile
  omega

/-! ## The verify command -/

/-- The steps of the verify command succeed on the bytes of a file: they are those of an archive
with the right checksum and the right maps, and after a trial load all objects are accepted. -/
structure Verifies (bytes : ByteArray) (a : Archive) (report : VerifyReport) : Prop where
  opened : Archive.openFile (.ok bytes) true = .ok a
  checkMaps : a.checkMaps = .ok ()
  copied : ∃ objects heap, copyImage a Arena.standard a.encoding 0 = (.ok objects, heap) ∧
    verifyHeap heap objects.types objects.encoding objects.extents = .ok report

/-- A listing that runs through reports all its lines and no failure. -/
theorem Listing.report_of_runs {l : Listing Unit} {lines : List String}
    (h : Runs l [] () lines) : l.report = ⟨lines, none⟩ := by
  have hrun : (ExceptT.run l).run [] = (.ok (), lines) := h
  rw [report, hrun]

/-- What the verify command prints if its steps succeed. -/
theorem Verifies.report_verifyFile {bytes : ByteArray} {report : VerifyReport}
    (h : Verifies bytes a report) (file : String) :
    (verifyFile file (.ok bytes)).report =
      ⟨["Checksum:       ok", "Reference maps: ok", "Object graph:   ok (" ++
        toString report.objects ++ " objects, " ++ toString report.references ++
        " references, " ++ toString report.nulls ++ " null)"], none⟩ := by
  obtain ⟨objects, heap, hcopy, hverify⟩ := h.copied
  refine Listing.report_of_runs ?_
  rw [verifyFile, runs_ofExcept_bind, h.opened]
  refine ⟨a, rfl, ?_⟩
  rw [Listing.say, runs_modify_bind, runs_ofExcept_bind, h.checkMaps]
  refine ⟨⟨⟩, rfl, ?_⟩
  rw [Listing.say, runs_modify_bind, hcopy]
  dsimp only [Listing.attempt]
  rw [runs_ofExcept_bind]
  refine ⟨objects, rfl, ?_⟩
  rw [runs_ofExcept_bind, hverify]
  exact ⟨report, rfl, runs_modify.mpr rfl⟩

/-- **Every file that the dump command writes** for a graph file of less than 4 GiB, or for types
that fit in a type table, is accepted by the verify command, which finds all objects that were
dumped. It can be loaded into a standard arena in every mode, from memory or from disk, and no
assertion fails. -/
theorem verifies_and_loads_of_dumpFile {graph : String} {bytes : ByteArray}
    (hdump : dumpFile graph (.ok bytes) (dumpSettings wide alignment) = .ok a)
    (hlimit : bytes.size < 2 ^ 32 ∨ a.types.FitsTable ∧ a.fileSize < 2 ^ 64) :
    (∃ report lines, Verifies a.toBytes (a.withView true) report ∧
      report.objects = a.header.objectCount.toNat ∧
      ∀ file, (verifyFile file (.ok a.toBytes)).report = ⟨lines, none⟩) ∧
    ∀ mode, ∀ source ∈ [ArchiveSource.memory a.toBytes, .file (.ok a.toBytes)],
      (∃ outcome heap, loadArchive source Arena.standard
          { LoadOptions.standard with mode := mode } = (.ok outcome, heap) ∧
        outcome.isAvailable = true) ∧
      loadAssertion? source Arena.standard { LoadOptions.standard with mode := mode } = none := by
  obtain ⟨hfits, hsize⟩ := hlimit.elim (fits_of_dumpFile · hdump) id
  obtain ⟨file, r, -, -, hdump⟩ := dumpFile_eq_ok.mp hdump
  have hwords := inWords_dumpSettings wide alignment
  obtain ⟨rfl, hview⟩ := Archive.parts_of_dump hwords hdump
  obtain ⟨-, -, hread⟩ := Archive.sections_of_dump hwords hfits hdump hsize
  have hsound : a.Sound := Archive.sound_of_ofBytes (hread true)
  obtain ⟨hmemory, hfile⟩ := Archive.open?_of_ofBytes (hread true) hview
  have hcopy := exists_copyImage_of_dump hdump hsound
  have hmap := exists_mapImage_of_dump hdump hsound
  refine ⟨?_, ?_⟩
  · have hverifies : Verifies a.toBytes (a.withView true) a.report :=
      ⟨hfile, (Archive.kept_of_dump hwords hdump).checkMaps, hcopy true⟩
    exact ⟨a.report, _, hverifies, rfl, hverifies.report_verifyFile⟩
  · -- Only the view of the file tells the two sources apart.
    have hload : ∀ mode isMapped source, source.open? true = .ok (a.withView isMapped) →
        (∃ outcome heap, loadArchive source Arena.standard
            { LoadOptions.standard with mode := mode } = (.ok outcome, heap) ∧
          outcome.isAvailable = true) ∧
        loadAssertion? source Arena.standard { LoadOptions.standard with mode := mode } = none := by
      intro mode isMapped source hsource
      obtain ⟨objects, copied, hcopied, -⟩ := hcopy isMapped
      obtain ⟨⟨image, mapped, hmapped⟩, hassertion⟩ := hmap isMapped
      refine ⟨LoadOutcome.exists_loadArchive hsource rfl hmapped hcopied, ?_⟩
      rw [loadAssertion?, show source.open? LoadOptions.standard.verifyChecksum = _ from hsource]
      cases mode with
      | loaded => rfl
      | mapped => exact hassertion
      | auto => exact hassertion
    intro mode source hmem
    rcases List.mem_cons.mp hmem with rfl | hmem
    · exact hload mode false _ hmemory
    · obtain rfl := List.mem_singleton.mp hmem
      exact hload mode true _ hfile

/-- Two pairs that refer to each other, one in each region. -/
def cycleText : String :=
  "[[[\"Pair\",\x7b\"instance\":[[\"reference\",\"native\"]]\x7d]]," ++
    "[[[1,1,\x7b\"fields\":[\x7b\"reference\":1\x7d,\x7b\"native\":34359738384\x7d]\x7d]," ++
    "[1,1,\x7b\"fields\":[\x7b\"reference\":0\x7d,\x7b\"native\":16\x7d]\x7d]]]," ++
    "[[[0,\"open\"],[1,\"closed\"]],[0,1]]]"

/-- The cycle is dumped from its file, and every load of the dump succeeds. -/
theorem verifies_and_loads_of_dumpFile_cycle : ∃ a report,
    dumpFile "cycle.json" (.ok cycleText.toUTF8) (dumpSettings false (some 64)) = .ok a ∧
    cycleText.toUTF8.size < 2 ^ 32 ∧ Verifies a.toBytes (a.withView true) report ∧
    report.objects = 3 ∧ ∀ mode, ∃ outcome heap,
      loadArchive (.file (.ok a.toBytes)) Arena.standard
        { LoadOptions.standard with mode := mode } = (.ok outcome, heap) ∧
      outcome.isAvailable = true := by
  let o := dumpSettings false (some 64)
  have hok : ((GraphFile.parse? cycleText).any fun file => file.registry.toOption.any fun r =>
      (Archive.dump r file.graph file.selectionOrDefault o).toOption.any fun a =>
        decide (a.header.objectCount.toNat = 3)) = true := by decide +kernel
  obtain ⟨file, hfile, hok⟩ := (Option.any_eq_true ..).mp hok
  obtain ⟨r, hr, hok⟩ := Except.exists_of_any hok
  obtain ⟨a, hdump, hok⟩ := Except.exists_of_any hok
  replace hdump := dumpFile_eq_ok.mpr ⟨file, r, readGraph_toUTF8 "cycle.json" hfile, hr, hdump⟩
  have hsize : cycleText.toUTF8.size < 2 ^ 32 := by decide +kernel
  obtain ⟨⟨report, _, hverifies, hobjects, -⟩, hloads⟩ :=
    verifies_and_loads_of_dumpFile hdump (.inl hsize)
  refine ⟨a, report, hdump, hsize, hverifies, hobjects.trans (of_decide_eq_true hok), ?_⟩
  intro mode
  obtain ⟨hload, -⟩ := hloads mode (.file (.ok a.toBytes)) (by simp)
  exact hload

end CommandLine

/-! ## A name that is cut off -/

/-- **Plain characters** of a string stand for themselves. -/
theorem JsonParser.string_append {cs : List Char}
    (hplain : ∀ c ∈ cs, c ≠ '"' ∧ c ≠ '\\' ∧ 0x20 ≤ c.toNat) (before rest : List Char) :
    string (cs ++ rest) ⟨some before, none⟩ = string rest ⟨some (cs.reverse ++ before), none⟩ := by
  induction cs generalizing before with
  | nil => rfl
  | cons c cs ih =>
    obtain ⟨⟨hquote, hescape, hcontrol⟩, hcs⟩ := List.forall_mem_cons.mp hplain
    have hread : ¬ (c = '\\' ∨ c.toNat < 0x20) := by
      rintro (h | h)
      · exact hescape h
      · omega
    rw [List.cons_append, string, if_neg hread]
    · refine (ih hcs (c :: before)).trans ?_
      rw [List.reverse_cons, List.append_assoc, List.singleton_append]
    all_goals grind

/-- One array of one number, under a name that ends in the given way. -/
def numberText (tail : String) : String :=
  "[[[\"A\\u0002" ++
    (tail ++ "\",\x7b\"scalar_array\":[8]\x7d]],[[[1,0,\x7b\"scalars\":[5]\x7d]]]]")

/-- The text of one number with a long type name parses as written. -/
theorem parse?_numberText {tail : String}
    (hplain : ∀ c ∈ tail.toList, c ≠ '"' ∧ c ≠ '\\' ∧ 0x20 ≤ c.toNat) :
    Json.parse? (numberText tail) = some (.array [
      .array [.array [.string (some (String.ofList ('A' :: '\x02' :: tail.toList))),
        .object [(some "scalar_array", .array [.number "8"])]]],
      .array [.array [.array [.number "1", .number "0",
        .object [(some "scalars", .array [.number "5"])]]]]]) := by
  obtain ⟨fuel, hfuel⟩ : ∃ fuel, 2 * (numberText tail).toList.length + 2 = fuel + 60 := by
    refine Nat.exists_eq_add_of_le' ?_
    rw [numberText, String.toList_append, String.toList_append]
    simp
    omega
  rw [Json.parse?, hfuel, numberText, String.toList_append, String.toList_append]
  simp [JsonParser.value, JsonParser.elements, JsonParser.members, JsonParser.skipSpace,
    JsonParser.isSpace, JsonParser.string, JsonParser.string_append hplain, JsonParser.hexUnit?,
    JsonParser.hexValue?, JsonParser.Text.empty, JsonParser.Text.push, JsonParser.Text.pushUnit,
    JsonParser.Text.isHigh, JsonParser.Text.isLow, JsonParser.Text.finish, JsonParser.number,
    JsonParser.wholePart?, JsonParser.digits?, JsonParser.fraction?, JsonParser.exponent?]

/-- It is a graph file with one type of the long name and one number. -/
theorem GraphFile.parse?_numberText {tail : String}
    (hplain : ∀ c ∈ tail.toList, c ≠ '"' ∧ c ≠ '\\' ∧ 0x20 ≤ c.toNat) :
    parse? (numberText tail) =
      some ⟨[⟨"A" ++ ("\x02" ++ tail), .scalarArray 8⟩], .number, none⟩ := by
  have hname : String.ofList ('A' :: '\x02' :: tail.toList) = "A" ++ ("\x02" ++ tail) := by
    apply String.toList_injective
    simp
  rw [parse?, HeapImage.parse?_numberText hplain, hname]
  rfl

/-- Blanks can stand in a string as they are. -/
theorem plain_of_mem_blanks : ∀ c ∈ blanks.toList, c ≠ '"' ∧ c ≠ '\\' ∧ 0x20 ≤ c.toNat := by
  have hplain : ∀ n, ∀ c ∈ (String.ofList (List.replicate n ' ')).toList,
      c ≠ '"' ∧ c ≠ '\\' ∧ 0x20 ≤ c.toNat := by
    intro n c hc
    rw [String.toList_ofList, List.mem_replicate] at hc
    rw [hc.2]
    decide
  unfold blanks
  exact hplain _

namespace CommandLine

/-- The limit is needed: what is dumped from a graph file of more than 4 GiB may be a file that the
verify command does not accept. -/
theorem not_verifies_of_dumpFile : ∃ a,
    dumpFile "number.json" (.ok (numberText blanks).toUTF8) (dumpSettings false (some 64)) = .ok a ∧
    ∀ b report, ¬ Verifies a.toBytes b report := by
  obtain ⟨a, o, h, hdump, hcopy, -, -, -, hfails⟩ := Archive.exists_load_oversized
  obtain ⟨-, hread⟩ := Archive.ofBytes_oversized hdump
  have hfile := readGraph_toUTF8 "number.json" (GraphFile.parse?_numberText plain_of_mem_blanks)
  refine ⟨a, dumpFile_eq_ok.mpr ⟨_, _, hfile, TypeRegistry.ofList?_eq_ok rfl, hdump⟩, ?_⟩
  rintro b report ⟨hopened, -, objects, heap, hcopied, hverified⟩
  have hopen : Archive.openFile (.ok a.toBytes) true =
      .ok ((a.withTypes .cutOff).withView true) := by
    rw [Archive.openFile, hread true]
    rfl
  rw [hopen] at hopened
  cases hopened
  -- The objects are those that are copied without a view of the file.
  have hrun : copyImage (a.withTypes .cutOff) Arena.standard a.encoding 0 =
      (.ok objects, heap) := hcopied
  rw [hcopy] at hrun
  cases hrun
  rw [hverified] at hfails
  cases hfails

end CommandLine

end HeapImage
