import HeapImage.Checked.Outcome
import HeapImage.Proofs.ArenaSums
import HeapImage.Proofs.CheckedCopying
import HeapImage.Proofs.CheckedVerification
import HeapImage.Proofs.FailedLoads
import HeapImage.Proofs.FileRoundTrip

/-! # Sums of addresses

The check of a header bounds the offsets of all sections, but neither the range that the image was
made for, nor the native image, nor the addresses that references may stand for. Where these end
below the last address, no load into an arena comes to a sum that does not fit a heap word; where
they do not, it may.

* `ArchiveHeader.AddressesFit`: what the check of a header leaves open.
* `Archive.tryLoad_words`: a load without overflow.
* `Archive.tryLoad_words_of_overflow`: a load that comes to a sum that is too large.
* `Archive.sums_of_ofBytes`: the sums of every archive that can be read. -/

namespace HeapImage

/-- Words hold the numbers below two to the 64. -/
theorem AddressSpace.has_words {a : Nat} : words.Has a ↔ a < 2 ^ 64 := Iff.rfl

/-! ## Headers -/

/-- The range that an image was made for ends below the last address, and so does what references
may stand for. -/
structure ArchiveHeader.AddressesFit (h : ArchiveHeader) : Prop where
  image : h.requestedBase.toNat + h.imageLength.toNat < 2 ^ 64
  references : ∀ b s, h.encoding = .narrow b s →
    b.toNat + ReferenceEncoding.maxNarrow <<< s.toNat < 2 ^ 64

/-- References of any value stand for addresses. -/
theorem ArchiveHeader.AddressesFit.covers {h : ArchiveHeader} (hfit : h.AddressesFit) :
    AddressSpace.words.Covers h.encoding := by
  cases hencoding : h.encoding with
  | wide => exact fun value hvalue => hvalue
  | narrow b s => exact AddressSpace.covers_narrow (hfit.references b s hencoding)

/-! ## Reading -/

namespace Archive

/-- The digest of a file decides only whether it is read, not what it is read as. -/
theorem ofBytes_false_of_ok {bytes : ByteArray} {checksum : Bool} {a : Archive}
    (h : ofBytes bytes checksum = .ok a) : ofBytes bytes false = .ok a := by
  cases checksum with
  | false => exact h
  | true =>
    rw [ofBytes, Except.bind_eq_ok] at h ⊢
    obtain ⟨header, hheader, h⟩ := h
    obtain ⟨stored, hstored, h⟩ := Except.bind_eq_ok.mp h
    obtain ⟨⟨⟩, -, h⟩ := Except.bind_eq_ok.mp h
    exact ⟨header, hheader, Except.bind_eq_ok.mpr ⟨stored, hstored, h⟩⟩

/-- An archive that can be opened is sound, wherever it comes from. -/
theorem sound_of_open? {source : ArchiveSource} {checksum : Bool} {a : Archive}
    (h : source.open? checksum = .ok a) : a.Sound := by
  cases source with
  | memory bytes => exact sound_of_ofBytes h
  | file contents =>
    cases contents with
    | error e => cases h
    | ok bytes =>
      obtain ⟨b, hread, hb⟩ := Except.bind_eq_ok.mp h
      obtain rfl := Except.pure_eq_ok.mp hb
      obtain ⟨hcheck, himage, hreferences, hnatives⟩ := sound_of_ofBytes hread
      exact ⟨hcheck, himage, hreferences, hnatives⟩

/-! ## Loads -/

variable {a : Archive} {h k : Arena} {runtime : ReferenceEncoding} {delta : UInt64}
variable {source : ArchiveSource} {options : LoadOptions} {checksum assertions : Bool}
variable {base : Nat} {outcome : LoadOutcome}

/-- Every range that the heap grants for the image of an archive ends at an address. -/
def GrantFits (a : Archive) (h : Arena) : Prop :=
  ∀ base, h.grant? a.header.requestedBase.toNat = some base → base + a.image.size < 2 ^ 64

/-- Mapping comes to no sum that is too large. -/
theorem Sound.mapOutcome_words (hsound : a.Sound) (hfit : a.header.AddressesFit)
    (hgrant : a.GrantFits h) :
    Checked.mapOutcome ⟨.words, assertions⟩ a h runtime delta =
      (Checks.unlessFails ⟨.words, assertions⟩ (mappingAssertion? a h runtime)
        (mapOutcome a h runtime delta)).inState
          (MappingHost.reserve h a.header.requestedBase.toNat a.image.size).2 := by
  have hsums : ∀ n ∈ HeapSums.reservation h a.header.requestedBase.toNat a.image.size,
      AddressSpace.words.Has n := by
    intro n hn
    obtain ⟨base, hbase, rfl⟩ := List.mem_map.mp hn
    exact hgrant base (Option.mem_toList.mp hbase)
  have hstop : ∀ actual granted, MappingHost.reserve h a.header.requestedBase.toNat a.image.size =
      (some actual, granted) → AddressSpace.words.Has (actual + a.image.size) := by
    intro actual granted hreserve
    replace hreserve : h.reserve a.header.requestedBase.toNat a.image.size = _ := hreserve
    exact hgrant actual (Arena.of_reserve hreserve).1
  have hmap : Checked.mapImage ⟨.words, assertions⟩ a h runtime delta = _ :=
    hsound.mapImage_unlessFails hsums hstop hfit.covers
  rw [Checked.mapOutcome, hmap]
  refine Checks.inState_unlessFails_bind ?_
  rw [mapOutcome]
  rcases mapImage a h runtime delta with ⟨e | m, k⟩ <;> rfl

/-- The heap that copying leaves is that of the copy. -/
theorem copyOutcome_heap (a : Archive) (h : Arena) (runtime : ReferenceEncoding)
    (delta : UInt64) : (copyOutcome a h runtime delta).2 = (copyImage a h runtime delta).2 := by
  rw [copyOutcome]
  rcases copyImage a h runtime delta with ⟨e | c, k⟩ <;> rfl

/-- Copying comes to no sum that is too large, unless the arena runs out of addresses. -/
theorem Sound.copyOutcome_words {checks : Checks} (hspace : checks.space = .words)
    (hsound : a.Sound) (hfit : a.header.AddressesFit)
    (hw : h.WellFormed) (hend : (copyOutcome a h runtime delta).2.nextBase < 2 ^ 64) :
    Checked.copyOutcome checks a h runtime delta = .ok (copyOutcome a h runtime delta) := by
  rw [copyOutcome_heap] at hend
  rw [Checked.copyOutcome, hspace, hsound.copyImage_eq_ok Arena.sumsFit hw hend hfit.covers,
    Checked.ok_bind, copyOutcome]
  rcases copyImage a h runtime delta with ⟨e | c, k⟩ <;> rfl

/-- So does a load that tries both ways: only a failed assertion stops it. -/
theorem Sound.autoOutcome_words (hsound : a.Sound) (hopen : source.open? checksum = .ok a)
    (hfit : a.header.AddressesFit) (hw : h.WellFormed) (hgrant : a.GrantFits h)
    (hend : (autoOutcome source checksum a h runtime delta).2.nextBase < 2 ^ 64) :
    Checked.autoOutcome ⟨.words, assertions⟩ source checksum a h runtime delta =
      (Checks.unlessFails ⟨.words, assertions⟩ (mappingAssertion? a h runtime)
        (autoOutcome source checksum a h runtime delta)).inState
          (MappingHost.reserve h a.header.requestedBase.toNat a.image.size).2 := by
  rw [Checked.autoOutcome, hsound.mapOutcome_words hfit hgrant]
  refine Checks.inState_unlessFails_bind ?_
  rw [autoOutcome] at hend ⊢
  rcases LoadOutcome.mapOutcome_ends a h runtime delta with ⟨outcome, k, hmap, -⟩ | ⟨e, hmap, he⟩
  · rw [hmap]
    rfl
  · rw [hmap] at hend ⊢
    dsimp only at hend ⊢
    -- The archive is read anew, from the same bytes.
    rw [if_pos he, hopen] at hend
    rw [if_pos he, if_pos he, hopen]
    exact hsound.copyOutcome_words rfl hfit hw hend

/-- What is loaded ends at addresses. -/
theorem Sound.has_of_attempt (hsound : a.Sound)
    (hopen : source.open? options.verifyChecksum = .ok a) (hfit : a.header.AddressesFit)
    (hw : h.WellFormed) (hgrant : a.GrantFits h) (mode : LoadMode)
    (hrun : LoadOutcome.attempt source a h options mode = (.ok outcome, k))
    (hend : k.nextBase < 2 ^ 64) : ∀ x ∈ outcome.extents, AddressSpace.words.Has x.top := by
  have hmapped : ∀ outcome k, LoadOutcome.attempt source a h options .mapped = (.ok outcome, k) →
      ∀ x ∈ outcome.extents, AddressSpace.words.Has x.top := by
    intro outcome k hrun x hx
    rw [LoadOutcome.attempt, mapOutcome] at hrun
    split at hrun
    · rename_i m heap hmap
      cases hrun
      obtain ⟨-, -, -, -, ⟨granted, hreserve, -⟩, -⟩ := of_mapImage hmap
      replace hreserve : h.reserve a.header.requestedBase.toNat a.image.size = _ := hreserve
      have hlt := hgrant m.heap.base (Arena.of_reserve hreserve).1
      change x ∈ m.regions at hx
      rw [regions_of_mapImage hmap] at hx
      obtain ⟨e, he, rfl⟩ := List.mem_map.mp hx
      obtain ⟨region, -, rfl⟩ := List.mem_map.mp (List.mem_filter.mp he).1
      have htop := (hsound.bounds region).2
      change (a.header.range region).top + m.heap.base < 2 ^ 64
      omega
    · cases hrun
  have hloaded : ∀ outcome k, LoadOutcome.attempt source a h options .loaded = (.ok outcome, k) →
      k.nextBase < 2 ^ 64 → ∀ x ∈ outcome.extents, AddressSpace.words.Has x.top := by
    intro outcome k hrun hend
    rw [LoadOutcome.attempt, copyOutcome] at hrun
    split at hrun
    · rename_i c heap hcopy
      cases hrun
      exact hsound.has_of_copyImage Arena.sumsFit hw hfit.covers hcopy hend
    · cases hrun
  cases mode with
  | mapped => exact hmapped outcome k hrun
  | loaded => exact hloaded outcome k hrun hend
  | auto =>
    rw [LoadOutcome.attempt_auto hopen] at hrun
    split at hrun
    · rename_i hmap
      exact hmapped outcome k (hmap.trans hrun)
    · exact hloaded outcome k hrun hend

/-- A load goes on behind its attempt unless this comes to a fault. -/
theorem checked_tryLoad_eq {checks : Checks} {failed : Option Disagreement} {s : Arena}
    (hopen : source.open? options.verifyChecksum = .ok a)
    (hattempt : Checked.attempt checks source a h options options.mode =
      (checks.unlessFails failed (LoadOutcome.attempt source a h options options.mode)).inState s)
    (hverify : options.verifyAfterLoad = true → ∀ outcome k,
      LoadOutcome.attempt source a h options options.mode = (.ok outcome, k) →
        ∃ report, verifyOutcome k outcome = .ok report ∧
          Checked.verifyOutcome checks k outcome = .ok (.ok report)) :
    Checked.tryLoad checks source h options =
      (checks.unlessFails failed (tryLoad source h options)).inState s := by
  rw [Checked.tryLoad, hopen]
  dsimp only
  rw [hattempt]
  refine Checks.inState_unlessFails_bind ?_
  rw [LoadOutcome.tryLoad_eq_verified hopen]
  rcases hrun : LoadOutcome.attempt source a h options options.mode with ⟨e | outcome, k⟩
  · rfl
  · dsimp only
    rw [LoadOutcome.verified]
    dsimp only
    cases hoption : options.verifyAfterLoad with
    | false => rfl
    | true =>
      obtain ⟨report, hplain, hchecked⟩ := hverify hoption outcome k hrun
      rw [if_pos rfl, if_pos rfl, hplain, hchecked]
      rfl

/-- **A load without overflow.** If all ranges end below the last address, a load of any mode into
an arena comes to no sum that is too large, unless the arena runs out of addresses. With assertions
checked it comes to the one that fails, if there is one, and the range is still set aside then. A
load that ends with a verification has to pass it. -/
theorem tryLoad_words (hopen : source.open? options.verifyChecksum = .ok a)
    (hfit : a.header.AddressesFit) (hw : h.WellFormed) (hgrant : a.GrantFits h)
    (hend : (tryLoad source h options).2.nextBase < 2 ^ 64)
    (hverify : options.verifyAfterLoad = true → (tryLoad source h options).1.isOk = true) :
    Checked.tryLoad ⟨.words, assertions⟩ source h options =
      (Checks.unlessFails ⟨.words, assertions⟩ (loadAssertion? source h options)
        (tryLoad source h options)).inState
          (MappingHost.reserve h a.header.requestedBase.toNat a.image.size).2 := by
  have hsound := sound_of_open? hopen
  have htry := LoadOutcome.tryLoad_eq_verified hopen h
  have hheap : (LoadOutcome.attempt source a h options options.mode).2.nextBase < 2 ^ 64 := by
    rw [htry, LoadOutcome.verified_heap] at hend
    exact hend
  refine checked_tryLoad_eq hopen ?_ ?_
  · rw [loadAssertion?, hopen]
    cases hmode : options.mode with
    | mapped => exact hsound.mapOutcome_words hfit hgrant
    | loaded =>
      rw [hmode] at hheap
      exact hsound.copyOutcome_words rfl hfit hw hheap
    | auto =>
      rw [hmode] at hheap
      exact hsound.autoOutcome_words hopen hfit hw hgrant hheap
  · intro hoption outcome k hrun
    -- A verification that is passed adds nothing up that is not there.
    obtain ⟨report, hreport⟩ : ∃ report, verifyOutcome k outcome = .ok report := by
      have hok := hverify hoption
      rw [htry, hoption, hrun] at hok
      exact LoadOutcome.exists_report_of_verified hok
    rw [hrun] at hheap
    refine ⟨report, hreport, Checked.verifyOutcome_eq_ok ?_ hreport⟩
    exact hsound.has_of_attempt hopen hfit hw hgrant options.mode hrun hheap

/-- A range whose end is too large is not set aside, nor refused. -/
theorem mapOutcome_words_of_overflow (hcheck : checkEncodings a.encoding runtime = .ok ())
    (hgrant : h.grant? a.header.requestedBase.toNat = some base)
    (hlarge : 2 ^ 64 ≤ base + a.image.size) :
    Checked.mapOutcome ⟨.words, assertions⟩ a h runtime delta = .error ⟨.addition, h⟩ := by
  have hsums : AddressSpace.words.check
      (HeapSums.reservation h a.header.requestedBase.toNat a.image.size) = .error .addition := by
    refine if_neg fun hall => ?_
    have hmem : base + a.image.size ∈
        HeapSums.reservation h a.header.requestedBase.toNat a.image.size :=
      List.mem_map_of_mem (Option.mem_toList.mpr hgrant)
    exact absurd (AddressSpace.has_words.mp (hall _ hmem)) (Nat.not_lt.mpr hlarge)
  rw [Checked.mapOutcome, Checked.mapImage, hcheck]
  dsimp only
  rw [hsums]
  rfl

/-- **A load that overflows.** If an arena is to grant a range that ends beyond the last address, a
load that maps the image comes to a sum that is too large. It stops there, without an error, and the
arena is as it was. -/
theorem tryLoad_words_of_overflow (hopen : source.open? options.verifyChecksum = .ok a)
    (hmode : options.mode ≠ .loaded)
    (hcheck : checkEncodings a.encoding (options.runtime.getD a.encoding) = .ok ())
    (hgrant : h.grant? a.header.requestedBase.toNat = some base)
    (hlarge : 2 ^ 64 ≤ base + a.image.size) :
    Checked.tryLoad ⟨.words, assertions⟩ source h options = .error ⟨.addition, h⟩ := by
  rw [Checked.tryLoad, hopen]
  dsimp only
  cases hoption : options.mode with
  | loaded => exact absurd hoption hmode
  | mapped =>
    rw [Checked.attempt, mapOutcome_words_of_overflow hcheck hgrant hlarge]
    rfl
  | auto =>
    rw [Checked.attempt, Checked.autoOutcome, mapOutcome_words_of_overflow hcheck hgrant hlarge]
    rfl

/-! ## Listings -/

/-- The listing of a header comes to a sum that is too large if the native image ends beyond the
last address. -/
theorem infoFile_words {bytes : ByteArray} (hread : ofBytes bytes checksum = .ok a)
    (file : String) : Checked.infoFile .words file (.ok bytes) =
      if a.header.nativeBase.toNat + a.header.nativeSize.toNat < 2 ^ 64 then
        .ok (CommandLine.infoFile file (.ok bytes))
      else .error .addition := by
  rw [Checked.infoFile]
  dsimp only
  rw [ofBytes_false_of_ok hread]
  dsimp only
  rw [AddressSpace.check]
  by_cases hnative : a.header.nativeBase.toNat + a.header.nativeSize.toNat < 2 ^ 64
  · rw [if_pos hnative, if_pos (by simpa using AddressSpace.has_words.mpr hnative)]
    rfl
  · rw [if_neg hnative, if_neg (by simpa using mt AddressSpace.has_words.mp hnative)]
    rfl

/-! ## Archives -/

/-- **The sums of an archive.** A file that can be read calls for no sum of addresses that is too
large if its image and its references stay below the last address: a load of any mode into an arena
that does not run out of addresses itself comes to none, whether it ends with a verification that it
passes or with none. All that can stop it is an assertion, if they are checked, with the range still
set aside. But nothing that is checked when a file is read makes sure of it. An image that ends
beyond the last address stops every load that asks for its range, and the listing of the header
stops if the native image does. -/
theorem sums_of_ofBytes {bytes : ByteArray} (hread : ofBytes bytes checksum = .ok a) :
    (a.header.AddressesFit → ∀ (h : Arena) (options : LoadOptions), h.Reachable →
      (∀ base, h.mapping = .atFixed base → base + a.image.size < 2 ^ 64) →
      (tryLoad (.memory bytes) h options).2.nextBase < 2 ^ 64 →
      (options.verifyAfterLoad = true → (tryLoad (.memory bytes) h options).1.isOk = true) →
      ∀ assertions : Bool, Checked.tryLoad ⟨.words, assertions⟩ (.memory bytes) h options =
        (Checks.unlessFails ⟨.words, assertions⟩ (loadAssertion? (.memory bytes) h options)
          (tryLoad (.memory bytes) h options)).inState
            (MappingHost.reserve h a.header.requestedBase.toNat a.image.size).2) ∧
    (2 ^ 64 ≤ a.header.requestedBase.toNat + a.image.size → ∀ (h : Arena) (options : LoadOptions),
      ofBytes bytes options.verifyChecksum = .ok a → options.mode ≠ .loaded →
      checkEncodings a.encoding (options.runtime.getD a.encoding) = .ok () →
      h.mapping = .atRequested → ∀ assertions : Bool,
      Checked.tryLoad ⟨.words, assertions⟩ (.memory bytes) h options = .error ⟨.addition, h⟩) ∧
    ∀ file, Checked.infoFile .words file (.ok bytes) =
      if a.header.nativeBase.toNat + a.header.nativeSize.toNat < 2 ^ 64 then
        .ok (CommandLine.infoFile file (.ok bytes))
      else .error .addition := by
  have hsize := (sound_of_ofBytes hread).size_image
  refine ⟨?_, ?_, infoFile_words hread⟩
  · intro hfit h options hreachable hfixed hend hverify assertions
    cases hopen : ofBytes bytes options.verifyChecksum with
    | error e =>
      have hfailed : (ArchiveSource.memory bytes).open? options.verifyChecksum = .error e := hopen
      rw [Checked.tryLoad, tryLoad, loadAssertion?, hfailed]
      cases options.mode <;> rfl
    | ok b =>
      -- With or without its digest checked, a file is read as the same archive.
      obtain rfl : b = a :=
        Except.ok.inj ((ofBytes_false_of_ok hopen).symm.trans (ofBytes_false_of_ok hread))
      have hopen' : (ArchiveSource.memory bytes).open? options.verifyChecksum = .ok b := hopen
      refine tryLoad_words hopen' hfit hreachable.wellFormed ?_ hend hverify
      intro base hgrant
      rw [Arena.grant?] at hgrant
      cases hmapping : h.mapping with
      | atRequested =>
        rw [hmapping] at hgrant
        rw [← Option.some.inj hgrant, hsize]
        exact hfit.image
      | atFixed fixed =>
        rw [hmapping] at hgrant
        rw [← Option.some.inj hgrant]
        exact hfixed fixed hmapping
      | unavailable =>
        rw [hmapping] at hgrant
        cases hgrant
  · intro hlarge h options hopen hmode hcheck hmapping assertions
    have hopen' : (ArchiveSource.memory bytes).open? options.verifyChecksum = .ok a := hopen
    have hgrant : h.grant? a.header.requestedBase.toNat = some a.header.requestedBase.toNat := by
      rw [Arena.grant?, hmapping]
    exact tryLoad_words_of_overflow hopen' hmode hcheck hgrant hlarge

/-- The cycle is copied to a fresh heap. -/
theorem sums_of_ofBytes_cycle : ∃ a, ∃ options : LoadOptions, ofBytes a.toBytes false = .ok a ∧
    a.header.AddressesFit ∧ options.mode = .loaded ∧ options.verifyAfterLoad = false ∧
    (tryLoad (.memory a.toBytes) Arena.standard options).2.nextBase < 2 ^ 64 ∧
    ∀ assertions : Bool,
      Checked.tryLoad ⟨.words, assertions⟩ (.memory a.toBytes) Arena.standard options =
        .ok (tryLoad (.memory a.toBytes) Arena.standard options) := by
  obtain ⟨a, hdump, hok⟩ : ∃ a, dump .pairs .cycle .cycle .small = .ok a ∧
      decide (a.fileSize < 2 ^ 64 ∧ a.header.encoding = .narrow 4096 3 ∧
        a.header.requestedBase.toNat + a.header.imageLength.toNat < 2 ^ 64 ∧
        (copyOutcome a Arena.standard a.encoding 0).2.nextBase < 2 ^ 64) = true :=
    Except.exists_of_any (by decide +kernel)
  obtain ⟨hsize, hencoding, himage, hend⟩ := of_decide_eq_true hok
  obtain ⟨-, -, hread⟩ := sections_of_dump DumpOptions.inWords_small TypeRegistry.fitsTable_pairs
    hdump hsize
  have hfit : a.header.AddressesFit := by
    refine ⟨himage, fun b s h => ?_⟩
    obtain ⟨rfl, rfl⟩ := ReferenceEncoding.narrow.inj (hencoding.symm.trans h)
    decide
  have hopen : (ArchiveSource.memory a.toBytes).open? false = .ok a := hread false
  have hload : tryLoad (.memory a.toBytes) Arena.standard ⟨.loaded, none, none, false, false⟩ =
      copyOutcome a Arena.standard a.encoding 0 := by
    rw [LoadOutcome.tryLoad_eq_verified hopen, LoadOutcome.verified_false]
    rfl
  obtain ⟨hfits, -, -⟩ := sums_of_ofBytes (hread false)
  refine ⟨a, ⟨.loaded, none, none, false, false⟩, hread false, hfit, rfl, rfl, hload ▸ hend, ?_⟩
  -- A load that copies has no assertions.
  exact hfits hfit Arena.standard _ .standard nofun (hload ▸ hend) nofun

end Archive

end HeapImage
