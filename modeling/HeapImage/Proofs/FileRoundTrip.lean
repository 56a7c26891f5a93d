import HeapImage.Proofs.ImageLayout
import HeapImage.Proofs.Spans
import HeapImage.Proofs.WrittenFiles

/-! # Archive files read back

The header of a dump says where the sections of its file are. Since no number of it is cut off,
every section is found where the writer has put it, and the header passes all its checks.

* `Archive.fileSize`: bytes of the file of an archive.
* `Archive.Sections`: the header says where the sections are.
* `Archive.ofBytes_of_sections`: reading the file of an archive with a sound header.
* `Archive.header_of_dump`, `Archive.sound_of_dump`: what there is of a dump before it is written.
* `Archive.ofBytes_toBytes_of_dump`: the file of every dump reads back as the dump.
* `Archive.fileSize_le_of_dump`: the file of a dump is its image, its table and its maps. -/

namespace HeapImage

namespace Archive

/-- Bytes of the file of an archive. -/
def fileSize (a : Archive) : Nat :=
  alignUp (ArchiveHeader.pageSize + a.image.size + (TypeTable.encode a.types).length) wordSize +
    (bitmapBytes a.opened a.closed).size + Digest.size

/-- The header says where the sections of the file are and how many bits its maps have. -/
structure Sections (a : Archive) : Prop where
  imageOffset : a.header.imageOffset.toNat = ArchiveHeader.pageSize
  imageLength : a.header.imageLength.toNat = a.image.size
  typesOffset : a.header.typesOffset.toNat = ArchiveHeader.pageSize + a.image.size
  typesLength : a.header.typesLength.toNat = (TypeTable.encode a.types).length
  bitmapsOffset : a.header.bitmapsOffset.toNat =
    alignUp (ArchiveHeader.pageSize + a.image.size + (TypeTable.encode a.types).length) wordSize
  bitmapsLength : a.header.bitmapsLength.toNat = (bitmapBytes a.opened a.closed).size
  checksumOffset : a.header.checksumOffset.toNat =
    a.header.bitmapsOffset.toNat + a.header.bitmapsLength.toNat
  openReferences : a.header.openReferenceBits.toNat = a.opened.references.size
  openNatives : a.header.openNativeBits.toNat = a.opened.natives.size
  closedReferences : a.header.closedReferenceBits.toNat = a.closed.references.size
  closedNatives : a.header.closedNativeBits.toNat = a.closed.natives.size

section

variable {a : Archive}

/-- A file ends with its checksum. -/
theorem Sections.fileSize_eq (h : a.Sections) :
    a.fileSize = a.header.checksumOffset.toNat + Digest.size := by
  rw [fileSize, h.checksumOffset, h.bitmapsOffset, h.bitmapsLength]

/-- The file has the size that the header says. -/
theorem Sections.size_toBytes (h : a.Sections) :
    a.toBytes.size = a.header.checksumOffset.toNat + Digest.size := by
  rw [Archive.size_toBytes, h.checksumOffset, h.bitmapsLength]

/-- The writer puts the sections where the header says. -/
theorem Sections.inPlace (h : a.Sections) : a.InPlace where
  stored := stored_of_size_le (by
    rw [h.imageOffset]
    decide)
  imageLength := h.imageLength
  typesOffset := by rw [h.typesOffset, h.imageOffset]
  typesLength := Nat.le_of_eq h.typesLength.symm
  typesEnd := by
    rw [h.typesOffset, h.typesLength, h.bitmapsOffset]
    exact le_alignUp _ _
  checksumOffset := by rw [h.checksumOffset, h.bitmapsLength]
  pageSize_le := by
    have hle := le_alignUp (ArchiveHeader.pageSize + a.image.size +
      (TypeTable.encode a.types).length) wordSize
    rw [h.checksumOffset, h.bitmapsOffset]
    omega
  openReferences := h.openReferences
  openNatives := h.openNatives
  closedReferences := h.closedReferences
  closedNatives := h.closedNatives

/-- **Reading the file of an archive** in memory gives the archive, with or without a look at the
checksum. -/
theorem ofBytes_of_sections (h : a.Sections) (hcheck : a.header.check = .ok ())
    (hfits : a.types.FitsTable) (hmapped : a.isMapped = false) (verifyChecksum : Bool) :
    ofBytes a.toBytes verifyChecksum = .ok a :=
  ofBytes_of_inPlace h.inPlace hcheck hfits hmapped verifyChecksum

end

/-! ## The header of a dump -/

/-- The maps of a region are derived from its part of the output. -/
theorem derive_of_regionMaps {s : DumpSession} {recorded : BitMap} {region : Region}
    {maps : RegionMaps} (h : s.regionMaps recorded region = .ok maps) :
    RegionMaps.derive (s.output.extract (s.range region).bottom (s.range region).top) s.registry
      s.slotSize s.options.native = .ok maps := by
  rw [DumpSession.regionMaps, Except.bind_eq_ok] at h
  obtain ⟨maps', hderive, h⟩ := h
  obtain ⟨⟨⟩, -, h⟩ := Except.bind_eq_ok.mp h
  rw [Except.pure_eq_ok] at h
  rw [← h]
  exact hderive

/-- The maps of a dump are derived from the regions of its output. -/
theorem derive_of_maps {s : DumpSession} {opened closed : RegionMaps}
    (h : s.maps = .ok (opened, closed)) :
    RegionMaps.derive (s.output.extract 0 s.openTop) s.registry s.slotSize s.options.native =
        .ok opened ∧
      RegionMaps.derive (s.output.extract s.closedBottom s.closedTop) s.registry s.slotSize
        s.options.native = .ok closed := by
  rw [DumpSession.maps, Except.guard_eq_ok] at h
  obtain ⟨-, h⟩ := h
  split at h
  · cases h
  · obtain ⟨opened', hopen, h⟩ := Except.bind_eq_ok.mp h
    obtain ⟨closed', hclosed, h⟩ := Except.bind_eq_ok.mp h
    rw [Except.pure_eq_ok, Prod.mk.injEq] at h
    obtain ⟨rfl, rfl⟩ := h
    have hopenMaps := derive_of_regionMaps hopen
    have hclosedMaps := derive_of_regionMaps hclosed
    dsimp only [DumpSession.range] at hopenMaps hclosedMaps
    exact ⟨hopenMaps, hclosedMaps⟩

section

variable {s : DumpSession} {q : RequestedRegions} {g : ObjectGraph} {r : TypeRegistry}
variable {roots : List ObjectId} {opened closed : RegionMaps} {os cs : List Placed}
variable {ref : ObjectId → Nat}

/-- The sizes of the maps of a dump. -/
theorem sizes_of_maps (hs : s.Standing q g roots os cs ref)
    (hmaps : s.maps = .ok (opened, closed)) :
    opened.references.size = s.openTop / s.slotSize ∧ opened.natives.size = s.openTop / wordSize ∧
      closed.references.size = (s.closedTop - s.closedBottom) / s.slotSize ∧
      closed.natives.size = (s.closedTop - s.closedBottom) / wordSize := by
  have hopen := hs.openTop_le
  have hclosed := hs.closedRow.le
  have htop := hs.closedTop_le
  obtain ⟨hderive, hderive'⟩ := derive_of_maps hmaps
  obtain ⟨_, -, hmarks⟩ := RegionMaps.of_derive hderive
  obtain ⟨_, -, hmarks'⟩ := RegionMaps.of_derive hderive'
  have hsize : (s.output.extract 0 s.openTop).size = s.openTop := by
    rw [ByteArray.size_extract, hs.size_output]
    omega
  have hsize' : (s.output.extract s.closedBottom s.closedTop).size =
      s.closedTop - s.closedBottom := by
    rw [ByteArray.size_extract, hs.size_output]
    omega
  rw [← hsize', ← hsize]
  exact ⟨hmarks.sizeReferences, hmarks.sizeNatives, hmarks'.sizeReferences, hmarks'.sizeNatives⟩

/-- **An assembled archive** has its sections back to back, as its header says. -/
theorem sections_assemble (hs : s.Standing q g roots os cs ref) (hwords : s.options.InWords)
    (hmaps : s.maps = .ok (opened, closed))
    (hsize : (assemble (headerOf s q) s.output s.registry opened closed).fileSize < 2 ^ 64) :
    (assemble (headerOf s q) s.output s.registry opened closed).Sections := by
  obtain ⟨hor, hon, hcr, hcn⟩ := sizes_of_maps hs hmaps
  have hle : ∀ v w, v / w ≤ v := Nat.div_le_self
  have hend := hwords.heapEnd_lt
  have hbase := hs.base_add_le
  have hopen := hs.openTop_le
  have hclosed := hs.closedRow.le
  have htop := hs.closedTop_le
  have hor' := hle s.openTop s.slotSize
  have hon' := hle s.openTop wordSize
  have hcr' := hle (s.closedTop - s.closedBottom) s.slotSize
  have hcn' := hle (s.closedTop - s.closedBottom) wordSize
  have hword : UInt64.size = 2 ^ 64 := rfl
  rw [fileSize] at hsize
  -- All sections are parts of the file, so no offset is cut off.
  change alignUp (ArchiveHeader.pageSize + s.output.size + (TypeTable.encode s.registry).length)
    wordSize + (bitmapBytes opened closed).size + Digest.size < 2 ^ 64 at hsize
  have hup := le_alignUp
    (ArchiveHeader.pageSize + s.output.size + (TypeTable.encode s.registry).length) wordSize
  have hpart : ∀ {n : Nat}, n < 2 ^ 64 → (UInt64.ofNat n).toNat = n := UInt64.toNat_ofNat_of_lt'
  constructor
  case checksumOffset =>
    change (UInt64.ofNat (alignUp (ArchiveHeader.pageSize + s.output.size +
      (TypeTable.encode s.registry).length) wordSize + (bitmapBytes opened closed).size)).toNat =
        (UInt64.ofNat (alignUp _ _)).toNat + (UInt64.ofNat (bitmapBytes opened closed).size).toNat
    rw [hpart (by omega), hpart (by omega), hpart (by omega)]
  all_goals exact hpart (by omega)

/-- A header with an encoding that is supported identifies the format. -/
theorem soundIdentity_withEncoding {e : ReferenceEncoding}
    (he : e.shift ≤ ReferenceEncoding.maxShift) :
    (ArchiveHeader.blank.withEncoding e).SoundIdentity where
  magic := by cases e <;> rfl
  version := by cases e <;> rfl
  endianness := by cases e <;> rfl
  refSize := by
    rw [encoding_withEncoding]
    cases e <;> rfl
  narrowShift _ := by
    cases e with
    | wide => exact Nat.zero_le _
    | narrow base shift => exact he

/-- The header of a dump has the size of its references. -/
theorem refSize_assemble (hcheck : s.options.check = .ok ()) :
    (assemble (headerOf s q) s.output r opened closed).header.refSize.toNat = s.slotSize := by
  obtain ⟨-, -, -, -, -, hshift⟩ := DumpOptions.of_check hcheck
  have hsize := (soundIdentity_withEncoding hshift).refSize
  rw [encoding_withEncoding] at hsize
  exact hsize

/-- The regions of an assembled archive are sound. -/
theorem soundRegions_assemble (hs : s.Standing q g roots os cs ref)
    (hwords : s.options.InWords) (hcheck : s.options.check = .ok ()) :
    (assemble (headerOf s q) s.output r opened closed).header.SoundRegions := by
  obtain ⟨ha, -⟩ := DumpOptions.of_check hcheck
  have hfields := headerSays_assemble r opened closed hs hwords hcheck
  obtain ⟨x, hx, -, hroot⟩ := hs.root
  constructor
  case openOffset => exact hfields.openOffset
  case alignment =>
    rw [hfields.regionAlignment]
    exact ha
  case dvd_base =>
    rw [hfields.regionAlignment, hfields.requestedBase]
    exact hs.dvd_base
  case base_ne_zero =>
    rw [hfields.requestedBase]
    exact hs.base_ne_zero
  case openSize_le =>
    rw [hfields.openSize, hfields.closedOffset]
    exact hs.openTop_le
  case dvd_closedOffset =>
    rw [hfields.regionAlignment, hfields.closedOffset, hs.closedBottom_eq]
    exact dvd_alignUp ha _
  case dvd_imageLength =>
    rw [hfields.regionAlignment, hfields.imageLength, DumpSession.imageSize]
    exact dvd_alignUp ha _
  case closedStop_le =>
    rw [hfields.closedStop, hfields.imageLength]
    exact hs.closedTop_le
  case dvd_root =>
    rw [hfields.rootOffset, ← hroot]
    exact (hs.openRow.dvd (Nat.dvd_zero _) fun y _ => y.member.wordSize_dvd_size _).1 x hx
  -- The root array is a member of the open region, header and all.
  case root_le =>
    have hheader := x.member.headerSize_le_size s.slotSize
    have hstop := (hs.openRow.bounds x hx).2
    rw [hfields.rootOffset, ← hroot, hfields.openSize]
    omega

/-- The bit counts of an assembled archive are sound. -/
theorem soundBits_assemble (hs : s.Standing q g roots os cs ref) (hwords : s.options.InWords)
    (hcheck : s.options.check = .ok ()) (hmaps : s.maps = .ok (opened, closed))
    (hsections : (assemble (headerOf s q) s.output s.registry opened closed).Sections) :
    (assemble (headerOf s q) s.output s.registry opened closed).header.SoundBits := by
  obtain ⟨-, -, -, -, -, hshift⟩ := DumpOptions.of_check hcheck
  obtain ⟨hor, hon, hcr, hcn⟩ := sizes_of_maps hs hmaps
  have hfields := headerSays_assemble s.registry opened closed hs hwords hcheck
  -- The closed region is given by its start and its size, the session has its end.
  have hclosedSize := Nat.eq_sub_of_add_eq' (hfields.closedOffset ▸ hfields.closedStop)
  have hrefSize : (ArchiveHeader.blank.withEncoding s.options.encoding).refSize.toNat =
      s.slotSize := by
    rw [(soundIdentity_withEncoding hshift).refSize, encoding_withEncoding]
    rfl
  constructor
  case openReferences =>
    rw [hsections.openReferences, hfields.openSize]
    exact hor.trans (congrArg (s.openTop / ·) hrefSize.symm)
  case openNatives =>
    rw [hsections.openNatives, hfields.openSize]
    exact hon
  case closedReferences =>
    rw [hsections.closedReferences, hclosedSize]
    exact hcr.trans (congrArg ((s.closedTop - s.closedBottom) / ·) hrefSize.symm)
  case closedNatives =>
    rw [hsections.closedNatives, hclosedSize]
    exact hcn

/-- Sections that stand back to back in a file of a machine's size are sound. -/
theorem Sections.soundSections {a : Archive} (h : a.Sections) (hsize : a.fileSize < 2 ^ 64) :
    a.header.SoundSections where
  dvd_image := ⟨1, by rw [h.imageOffset, Nat.mul_one]⟩
  image_le := Nat.le_of_eq (by rw [h.imageOffset, h.imageLength, h.typesOffset])
  types_le := by
    rw [h.typesOffset, h.typesLength, h.bitmapsOffset]
    exact le_alignUp _ _
  bitmaps_le := Nat.le_of_eq (by rw [h.checksumOffset])
  checksum_lt := by
    rw [h.fileSize_eq] at hsize
    exact hsize

/-- **The header of a dump** passes its check. -/
theorem check_assemble (hs : s.Standing q g roots os cs ref) (hwords : s.options.InWords)
    (hcheck : s.options.check = .ok ()) (hmaps : s.maps = .ok (opened, closed))
    (hsize : (assemble (headerOf s q) s.output s.registry opened closed).fileSize < 2 ^ 64) :
    (assemble (headerOf s q) s.output s.registry opened closed).header.check = .ok () := by
  obtain ⟨-, -, -, -, -, hshift⟩ := DumpOptions.of_check hcheck
  have hidentity := soundIdentity_withEncoding hshift
  have hsections := sections_assemble hs hwords hmaps hsize
  exact ArchiveHeader.check_eq_ok.mpr
    ⟨⟨hidentity.magic, hidentity.version, hidentity.endianness, hidentity.refSize,
      hidentity.narrowShift⟩, soundRegions_assemble hs hwords hcheck,
      soundBits_assemble hs hwords hcheck hmaps hsections, hsections.soundSections hsize⟩

end

/-- The header of a dump says where its sections are, and passes its check. -/
theorem header_of_dump {r : TypeRegistry} {g : ObjectGraph} {selection : Selection}
    {o : DumpOptions} {a : Archive} (hwords : o.InWords) (h : dump r g selection o = .ok a)
    (hsize : a.fileSize < 2 ^ 64) : a.Sections ∧ a.header.check = .ok () := by
  obtain ⟨s, q, opened, closed, os, cs, rfl, rfl, hcheck, hmaps, rfl, hs⟩ :=
    complete_of_dump hwords h
  exact ⟨sections_assemble hs.standing hwords hmaps hsize,
    check_assemble hs.standing hwords hcheck hmaps hsize⟩

/-- A dump has the types that it was asked for, and its image is not that of a mapped file. -/
theorem parts_of_dump {r : TypeRegistry} {g : ObjectGraph} {selection : Selection}
    {o : DumpOptions} {a : Archive} (hwords : o.InWords) (h : dump r g selection o = .ok a) :
    a.types = r ∧ a.isMapped = false := by
  obtain ⟨s, q, opened, closed, os, cs, rfl, rfl, -, -, rfl, -⟩ := complete_of_dump hwords h
  exact ⟨rfl, rfl⟩

/-- **Every dump** is sound, whether its type table can be read back or not. -/
theorem sound_of_dump {r : TypeRegistry} {g : ObjectGraph} {selection : Selection}
    {o : DumpOptions} {a : Archive} (hwords : o.InWords) (h : dump r g selection o = .ok a)
    (hsize : a.fileSize < 2 ^ 64) : a.Sound := by
  obtain ⟨hsections, hheader⟩ := header_of_dump hwords h hsize
  exact sound_of_sizes hheader hsections.imageLength.symm hsections.openReferences.symm
    hsections.openNatives.symm hsections.closedReferences.symm hsections.closedNatives.symm

/-! ## The size of a file -/

/-- The maps take up whole words. -/
theorem size_bitmapBytes (opened closed : RegionMaps) : (bitmapBytes opened closed).size =
    wordSize * wordCount opened.references.size + wordSize * wordCount opened.natives.size +
      wordSize * wordCount closed.references.size + wordSize * wordCount closed.natives.size := by
  simp only [bitmapBytes, ByteArray.size_append, BitMap.size_bytes]

/-- The file of a dump is not much larger than its image and its type table. -/
theorem fileSize_le_of_dump {r : TypeRegistry} {g : ObjectGraph} {selection : Selection}
    {o : DumpOptions} {a : Archive} (hwords : o.InWords) (h : dump r g selection o = .ok a) :
    a.fileSize ≤ 2 * o.heapEnd + (TypeTable.encode r).length + 2 * ArchiveHeader.pageSize := by
  obtain ⟨s, q, opened, closed, os, cs, rfl, rfl, -, hmaps, rfl, hs⟩ := complete_of_dump hwords h
  have hstanding := hs.standing
  obtain ⟨hor, hon, hcr, hcn⟩ := sizes_of_maps hstanding hmaps
  have hbase := hstanding.base_add_le
  have hopen := hstanding.openTop_le
  have hclosed := hstanding.closedRow.le
  have htop := hstanding.closedTop_le
  -- A map takes up a bit for a unit of its region, in whole words.
  have hbits : ∀ v w, wordSize * wordCount (v / w) ≤ v / 8 + 8 := by
    intro v w
    have hle := Nat.div_le_self v w
    rw [wordSize, wordCount]
    omega
  have hround := alignUp_two_pow_lt
    (ArchiveHeader.pageSize + s.output.size + (TypeTable.encode s.registry).length) 3
  have hoR := hbits s.openTop s.slotSize
  have hoN := hbits s.openTop wordSize
  have hcR := hbits (s.closedTop - s.closedBottom) s.slotSize
  have hcN := hbits (s.closedTop - s.closedBottom) wordSize
  rw [fileSize]
  change alignUp (ArchiveHeader.pageSize + s.output.size + (TypeTable.encode s.registry).length)
    (2 ^ 3) + (bitmapBytes opened closed).size + Digest.size ≤ _
  rw [size_bitmapBytes, hor, hon, hcr, hcn]
  rw [hstanding.size_output] at hround ⊢
  simp only [ArchiveHeader.pageSize, Digest.size] at hround ⊢
  omega

/-! ## Reading the file of a dump -/

/-- The file of a dump can be read, with or without a look at the checksum. -/
theorem sections_of_dump {r : TypeRegistry} {g : ObjectGraph} {selection : Selection}
    {o : DumpOptions} {a : Archive} (hwords : o.InWords) (hfits : r.FitsTable)
    (h : dump r g selection o = .ok a) (hsize : a.fileSize < 2 ^ 64) :
    a.Sections ∧ a.header.check = .ok () ∧ ∀ checksum, ofBytes a.toBytes checksum = .ok a := by
  obtain ⟨hsections, hheader⟩ := header_of_dump hwords h hsize
  obtain ⟨rfl, hmapped⟩ := parts_of_dump hwords h
  exact ⟨hsections, hheader, ofBytes_of_sections hsections hheader hfits hmapped⟩

/-- **The file of a dump** has a sound header, has the size that the header says, and reads back as
the archive that was dumped. -/
theorem ofBytes_toBytes_of_dump {r : TypeRegistry} {g : ObjectGraph} {selection : Selection}
    {o : DumpOptions} {a : Archive} (hwords : o.InWords) (hfits : r.FitsTable)
    (h : dump r g selection o = .ok a) (hsize : a.fileSize < 2 ^ 64) :
    a.header.check = .ok () ∧ a.toBytes.size = a.header.checksumOffset.toNat + Digest.size ∧
      ofBytes a.toBytes true = .ok a := by
  obtain ⟨hsections, hheader, hread⟩ := sections_of_dump hwords hfits h hsize
  exact ⟨hheader, hsections.size_toBytes, hread true⟩

end Archive

/-- The types of pairs fit a type table. -/
theorem TypeRegistry.fitsTable_pairs : TypeRegistry.pairs.FitsTable where
  size := by decide
  name := by decide
  kind t ht := by
    rcases List.mem_cons.mp ht with rfl | ht
    · trivial
    · rw [List.mem_singleton.mp ht]
      change 2 < 2 ^ 32
      decide

namespace Archive

/-- The cycle of two pairs can be dumped, to a file of a machine's size. -/
theorem exists_dump_cycle_fileSize_lt :
    ∃ a, dump .pairs .cycle .cycle .small = .ok a ∧ a.fileSize < 2 ^ 64 := by
  have hok : (match dump .pairs .cycle .cycle .small with
      | .ok a => decide (a.fileSize < 2 ^ 64)
      | .error _ => false) = true := by decide +kernel
  cases h : dump .pairs .cycle .cycle .small with
  | ok a =>
    rw [h] at hok
    exact ⟨a, rfl, of_decide_eq_true hok⟩
  | error e =>
    rw [h] at hok
    cases hok

/-- The file of the cycle reads back. -/
theorem ofBytes_toBytes_of_dump_cycle : ∃ a, DumpOptions.small.InWords ∧
    TypeRegistry.pairs.FitsTable ∧ dump .pairs .cycle .cycle .small = .ok a ∧
      a.fileSize < 2 ^ 64 ∧ ofBytes a.toBytes true = .ok a := by
  obtain ⟨a, ha, hsize⟩ := exists_dump_cycle_fileSize_lt
  obtain ⟨-, -, hread⟩ := ofBytes_toBytes_of_dump DumpOptions.inWords_small
    TypeRegistry.fitsTable_pairs ha hsize
  exact ⟨a, DumpOptions.inWords_small, TypeRegistry.fitsTable_pairs, ha, hsize, hread⟩

end Archive

end HeapImage
