import HeapImage.Proofs.CanonicalTables
import HeapImage.Proofs.FileRoundTrip

/-! # Archives that are written again

An archive that was read from a file need not come from the writer: its sections may stand apart
from each other. Written again, it reads back exactly if there is no gap behind the image, none
behind the maps, and enough of it to fill the header page.

* `Archive.Compact`: the sections stand where the writer puts them.
* `Archive.inPlace_of_ofBytes`: what is known of the header of an archive that was read.
* `Archive.ofBytes_toBytes_iff`: which archives read back after they have been written again. -/

namespace HeapImage.Archive

/-- The type table follows the image and the checksum follows the maps, both without a gap, and the
file fills a page. -/
structure Compact (a : Archive) : Prop where
  typesOffset : a.header.typesOffset.toNat =
    a.header.imageOffset.toNat + a.header.imageLength.toNat
  checksumOffset : a.header.checksumOffset.toNat =
    a.header.bitmapsOffset.toNat + (bitmapBytes a.opened a.closed).size
  pageSize_le : ArchiveHeader.pageSize ≤ a.header.checksumOffset.toNat + Digest.size

/-! ## What was read -/

/-- Reading goes on behind a map, which has all the bytes in front. -/
theorem size_of_readMap_bind {α : Type} {bits : UInt64} {b rest : ByteArray} {x : α}
    {k : BitMap → StateT ByteArray (Except FormatError) α}
    (h : (readMap bits >>= k).run b = .ok (x, rest)) :
    ∃ (m : BitMap) (b' : ByteArray), m.bytes.size + b'.size = b.size ∧
      (k m).run b' = .ok (x, rest) := by
  rw [StateT.run_bind, Except.bind_eq_ok] at h
  obtain ⟨⟨m, b'⟩, hread, h⟩ := h
  refine ⟨m, b', ?_, h⟩
  rw [StateT.run, readMap] at hread
  split at hread
  · cases hread
  · rename_i bytes hslice
    split at hread
    · cases hread
    · rename_i m' hbytes
      obtain ⟨rfl, rfl⟩ := Prod.mk.inj (Except.ok.inj hread)
      rw [Bytes.slice?, Nat.zero_add] at hslice
      split at hslice
      · rename_i hle
        rw [m'.size_bytes, BitMap.size_of_ofBytes? hbytes, ByteArray.size_extract, Nat.min_self]
        omega
      · cases hslice

/-- The maps that were read do not take up more bytes than there were. -/
theorem size_bitmapBytes_le {h : ArchiveHeader} {b rest : ByteArray} {opened closed : RegionMaps}
    (hread : (readMaps h).run b = .ok ((opened, closed), rest)) :
    (bitmapBytes opened closed).size ≤ b.size := by
  rw [readMaps] at hread
  obtain ⟨openReferences, b₁, hor, hread⟩ := size_of_readMap_bind hread
  obtain ⟨openNatives, b₂, hon, hread⟩ := size_of_readMap_bind hread
  obtain ⟨closedReferences, b₃, hcr, hread⟩ := size_of_readMap_bind hread
  obtain ⟨closedNatives, b₄, hcn, hread⟩ := size_of_readMap_bind hread
  cases hread
  rw [bitmapBytes, ByteArray.size_append, ByteArray.size_append, ByteArray.size_append]
  dsimp only
  omega

/-- Types that were read are those stored at their place in the file. -/
theorem of_readTypes {b : ByteArray} {h : ArchiveHeader} {r : TypeRegistry}
    (hread : readTypes b h = .ok r) : r.FitsTable ∧
      (TypeTable.encode r).length ≤ h.typesLength.toNat ∧
      ∀ i < (TypeTable.encode r).length,
        Bytes.get b (h.typesOffset.toNat + i) = (TypeTable.encode r).getD i 0 := by
  rw [readTypes, Except.bind_eq_ok] at hread
  obtain ⟨table, hsection, hread⟩ := hread
  obtain ⟨-, hextract, hsize⟩ := size_of_sectionAt hsection
  split at hread
  · rename_i types rest hdecode
    obtain rfl := Except.ok.inj hread
    obtain ⟨hlist, hfits⟩ := TypeTable.eq_encode_append hdecode
    have hlength := congrArg List.length hlist
    rw [List.length_append, Bytes.toList, Array.length_toList] at hlength
    change table.size = _ at hlength
    refine ⟨hfits, by omega, ?_⟩
    intro i hi
    have hget : Bytes.get table i = (TypeTable.encode types).getD i 0 := by
      rw [← show Bytes.ofList (Bytes.toList table) = table from rfl, Bytes.get_ofList, hlist,
        List.getD_eq_getElem?_getD, List.getElem?_append_left hi, List.getD_eq_getElem?_getD]
    rw [← hget, hextract, Bytes.get_extract, if_pos (by omega)]
  · cases hread

section

variable {b : ByteArray} {checksum : Bool} {a : Archive} (h : ofBytes b checksum = .ok a)

include h

/-- An image that stands at the start of the file starts with the header. -/
theorem stored_of_early (hoffset : a.header.imageOffset = 0)
    (hlength : ArchiveHeader.size ≤ a.header.imageLength.toNat) :
    ArchiveHeader.size ≤ (a.lead ++ a.image).size ∧
      ArchiveHeader.decode? (Bytes.toList ((a.lead ++ a.image).extract 0 ArchiveHeader.size)) =
        some a.header := by
  obtain ⟨_, _, _, hheader, -, -, -, -, -, himage, -⟩ := ofBytes_eq_ok.mp h
  obtain ⟨-, hstored, -⟩ := readHeader_eq_ok.mp hheader
  obtain ⟨-, hextract, hsize⟩ := size_of_sectionAt himage
  have hlead : a.lead = ByteArray.empty := by
    have hzero := a.size_lead
    rw [hoffset] at hzero
    exact ByteArray.size_eq_zero_iff.mp hzero
  rw [hlead, ByteArray.empty_append]
  refine ⟨by omega, ?_⟩
  have hstart : a.image.extract 0 ArchiveHeader.size = b.extract 0 ArchiveHeader.size := by
    rw [hextract, hoffset, ByteArray.extract_extract, UInt64.toNat_zero]
    congr 1
    omega
  rw [hstart]
  exact hstored

/-- **A compact archive that was read** says where the writer puts its sections, if its header is
not written over. -/
theorem inPlace_of_ofBytes
    (hheader : a.header.imageOffset ≠ 0 ∨ ArchiveHeader.size ≤ a.header.imageLength.toNat)
    (hcompact : a.Compact) : a.InPlace := by
  have hsound := sound_of_ofBytes h
  obtain ⟨-, -, -, hsections⟩ := ArchiveHeader.check_eq_ok.mp hsound.check
  obtain ⟨_, _, _, -, -, -, htypes, -, hmaps, -, -⟩ := ofBytes_eq_ok.mp h
  obtain ⟨-, hlength, -⟩ := of_readTypes htypes
  obtain ⟨hor, hon, hcr, hcn⟩ := sizes_of_readMaps hmaps
  constructor
  case stored =>
    by_cases hoffset : a.header.imageOffset = 0
    · rcases hheader with hne | hsize
      · exact absurd hoffset hne
      · exact stored_of_early h hoffset hsize
    · -- Images that do not stand at the start leave a page.
      apply stored_of_size_le
      have hpos : a.header.imageOffset.toNat ≠ 0 := fun hzero =>
        hoffset (UInt64.toNat_inj.mp hzero)
      have hle := Nat.le_of_dvd (Nat.pos_of_ne_zero hpos) hsections.dvd_image
      have : ArchiveHeader.size ≤ ArchiveHeader.pageSize := by decide
      omega
  case imageLength => exact hsound.size_image.symm
  case typesOffset => rw [hcompact.typesOffset, hsound.size_image]
  case typesLength => exact hlength
  case typesEnd => exact hsections.types_le
  case checksumOffset => exact hcompact.checksumOffset
  case pageSize_le => exact hcompact.pageSize_le
  case openReferences => exact hor.symm
  case openNatives => exact hon.symm
  case closedReferences => exact hcr.symm
  case closedNatives => exact hcn.symm

/-- **An archive that reads back** after it was written again is compact: its type table is found
where the header says and, since no table repeats itself, nowhere else, and its checksum is found
behind the maps. -/
theorem compact_of_ofBytes_toBytes {checksum' : Bool}
    (hagain : ofBytes a.toBytes checksum' = .ok a) :
    a.Compact := by
  have hsound := sound_of_ofBytes h
  obtain ⟨-, -, -, hsections⟩ := ArchiveHeader.check_eq_ok.mp hsound.check
  obtain ⟨_, _, _, -, -, -, -, hbitmaps, hmaps, -, -⟩ := ofBytes_eq_ok.mp h
  obtain ⟨_, _, _, hheader, hdigest, -, htypes, -, -, -, -⟩ := ofBytes_eq_ok.mp hagain
  -- The section of the maps is not too small for them, since they have been read from it, and not
  -- too large, since the file that was written has room for the checksum behind it.
  have hchecksum : a.header.checksumOffset.toNat =
      a.header.bitmapsOffset.toNat + (bitmapBytes a.opened a.closed).size := by
    have hle := size_bitmapBytes_le hmaps
    rw [(size_of_sectionAt hbitmaps).2.2] at hle
    have hfits := (size_of_sectionAt hdigest).1
    rw [size_toBytes] at hfits
    have := hsections.bitmaps_le
    omega
  refine ⟨?_, hchecksum, ?_⟩
  · have htypesOffset := hsections.image_le
    have htypesEnd := hsections.types_le
    obtain ⟨-, hlength, hget⟩ := of_readTypes htypes
    -- If there were a gap in front of the table, then the table would begin as it goes on behind
    -- the gap.
    have hgap := TypeTable.eq_zero_of_repeated
      (k := a.header.typesOffset.toNat -
        (a.header.imageOffset.toNat + a.header.imageLength.toNat))
      (TypeTable.exists_ne_zero a.types) fun i hi => by
        rw [← hget i hi, ← get_toBytes_table (by rw [hsound.size_image]; omega)]
        congr 1
        rw [hsound.size_image]
        omega
    omega
  · have hpage := (readHeader_eq_ok.mp hheader).1
    rwa [size_toBytes, ← hchecksum] at hpage

/-- **Which archives read back** after they have been read and written again: of those whose header
is not written over by a short image at the start of the file, exactly the compact ones. -/
theorem ofBytes_toBytes_iff
    (hheader : a.header.imageOffset ≠ 0 ∨ ArchiveHeader.size ≤ a.header.imageLength.toNat) :
    ofBytes a.toBytes true = .ok a ↔ a.Compact := by
  constructor
  · exact compact_of_ofBytes_toBytes h
  · intro hcompact
    obtain ⟨_, _, _, -, -, -, htypes, -, -, -, hmapped⟩ := ofBytes_eq_ok.mp h
    exact ofBytes_of_inPlace (inPlace_of_ofBytes h hheader hcompact) (sound_of_ofBytes h).check
      (of_readTypes htypes).1 hmapped true

end

/-- The file of the cycle is compact, as it reads back. -/
theorem ofBytes_toBytes_iff_cycle : ∃ a, dump .pairs .cycle .cycle .small = .ok a ∧
    ofBytes a.toBytes true = .ok a ∧ a.header.imageOffset ≠ 0 ∧ a.Compact := by
  obtain ⟨a, hdump, hsize⟩ := exists_dump_cycle_fileSize_lt
  obtain ⟨hsections, -, hread⟩ := sections_of_dump DumpOptions.inWords_small
    TypeRegistry.fitsTable_pairs hdump hsize
  have hoffset : a.header.imageOffset ≠ 0 := by
    intro hzero
    have hpage := hsections.imageOffset
    rw [hzero] at hpage
    exact absurd hpage (by decide)
  exact ⟨a, hdump, hread true, hoffset,
    (ofBytes_toBytes_iff (hread true) (.inl hoffset)).mp (hread true)⟩

end HeapImage.Archive
