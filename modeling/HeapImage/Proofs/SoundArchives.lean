import HeapImage.Archive.File
import HeapImage.Proofs.HeaderCheck

/-! # Archives that have been read

Reading a file checks its header, and takes the image and the maps in the sizes that the header
says. Whatever the image holds, every marked slot then lies in its region, and the regions lie apart
in the image.

* `Archive.ofBytes_eq_ok`: what it takes to read a file.
* `Archive.Sound`, `Archive.sound_of_ofBytes`: what is known of every archive that has been read.
* `Archive.slotOffset`, `Archive.slotValue`, `Archive.Refers`: the slots that the maps mark.
* `Archive.Sound.slot_bounds`, `Archive.Sound.native_bounds`: where marked slots are. -/

namespace HeapImage

/-- A map that is read has the size that was asked for. -/
theorem BitMap.size_of_ofBytes? {bytes : ByteArray} {size : Nat} {m : BitMap}
    (h : ofBytes? bytes size = some m) : m.size = size := by
  rw [ofBytes?, ofWords?] at h
  split at h
  · split at h
    · cases h
      rfl
    · cases h
  · cases h

namespace Archive

/-! ## Reading -/

/-- Reading goes on behind a map of the size that was asked for. -/
theorem of_readMap_bind {α : Type} {bits : UInt64} {b rest : ByteArray} {x : α}
    {k : BitMap → StateT ByteArray (Except FormatError) α}
    (h : (readMap bits >>= k).run b = .ok (x, rest)) :
    ∃ (m : BitMap) (b' : ByteArray), m.size = bits.toNat ∧ (k m).run b' = .ok (x, rest) := by
  rw [StateT.run_bind, Except.bind_eq_ok] at h
  obtain ⟨⟨m, b'⟩, hread, h⟩ := h
  refine ⟨m, b', ?_, h⟩
  rw [StateT.run, readMap] at hread
  split at hread
  · cases hread
  · split at hread
    · cases hread
    · rename_i hbytes
      cases hread
      exact BitMap.size_of_ofBytes? hbytes

/-- The maps that are read have the sizes that the header says. -/
theorem sizes_of_readMaps {h : ArchiveHeader} {b rest : ByteArray} {opened closed : RegionMaps}
    (hread : (readMaps h).run b = .ok ((opened, closed), rest)) :
    opened.references.size = h.openReferenceBits.toNat ∧
      opened.natives.size = h.openNativeBits.toNat ∧
      closed.references.size = h.closedReferenceBits.toNat ∧
      closed.natives.size = h.closedNativeBits.toNat := by
  rw [readMaps] at hread
  obtain ⟨openReferences, b, hor, hread⟩ := of_readMap_bind hread
  obtain ⟨openNatives, b, hon, hread⟩ := of_readMap_bind hread
  obtain ⟨closedReferences, b, hcr, hread⟩ := of_readMap_bind hread
  obtain ⟨closedNatives, b, hcn, hread⟩ := of_readMap_bind hread
  cases hread
  exact ⟨hor, hon, hcr, hcn⟩

/-- The header of an archive passes its check, and the image and the maps are as large as the header
calls for. -/
structure Sound (a : Archive) : Prop where
  check : a.header.check = .ok ()
  size_image : a.image.size = a.header.imageLength.toNat
  size_references : ∀ region,
    (a.maps region).references.size = (a.header.range region).length / a.slotSize
  size_natives : ∀ region,
    (a.maps region).natives.size = (a.header.range region).length / wordSize

/-- **A file is read as an archive** exactly if all of its sections are, at the places that its
header gives. -/
theorem ofBytes_eq_ok {b : ByteArray} {verify : Bool} {a : Archive} :
    ofBytes b verify = .ok a ↔ ∃ stored bitmaps rest,
      readHeader b = .ok a.header ∧ storedDigest b a.header = .ok stored ∧
      (verify = true → checkDigest b a.header stored = .ok ()) ∧
      readTypes b a.header = .ok a.types ∧
      sectionAt b .bitmaps a.header.bitmapsOffset.toNat
        (a.header.checksumOffset.toNat - a.header.bitmapsOffset.toNat) = .ok bitmaps ∧
      (readMaps a.header).run bitmaps = .ok ((a.opened, a.closed), rest) ∧
      sectionAt b .image a.header.imageOffset.toNat a.header.imageLength.toNat = .ok a.image ∧
      a.isMapped = false := by
  -- The digest is compared in the middle of it all, and only on demand.
  have hverify : ∀ {h : ArchiveHeader} {stored : ByteArray} {k : Unit → Except FormatError Archive},
      (if verify = true then checkDigest b h stored >>= k else k ⟨⟩) = .ok a ↔
        (verify = true → checkDigest b h stored = .ok ()) ∧ k ⟨⟩ = .ok a := by
    intro h stored k
    cases verify with
    | false => exact ⟨fun hk => ⟨nofun, hk⟩, fun hk => hk.2⟩
    | true =>
      rw [if_pos rfl, Except.bind_eq_ok]
      exact ⟨fun ⟨⟨⟩, hdigest, hk⟩ => ⟨fun _ => hdigest, hk⟩, fun ⟨hdigest, hk⟩ =>
        ⟨⟨⟩, hdigest rfl, hk⟩⟩
  constructor
  · intro h
    rw [ofBytes, Except.bind_eq_ok] at h
    obtain ⟨header, hheader, h⟩ := h
    obtain ⟨stored, hstored, h⟩ := Except.bind_eq_ok.mp h
    obtain ⟨hdigest, h⟩ := hverify.mp h
    obtain ⟨types, htypes, h⟩ := Except.bind_eq_ok.mp h
    obtain ⟨bitmaps, hbitmaps, h⟩ := Except.bind_eq_ok.mp h
    obtain ⟨⟨⟨opened, closed⟩, rest⟩, hmaps, h⟩ := Except.bind_eq_ok.mp h
    obtain ⟨image, himage, h⟩ := Except.bind_eq_ok.mp h
    obtain rfl := Except.pure_eq_ok.mp h
    exact ⟨stored, bitmaps, rest, hheader, hstored, hdigest, htypes, hbitmaps, hmaps, himage, rfl⟩
  · rintro ⟨stored, bitmaps, rest, hheader, hstored, hdigest, htypes, hbitmaps, hmaps, himage,
      hmapped⟩
    rw [ofBytes, Except.bind_eq_ok]
    refine ⟨_, hheader, Except.bind_eq_ok.mpr ⟨_, hstored, hverify.mpr ⟨hdigest, ?_⟩⟩⟩
    refine Except.bind_eq_ok.mpr ⟨_, htypes, Except.bind_eq_ok.mpr ⟨_, hbitmaps, ?_⟩⟩
    refine Except.bind_eq_ok.mpr ⟨_, hmaps, Except.bind_eq_ok.mpr ⟨_, himage, ?_⟩⟩
    rw [Except.pure_eq_ok]
    obtain ⟨header, image, types, opened, closed, isMapped⟩ := a
    cases hmapped
    rfl

/-- A section that was read lies in the file. -/
theorem size_of_sectionAt {b bytes : ByteArray} {part : Section} {offset length : Nat}
    (h : sectionAt b part offset length = .ok bytes) :
    offset + length ≤ b.size ∧ bytes = b.extract offset (offset + length) ∧
      bytes.size = length := by
  rw [sectionAt, Bytes.slice?] at h
  split at h
  · rename_i slice hslice
    obtain rfl := Except.ok.inj h
    split at hslice
    · rename_i hfits
      obtain rfl := Option.some.inj hslice
      refine ⟨hfits, rfl, ?_⟩
      rw [ByteArray.size_extract, Nat.min_eq_left hfits, Nat.add_sub_cancel_left]
    · cases hslice
  · cases h

/-- A header that was read takes up a page and passes its check. -/
theorem readHeader_eq_ok {b : ByteArray} {h : ArchiveHeader} :
    readHeader b = .ok h ↔
      ArchiveHeader.pageSize ≤ b.size ∧ storedHeader? b = some h ∧ h.check = .ok () := by
  rw [readHeader]
  split
  · rename_i hlt
    exact ⟨nofun, fun ⟨hle, _⟩ => absurd hle (Nat.not_le.mpr hlt)⟩
  · rename_i hle
    split
    · rename_i hnone
      exact ⟨nofun, fun ⟨_, hsome, _⟩ => by rw [hnone] at hsome; cases hsome⟩
    · rename_i h' hsome
      rw [Except.bind_eq_ok, hsome]
      constructor
      · rintro ⟨⟨⟩, hcheck, hok⟩
        obtain rfl := Except.ok.inj hok
        exact ⟨Nat.not_lt.mp hle, rfl, hcheck⟩
      · rintro ⟨-, heq, hcheck⟩
        obtain rfl := Option.some.inj heq
        exact ⟨⟨⟩, hcheck, rfl⟩

/-- An archive is sound if its header is, and if its sections have the sizes that the header gives.
-/
theorem sound_of_sizes {a : Archive} (hcheck : a.header.check = .ok ())
    (himage : a.image.size = a.header.imageLength.toNat)
    (hor : a.opened.references.size = a.header.openReferenceBits.toNat)
    (hon : a.opened.natives.size = a.header.openNativeBits.toNat)
    (hcr : a.closed.references.size = a.header.closedReferenceBits.toNat)
    (hcn : a.closed.natives.size = a.header.closedNativeBits.toNat) : a.Sound := by
  obtain ⟨hidentity, -, hbits, -⟩ := ArchiveHeader.check_eq_ok.mp hcheck
  have hopen : (a.header.range .opened).length = a.header.openSize.toNat :=
    Nat.add_sub_cancel_left ..
  have hclosed : (a.header.range .closed).length = a.header.closedSize.toNat :=
    Nat.add_sub_cancel_left ..
  refine ⟨hcheck, himage, ?_, ?_⟩
  · intro region
    rw [slotSize, encoding, ← hidentity.refSize]
    cases region with
    | opened => exact hopen ▸ hor.trans hbits.openReferences
    | closed => exact hclosed ▸ hcr.trans hbits.closedReferences
  · intro region
    cases region with
    | opened => exact hopen ▸ hon.trans hbits.openNatives
    | closed => exact hclosed ▸ hcn.trans hbits.closedNatives

/-- **An archive that was read** from a file is sound, whatever else the file holds. -/
theorem sound_of_ofBytes {bytes : ByteArray} {checksum : Bool} {a : Archive}
    (h : ofBytes bytes checksum = .ok a) : a.Sound := by
  obtain ⟨_, _, _, hheader, -, -, -, -, hmaps, himage, -⟩ := ofBytes_eq_ok.mp h
  obtain ⟨-, -, hcheck⟩ := readHeader_eq_ok.mp hheader
  obtain ⟨hor, hon, hcr, hcn⟩ := sizes_of_readMaps hmaps
  exact sound_of_sizes hcheck (size_of_sectionAt himage).2.2 hor hon hcr hcn

/-! ## Marked slots -/

/-- The image offset of the slot that a bit of a region's reference map stands for. -/
def slotOffset (a : Archive) (region : Region) (bit : Nat) : Nat :=
  (a.header.range region).bottom + bit * a.slotSize

/-- The value in the slot that a bit of a region's reference map stands for. -/
def slotValue (a : Archive) (region : Region) (bit : Nat) : Nat :=
  Bytes.valueAt a.image (a.slotOffset region bit) a.slotSize

/-- The slot that a bit of a region's reference map stands for is marked and holds a reference. -/
def Refers (a : Archive) (region : Region) (bit : Nat) : Prop :=
  (a.maps region).references.contains bit = true ∧ a.slotValue region bit ≠ 0

instance (a : Archive) (region : Region) (bit : Nat) : Decidable (a.Refers region bit) :=
  inferInstanceAs (Decidable (_ ∧ _))

/-- A bit below the number of whole units in a range stands for a unit inside the range. -/
theorem unit_le_of_lt {bottom top unit bit : Nat} (h : bit < (top - bottom) / unit) :
    bottom + bit * unit + unit ≤ top := by
  have hle : (bit + 1) * unit ≤ top - bottom :=
    Nat.le_trans (Nat.mul_le_mul_right unit h) (Nat.div_mul_le_self ..)
  have hpos : 0 < unit := by
    refine Nat.pos_of_ne_zero fun hzero => ?_
    rw [hzero, Nat.div_zero] at h
    exact Nat.not_lt_zero _ h
  rw [Nat.succ_mul] at hle
  omega

namespace Sound

variable {a : Archive}

/-- The regions of a sound archive are sound. -/
theorem regions (h : a.Sound) : a.header.SoundRegions := (ArchiveHeader.check_eq_ok.mp h.check).2.1

/-- A marked reference slot lies in its region. -/
theorem slot_bounds (h : a.Sound) {region : Region} {bit : Nat}
    (hbit : (a.maps region).references.contains bit = true) :
    (a.header.range region).bottom + bit * a.slotSize + a.slotSize ≤
      (a.header.range region).top :=
  unit_le_of_lt (h.size_references region ▸ BitMap.lt_size_of_contains hbit)

/-- A marked native pointer lies in its region. -/
theorem native_bounds (h : a.Sound) {region : Region} {bit : Nat}
    (hbit : (a.maps region).natives.contains bit = true) :
    (a.header.range region).bottom + bit * wordSize + wordSize ≤ (a.header.range region).top :=
  unit_le_of_lt (h.size_natives region ▸ BitMap.lt_size_of_contains hbit)

/-- The open region ends before the closed one starts, which ends in the image. -/
theorem range_bounds (h : a.Sound) :
    (a.header.range .opened).top ≤ (a.header.range .closed).bottom ∧
      (a.header.range .closed).bottom ≤ (a.header.range .closed).top ∧
      (a.header.range .closed).top ≤ a.image.size := by
  have hopen := h.regions.openSize_le
  have hclosed := h.regions.closedStop_le
  have hoffset := h.regions.openOffset
  have hsize := h.size_image
  dsimp only [ArchiveHeader.range]
  rw [hoffset]
  refine ⟨?_, Nat.le_add_right .., by omega⟩
  rw [UInt64.toNat_zero, Nat.zero_add]
  exact hopen

/-- Both regions lie in the image. -/
theorem bounds (h : a.Sound) (region : Region) :
    (a.header.range region).bottom ≤ (a.header.range region).top ∧
      (a.header.range region).top ≤ a.image.size := by
  obtain ⟨hopen, hclosed, hstop⟩ := h.range_bounds
  cases region with
  | opened => exact ⟨Nat.le_add_right .., by omega⟩
  | closed => exact ⟨hclosed, hstop⟩

end Sound

end Archive

end HeapImage
