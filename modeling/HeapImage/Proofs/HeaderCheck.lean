import HeapImage.Archive.Header
import HeapImage.Proofs.Rounding
import HeapImage.Proofs.Steps

/-! # What a checked header promises

Each part of the check of a header holds exactly if some numbers fit together. Whoever finds the
sections of a file or the regions of an image through a checked header relies on these facts, and
whoever writes a header has to provide them.

* `ArchiveHeader.SoundIdentity`, `SoundRegions`, `SoundBits`, `SoundSections`: the facts.
* `ArchiveHeader.check_eq_ok`: the check passes exactly if they hold.
* `ArchiveHeader.layout_of_check`: where the sections of the file and the regions of the image are.
  -/

namespace HeapImage.ArchiveHeader

variable {h : ArchiveHeader}

/-! ## Parts of the check -/

/-- A requirement passes exactly if it is met. -/
theorem require_eq_ok {ok : Bool} {fault : Corruption} {u : Unit} :
    require ok fault = .ok u ↔ ok = true := by
  rw [require]
  split
  · rename_i hok
    exact ⟨fun _ => hok, fun _ => rfl⟩
  · rename_i hok
    exact ⟨nofun, fun h => absurd h hok⟩

/-- A check behind a requirement passes exactly if both do. -/
theorem require_bind_eq_ok {α : Type} {ok : Bool} {fault : Corruption}
    {k : Unit → Except FormatError α} {x : α} :
    (require ok fault >>= k) = .ok x ↔ ok = true ∧ k ⟨⟩ = .ok x := by
  rw [Except.bind_eq_ok]
  constructor
  · rintro ⟨⟨⟩, hok, hk⟩
    exact ⟨require_eq_ok.mp hok, hk⟩
  · rintro ⟨hok, hk⟩
    exact ⟨⟨⟩, require_eq_ok.mpr hok, hk⟩

/-- A check behind the end of a section passes exactly if the end fits in a word and the check does.
-/
theorem endOf_bind_eq_ok {α : Type} {part : Section} {offset length : UInt64}
    {k : Nat → Except FormatError α} {x : α} : (endOf part offset length >>= k) = .ok x ↔
      offset.toNat + length.toNat < 2 ^ 64 ∧ k (offset.toNat + length.toNat) = .ok x := by
  rw [endOf]
  split
  · rename_i hlt
    exact ⟨fun h => ⟨hlt, h⟩, fun h => h.2⟩
  · rename_i hlt
    exact ⟨nofun, fun h => absurd h.1 hlt⟩

/-- The file is an archive of this format, with references of the size that its encoding calls for.
-/
structure SoundIdentity (h : ArchiveHeader) : Prop where
  magic : h.magic = expectedMagic
  version : h.version = expectedVersion
  endianness : h.endianness = endiannessMark
  refSize : h.refSize.toNat = h.encoding.slotSize
  narrowShift : h.isNarrow = true → h.narrowShift.toNat ≤ ReferenceEncoding.maxShift

/-- The first part of the check passes exactly if the identity is sound. -/
theorem checkIdentity_eq_ok : h.checkIdentity = .ok () ↔ h.SoundIdentity := by
  have hsize : (h.refSize = if h.isNarrow then 4 else 8) ↔
      h.refSize.toNat = h.encoding.slotSize := by
    rw [encoding, ← UInt32.toNat_inj]
    cases h.isNarrow <;> rfl
  simp only [checkIdentity, Except.guard_eq_ok, require_bind_eq_ok, require_eq_ok, beq_iff_eq,
    Bool.or_eq_true, Bool.not_eq_true', decide_eq_true_eq, Decidable.not_not, hsize, ne_eq,
    ← Bool.not_eq_true, ← Decidable.imp_iff_not_or]
  constructor
  · rintro ⟨hmagic, hversion, hendianness, hsize, hshift⟩
    exact ⟨hmagic, hversion, hendianness, hsize, hshift⟩
  · rintro ⟨hmagic, hversion, hendianness, hsize, hshift⟩
    exact ⟨hmagic, hversion, hendianness, hsize, hshift⟩

/-- The regions lie in the image, the open one first, and the root array starts in the open one. -/
structure SoundRegions (h : ArchiveHeader) : Prop where
  alignment : ∃ k, h.regionAlignment.toNat = 2 ^ k
  dvd_base : h.regionAlignment.toNat ∣ h.requestedBase.toNat
  base_ne_zero : h.requestedBase.toNat ≠ 0
  openOffset : h.openOffset = 0
  openSize_le : h.openSize.toNat ≤ h.closedOffset.toNat
  dvd_closedOffset : h.regionAlignment.toNat ∣ h.closedOffset.toNat
  dvd_imageLength : h.regionAlignment.toNat ∣ h.imageLength.toNat
  closedStop_le : h.closedOffset.toNat + h.closedSize.toNat ≤ h.imageLength.toNat
  dvd_root : wordSize ∣ h.rootOffset.toNat
  root_le : h.rootOffset.toNat + headerSize ≤ h.openSize.toNat

/-- The second part passes exactly if the regions are sound. -/
theorem checkRegions_eq_ok : h.checkRegions = .ok () ↔ h.SoundRegions := by
  have hwordSize : wordSize = 8 := rfl
  have hheaderSize : headerSize = 16 := rfl
  have hsixteen : (16 : UInt64).toNat = 16 := rfl
  have hlength := h.imageLength.toNat_lt
  have hopen := h.openSize.toNat_lt
  have halignment : (h.regionAlignment.toNat ≠ 0 ∧
      alignRest h.regionAlignment.toNat h.regionAlignment.toNat = 0) ↔
        ∃ k, h.regionAlignment.toNat = 2 ^ k := by
    rw [← isPowerOfTwo_iff, isPowerOfTwo, Bool.and_eq_true, bne_iff_ne, beq_iff_eq]
  have hbase : h.requestedBase ≠ 0 ↔ h.requestedBase.toNat ≠ 0 := by
    rw [ne_eq, ← UInt64.toNat_inj]
    rfl
  simp only [checkRegions, require_bind_eq_ok, require_eq_ok, endOf_bind_eq_ok, Bool.and_eq_true,
    beq_iff_eq, bne_iff_ne, decide_eq_true_eq, UInt64.le_iff_toNat_le, halignment, hbase, hsixteen,
    ← Nat.dvd_iff_mod_eq_zero]
  constructor
  · rintro ⟨hpow, ⟨hdvdBase, hne⟩, ⟨⟨⟨hoffset, hsize⟩, hdvdClosed⟩, hdvdLength⟩, -, hstop, hdvdRoot,
      -, hroot⟩
    exact ⟨hpow, hdvdBase, hne, hoffset, hsize, hdvdClosed, hdvdLength, hstop, hdvdRoot, hroot⟩
  · rintro ⟨hpow, hdvdBase, hne, hoffset, hsize, hdvdClosed, hdvdLength, hstop, hdvdRoot, hroot⟩
    exact ⟨hpow, ⟨hdvdBase, hne⟩, ⟨⟨⟨hoffset, hsize⟩, hdvdClosed⟩, hdvdLength⟩, by omega, hstop,
      hdvdRoot, by omega, hroot⟩

/-- The maps have a bit for every slot and every word of their regions. -/
structure SoundBits (h : ArchiveHeader) : Prop where
  openReferences : h.openReferenceBits.toNat = h.openSize.toNat / h.refSize.toNat
  openNatives : h.openNativeBits.toNat = h.openSize.toNat / wordSize
  closedReferences : h.closedReferenceBits.toNat = h.closedSize.toNat / h.refSize.toNat
  closedNatives : h.closedNativeBits.toNat = h.closedSize.toNat / wordSize

/-- The third part passes exactly if the bit counts are sound. -/
theorem checkBitCounts_eq_ok : h.checkBitCounts = .ok () ↔ h.SoundBits := by
  have hword : (8 : UInt64).toNat = wordSize := rfl
  simp only [checkBitCounts, require_eq_ok, Bool.and_eq_true, beq_iff_eq, ← UInt64.toNat_inj,
    UInt64.toNat_div, UInt32.toNat_toUInt64, hword]
  constructor
  · rintro ⟨⟨⟨hor, hon⟩, hcr⟩, hcn⟩
    exact ⟨hor, hon, hcr, hcn⟩
  · rintro ⟨hor, hon, hcr, hcn⟩
    exact ⟨⟨⟨hor, hon⟩, hcr⟩, hcn⟩

/-- The sections follow each other in the file. -/
structure SoundSections (h : ArchiveHeader) : Prop where
  dvd_image : pageSize ∣ h.imageOffset.toNat
  image_le : h.imageOffset.toNat + h.imageLength.toNat ≤ h.typesOffset.toNat
  types_le : h.typesOffset.toNat + h.typesLength.toNat ≤ h.bitmapsOffset.toNat
  bitmaps_le : h.bitmapsOffset.toNat + h.bitmapsLength.toNat ≤ h.checksumOffset.toNat
  checksum_lt : h.checksumOffset.toNat + 32 < 2 ^ 64

/-- The last part passes exactly if the sections are sound. -/
theorem checkSections_eq_ok : h.checkSections = .ok () ↔ h.SoundSections := by
  have hsize : (32 : UInt64).toNat = 32 := rfl
  have htypes := h.typesOffset.toNat_lt
  have hbitmaps := h.bitmapsOffset.toNat_lt
  have hchecksum := h.checksumOffset.toNat_lt
  have hdiscard : ∀ {r : Except FormatError Nat},
      (discard r : Except FormatError PUnit) = (r >>= fun _ => .ok ⟨⟩) := by
    intro r
    cases r <;> rfl
  simp only [checkSections, hdiscard, require_bind_eq_ok, endOf_bind_eq_ok, beq_iff_eq,
    decide_eq_true_eq, hsize, ← Nat.dvd_iff_mod_eq_zero, and_true]
  constructor
  · rintro ⟨hdvd, -, himage, -, htypes, -, hbitmaps, hlt⟩
    exact ⟨hdvd, himage, htypes, hbitmaps, hlt⟩
  · rintro ⟨hdvd, himage, htypes, hbitmaps, hlt⟩
    exact ⟨hdvd, by omega, himage, by omega, htypes, by omega, hbitmaps, hlt⟩

/-- **A header passes its check** exactly if it identifies the format and its numbers fit
together. -/
theorem check_eq_ok : h.check = .ok () ↔
    h.SoundIdentity ∧ h.SoundRegions ∧ h.SoundBits ∧ h.SoundSections := by
  simp only [check, Except.bind_eq_ok, ← checkIdentity_eq_ok, ← checkRegions_eq_ok,
    ← checkBitCounts_eq_ok, ← checkSections_eq_ok]
  exact ⟨fun ⟨_, hi, _, hr, _, hb, hs⟩ => ⟨hi, hr, hb, hs⟩,
    fun ⟨hi, hr, hb, hs⟩ => ⟨⟨⟩, hi, ⟨⟩, hr, ⟨⟩, hb, hs⟩⟩

/-! ## Places in the file -/

/-- The page that starts with the header. -/
def page : Extent := ⟨0, pageSize⟩

/-- The image in the file. -/
def image (h : ArchiveHeader) : Extent :=
  ⟨h.imageOffset.toNat, h.imageOffset.toNat + h.imageLength.toNat⟩

/-- The sections of the file behind the header page, in file order. -/
def sections (h : ArchiveHeader) : List Extent :=
  [h.image, ⟨h.typesOffset.toNat, h.typesOffset.toNat + h.typesLength.toNat⟩,
    ⟨h.bitmapsOffset.toNat, h.bitmapsOffset.toNat + h.bitmapsLength.toNat⟩,
    ⟨h.checksumOffset.toNat, h.checksumOffset.toNat + 32⟩]

/-- The sections of a file with a checked header follow each other. -/
theorem SoundSections.pairwise (hs : h.SoundSections) :
    h.sections.Pairwise fun s t => s.top ≤ t.bottom := by
  obtain ⟨-, himage, htypes, hbitmaps, -⟩ := hs
  simp [sections, image]
  omega

/-- An image that does not start the file leaves the header page to the header. -/
theorem SoundSections.pageSize_le (hs : h.SoundSections) (hoffset : h.imageOffset ≠ 0) :
    ∀ s ∈ h.sections, pageSize ≤ s.bottom := by
  have hpos : h.imageOffset.toNat ≠ 0 := fun hzero => hoffset (UInt64.toNat_inj.mp hzero)
  have hpage := Nat.le_of_dvd (Nat.pos_of_ne_zero hpos) hs.dvd_image
  obtain ⟨-, himage, htypes, hbitmaps, -⟩ := hs
  simp [sections, image]
  omega

/-- **A checked header** says where everything is: the sections of the file follow each other and
their ends are offsets; both regions lie in the image, the open one first, with the header of the
root array in the open one. The header page is in front of all sections if the image does not start
at offset zero. Nothing in the check rules that out, and then the image and the page meet. -/
theorem layout_of_check (hcheck : h.check = .ok ()) :
    h.sections.Pairwise (fun s t => s.top ≤ t.bottom) ∧
    (∀ s ∈ h.sections, s.bottom ≤ s.top ∧ s.top < 2 ^ 64) ∧
    (h.imageOffset ≠ 0 → (page :: h.sections).Pairwise fun s t => s.top ≤ t.bottom) ∧
    (h.imageOffset = 0 → ¬ page.Apart h.image) ∧
    ((h.range .opened).bottom ≤ (h.range .opened).top ∧
      (h.range .opened).top ≤ (h.range .closed).bottom ∧
      (h.range .closed).bottom ≤ (h.range .closed).top ∧
      (h.range .closed).top ≤ h.image.length) ∧
    (h.range .opened).bottom ≤ h.rootOffset.toNat ∧
      h.rootOffset.toNat + headerSize ≤ (h.range .opened).top := by
  obtain ⟨-, hregions, -, hsections⟩ := check_eq_ok.mp hcheck
  have hordered := hsections.pairwise
  have hends : ∀ s ∈ h.sections, s.bottom ≤ s.top ∧ s.top < 2 ^ 64 := by
    obtain ⟨-, himage, htypes, hbitmaps, hchecksum⟩ := hsections
    simp [sections, image]
    omega
  obtain ⟨-, -, -, hopen, hclosed, -, -, hstop, -, hroot⟩ := hregions
  have hzero : h.openOffset.toNat = 0 := by rw [hopen]; rfl
  refine ⟨hordered, hends, ?_, ?_, ?_, ?_⟩
  · intro hoffset
    exact List.pairwise_cons.mpr ⟨hsections.pageSize_le hoffset, hordered⟩
  · -- The image holds the header of the root array at least, so it has a first byte.
    intro hoffset hapart
    apply hapart 0
    have : headerSize = 16 := rfl
    simp [page, image, hoffset, pageSize]
    omega
  · simp only [range, image, Extent.length, hzero]
    omega
  · simp only [range, hzero]
    omega

/-- The header of a file whose image is an empty root array. -/
def rootAlone : ArchiveHeader :=
  { blank with
    regionAlignment := 8
    requestedBase := 8
    openSize := 16
    closedOffset := 16
    imageLength := 16
    imageOffset := 4096
    typesOffset := 4112
    bitmapsOffset := 4112
    openReferenceBits := 2
    openNativeBits := 2
    checksumOffset := 4112 }

/-- An image behind the header page. -/
theorem layout_of_check_rootAlone : rootAlone.check = .ok () ∧ rootAlone.imageOffset ≠ 0 ∧
    (page :: rootAlone.sections).Pairwise fun s t => s.top ≤ t.bottom := by
  have hcheck : rootAlone.check = .ok () := by rfl
  have hoffset : rootAlone.imageOffset ≠ 0 := by decide
  exact ⟨hcheck, hoffset, (layout_of_check hcheck).2.2.1 hoffset⟩

/-- The check passes an image that starts in the header page. -/
theorem exists_check_early : ∃ h : ArchiveHeader, h.check = .ok () ∧ ¬ page.Apart h.image :=
  ⟨{ rootAlone with imageOffset := 0 }, by rfl, by decide⟩

end HeapImage.ArchiveHeader
