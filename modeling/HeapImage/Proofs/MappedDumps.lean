import HeapImage.Proofs.HeapVerification
import HeapImage.Proofs.LoadOutcomes
import HeapImage.Proofs.NullReferences
import HeapImage.Proofs.UndecodableReferences

/-! # Dumps that are mapped where they were made for

A dump makes sure that the requested address of every object can be stored. Mapping asks for more:
the last word of the image has to have an address that can be stored, too, and an image ends with
padding. So a dump can be mapped back to where it was made for unless the range of its encoding ends
within this padding.

* `ReferenceEncoding.reaches`, `ReferenceEncoding.encode_add_words`: addresses in whole words above
  one that can be stored.
* `Archive.Anchored`, `Archive.anchored_of_dump`: the requested base of a dump.
* `Archive.HoldsMembers.verifyHeap_of_mapImage`: a mapped dump is a sound heap.
* `Archive.loadArchive_mapped_of_dump`: what becomes of a dump that is mapped back. -/

namespace HeapImage

/-! ## The range of an encoding -/

namespace ReferenceEncoding

variable {e : ReferenceEncoding} {a n value : Nat}

/-- An address is not above those that the encoding can reach. -/
def reaches (e : ReferenceEncoding) (a : Nat) : Bool := e.maxAddress?.all fun limit => a ≤ limit

/-- **In whole words above an address that can be stored** only the range of the encoding keeps
addresses from being stored. -/
theorem encode_add_words (hshift : e.shift ≤ maxShift) (ha : a ≠ 0)
    (hvalue : e.encode a = .ok value)
    (hn : wordSize ∣ n) (hlt : a + n < 2 ^ 64) :
    (e.reaches (a + n) = true → ∃ value', e.encode (a + n) = .ok value') ∧
      (e.reaches (a + n) = false → e.encode (a + n) = .error .beyondRange) := by
  cases e with
  | wide => exact ⟨fun _ => ⟨a + n, rfl⟩, nofun⟩
  | narrow base shift =>
    have hunit : 0 < 2 ^ shift.toNat := Nat.two_pow_pos _
    obtain ⟨hbase, hsum, hzero, -⟩ := (encode_narrow_eq_ok ha).mp hvalue
    -- A word is a whole number of units.
    obtain ⟨k, rfl⟩ : 2 ^ shift.toNat ∣ n :=
      Nat.dvd_trans (Nat.pow_dvd_pow 2 (show shift.toNat ≤ 3 from hshift)) hn
    have hsum' : a + 2 ^ shift.toNat * k = base.toNat + (value + k) * 2 ^ shift.toNat := by
      rw [Nat.add_mul, Nat.mul_comm k]
      omega
    have hreaches : (narrow base shift).reaches (a + 2 ^ shift.toNat * k) = true ↔
        value + k ≤ maxNarrow := by
      rw [← Nat.mul_le_mul_right_iff hunit, reaches, maxAddress?, Option.all_some,
        decide_eq_true_eq, Nat.shiftLeft_eq]
      omega
    constructor
    · intro hin
      exact ⟨value + k, (encode_narrow_eq_ok (by omega)).mpr
        ⟨by omega, hsum', by omega, hreaches.mp hin⟩⟩
    · intro hout
      have hmax : maxNarrow < value + k := by
        rw [← Nat.not_le, ← hreaches, hout]
        exact Bool.false_ne_true
      have hoffset : a + 2 ^ shift.toNat * k - base.toNat = (value + k) * 2 ^ shift.toNat := by
        omega
      rw [encode, if_neg (by omega), if_neg (by omega)]
      dsimp only
      rw [Nat.one_shiftLeft, hoffset, Nat.mul_mod_left, Nat.mul_div_cancel _ hunit,
        if_neg (Decidable.not_not.mpr rfl), if_neg (by omega), if_pos hmax]

end ReferenceEncoding

/-! ## Rebasing to the same place -/

namespace Rebasing

variable {m : Rebasing}

/-- If the first address of an image can be stored, then its last word decides. -/
theorem checkEdges_eq {low : Nat} (hlow : m.runtime.encode m.actual = .ok low) :
    (∀ high, m.runtime.encode (m.actual + (m.length - wordSize)) = .ok high →
      m.checkEdges = .ok ()) ∧
    ∀ fault, m.runtime.encode (m.actual + (m.length - wordSize)) = .error fault →
      m.checkEdges =
        .error (.encoding (.imageUnreachable (m.actual + (m.length - wordSize)) fault)) := by
  constructor
  · intro high hhigh
    rw [checkEdges, Except.forM_eq_ok]
    intro edge hedge
    simp only [List.mem_cons, List.not_mem_nil, or_false] at hedge
    rcases hedge with rfl | rfl
    · rw [hlow]
    · rw [hhigh]
  · intro fault hfault
    simp only [checkEdges, List.forM, hlow, hfault]
    rfl

/-- A reference to a place in an image that stays where it is moves to itself. -/
theorem disagreement?_of_same (hruntime : m.runtime = m.dump) (hactual : m.actual = m.requested)
    {place value : Nat} (hplace : place < m.length) (hlt : m.requested + m.length ≤ 2 ^ 64)
    (hvalue : m.dump.encode (m.requested + place) = .ok value) (offset : Nat) :
    m.disagreement? offset value = none := by
  have hfits : value < 256 ^ m.slotSize := by
    rw [slotSize, hruntime]
    exact ReferenceEncoding.encode_lt (by omega) hvalue
  have hgeneral : m.general offset value = .ok value := by
    rw [general, ReferenceEncoding.decode_encode (by omega) hvalue, if_neg (by omega),
      Nat.add_sub_cancel_left, hactual, hruntime, hvalue]
  rw [disagreement?, constant?_of_same hruntime hactual]
  dsimp only
  rw [hgeneral, shifted_zero hfits]
  exact if_pos rfl

end Rebasing

/-! ## Archives at their base -/

/-- The requested base of an archive has its alignment, and its address can be stored. The image is
made of words. -/
structure Archive.Anchored (a : Archive) : Prop where
  check : a.encoding.check = .ok ()
  base_ne_zero : a.header.requestedBase.toNat ≠ 0
  below : a.header.requestedBase.toNat + a.image.size < 2 ^ 64
  aligned : isAligned a.header.requestedBase.toNat a.header.regionAlignment.toNat = true
  storable : ∃ value, a.encoding.encode a.header.requestedBase.toNat = .ok value
  dvd_size : wordSize ∣ a.image.size
  le_size : wordSize ≤ a.image.size

namespace Archive

variable {r : TypeRegistry} {g : ObjectGraph} {selection : Selection} {o : DumpOptions}
variable {a : Archive} {options : LoadOptions} {heap : Arena}

/-- The address of the last word of the image at its requested base. -/
def lastWord (a : Archive) : Nat := a.header.requestedBase.toNat + (a.image.size - wordSize)

/-- **Every dump** has a requested base that can be stored: an object starts there. -/
theorem anchored_of_dump (hwords : o.InWords) (h : dump r g selection o = .ok a) : a.Anchored := by
  obtain ⟨s, q, opened, closed, os, cs, rfl, rfl, hcheck, -, rfl, hs⟩ := complete_of_dump hwords h
  have hstanding := hs.standing
  have hfields := headerSays_assemble s.registry opened closed hstanding hwords hcheck
  have himage : (assemble (headerOf s q) s.output s.registry opened closed).image = s.output := rfl
  obtain ⟨ha, -, -, -, -, hshift⟩ := DumpOptions.of_check hcheck
  have hend := hwords.heapEnd_lt
  have hbase := hstanding.base_add_le
  -- The root array is in every image, so an image is not empty.
  obtain ⟨x, hx, -⟩ := hs.root
  generalize assemble (headerOf s q) s.output s.registry opened closed = a at *
  refine ⟨?_, ?_, ?_, ?_, ?_, ?_, ?_⟩
  · rw [hfields.encoding]
    exact ReferenceEncoding.check_eq_ok.mpr hshift
  · rw [hfields.requestedBase]
    exact hs.base_ne_zero
  · rw [hfields.requestedBase, himage, hs.size_output]
    omega
  · rw [hfields.requestedBase, hfields.regionAlignment, isAligned_iff ha]
    exact hs.dvd_base
  · -- The open region has a root array, so it has a first member.
    obtain ⟨first, rest, hos⟩ := List.exists_cons_of_ne_nil (List.ne_nil_of_mem hx)
    have hrow := hs.openRow
    rw [hos] at hrow
    have hstorable := hs.storable first (List.mem_append_left _ (hos ▸ List.mem_cons_self ..))
    rw [hrow.1] at hstorable
    rw [hfields.encoding, hfields.requestedBase]
    exact hstorable
  · rw [himage, hs.size_output]
    exact Nat.dvd_trans (DumpOptions.wordSize_dvd_alignment hcheck) (dvd_alignUp ha _)
  · have hstop := hstanding.stop_le x (List.mem_append_left _ hx)
    have hsize := x.member.headerSize_le_size s.slotSize
    have htop := hstanding.closedTop_le
    have hword : headerSize = wordSize + wordSize := rfl
    rw [Placed.stop] at hstop
    rw [himage, hs.size_output]
    omega

namespace Anchored

variable (h : a.Anchored)

include h

/-- An archive can always be loaded in its own encoding. -/
theorem checkEncodings_self : checkEncodings a.encoding a.encoding = .ok () := by
  rw [checkEncodings, Except.guard_eq_ok]
  refine ⟨not_not.mpr rfl, ?_⟩
  rw [h.check]
  rfl

/-- The edges of an image at its requested base can be stored exactly if the encoding reaches the
last word. -/
theorem checkEdges_self :
    (a.encoding.reaches a.lastWord = true →
      (a.rebasing a.encoding a.header.requestedBase.toNat).checkEdges = .ok ()) ∧
    (a.encoding.reaches a.lastWord = false →
      (a.rebasing a.encoding a.header.requestedBase.toNat).checkEdges =
        .error (.encoding (.imageUnreachable a.lastWord .beyondRange))) := by
  obtain ⟨low, hlow⟩ := h.storable
  have hbelow := h.below
  obtain ⟨hin, hout⟩ := ReferenceEncoding.encode_add_words
    (ReferenceEncoding.check_eq_ok.mp h.check) h.base_ne_zero hlow
    (Nat.dvd_sub h.dvd_size (Nat.dvd_refl wordSize)) (by omega)
  obtain ⟨hok, herror⟩ := Rebasing.checkEdges_eq
    (m := a.rebasing a.encoding a.header.requestedBase.toNat) hlow
  exact ⟨fun hreaches => (hin hreaches).elim fun high hhigh => hok high hhigh,
    fun hreaches => herror _ (hout hreaches)⟩

end Anchored

/-! ## Verification of a mapped dump -/

/-- The extents that an image takes at a base, with the members in each of them. -/
def mappedRows (a : Archive) (members : Region → List Placed) (base : Nat) :
    List (Extent × List Placed) :=
  (Region.all.filter fun region => !(a.header.range region).isEmpty).map fun region =>
    ((a.header.range region).shift base, (members region).map (Placed.moveTo (base + ·)))

section

variable {μ : Type} [MappingHost μ] {host host' granted : μ} {runtime : ReferenceEncoding}
variable {delta : UInt64} {image : MappedImage}

/-- The rows of a mapped image stand in its regions. -/
theorem regions_eq_mappedRows (members : Region → List Placed)
    (hmap : mapImage a host runtime delta = (.ok image, host')) :
    image.regions = (a.mappedRows members image.heap.base).map Prod.fst := by
  rw [regions_of_mapImage hmap, mappedRows, List.filter_map, List.map_map, List.map_map]
  rfl

variable {native : Extent} {members : Region → List Placed} {ref : ObjectId → Nat}
variable {roots : List ObjectId}

namespace HoldsMembers

/-- Regions without extent have no members, so none is left out. -/
theorem flatMap_mappedRows (hm : a.HoldsMembers g r roots native members ref) (base : Nat) :
    (a.mappedRows members base).flatMap Prod.snd = moved members (base + ·) := by
  have hempty : ∀ region, (a.header.range region).isEmpty = true → members region = [] := by
    intro region hregion
    rw [List.eq_nil_iff_forall_not_mem]
    intro y hy
    have hbounds := (hm.row region).bounds y hy
    have hsize := y.member.size_pos a.encoding.slotSize
    rw [Extent.isEmpty, decide_eq_true_eq] at hregion
    omega
  rw [mappedRows, List.flatMap_map, moved, allMembers, List.map_append, Region.all,
    List.filter_cons, List.filter_cons, List.filter_nil]
  cases hopened : (a.header.range .opened).isEmpty <;>
    cases hclosed : (a.header.range .closed).isEmpty <;>
    simp [hempty, hopened, hclosed]

/-- The members of a region fill its extent wherever the image is. -/
theorem row_of_mappedRows (hm : a.HoldsMembers g r roots native members ref)
    (hslot : a.encoding.slotSize = runtime.slotSize) (base : Nat) :
    ∀ row ∈ a.mappedRows members base,
      Placed.Row runtime.slotSize row.1.bottom row.2 row.1.top := by
  refine List.forall_mem_map.mpr ?_
  intro region _
  have hrow := hm.row region
  rw [hslot] at hrow
  exact Tiles.map hrow (fun x _ => Nat.add_comm ..) fun _ _ => rfl

/-- **A mapped dump** is a heap that verification accepts, with the counts of the archive. -/
theorem verifyHeap_of_mapImage (hm : a.HoldsMembers g r roots native members ref)
    (hmap : mapImage a host runtime delta = (.ok image, host')) (hbase : image.heap.base ≠ 0)
    (htop : image.heap.base + a.image.size ≤ 2 ^ 64) :
    verifyHeap image.heap image.types image.encoding image.regions = .ok a.report := by
  obtain ⟨hcheck, htypes, hencoding, -, -, p, hpatch, himage, -⟩ := of_mapImage hmap
  have hfits := hm.fits hcheck hbase htop
  have hslot : a.encoding.slotSize = runtime.slotSize := hfits.slotSize
  have hheap : image.heap = ⟨image.heap.base, p.image⟩ := by
    rw [← himage]
  rw [regions_eq_mappedRows members hmap, htypes, hm.types, hencoding, hheap]
  exact hm.verifyHeap_eq hslot (hm.presents_of_patchImage hfits hpatch)
    (ReferenceEncoding.check_eq_ok.mpr (checkEncodings_eq_ok hcheck).2.2)
    (hm.row_of_mappedRows hslot _) (List.Perm.of_eq (hm.flatMap_mappedRows _))

/-- The root of a mapped dump is one of the objects that verification finds. -/
theorem exists_root_of_mapImage (hm : a.HoldsMembers g r roots native members ref)
    (hmap : mapImage a host runtime delta = (.ok image, host')) (hbase : image.heap.base ≠ 0)
    (htop : image.heap.base + a.image.size ≤ 2 ^ 64) :
    ∃ objects, VerifiedObject.walkAll image.heap image.types image.encoding.slotSize
      image.regions = .ok objects ∧ ∃ x ∈ objects.toList, x.address = image.root := by
  obtain ⟨hcheck, htypes, hencoding, hroot, -, p, hpatch, himage, -⟩ := of_mapImage hmap
  have hfits := hm.fits hcheck hbase htop
  have hheap : image.heap = ⟨image.heap.base, p.image⟩ := by
    rw [← himage]
  obtain ⟨objects, hwalk, hlist⟩ := (hm.presents_of_patchImage hfits hpatch).exists_walkAll
    (hm.row_of_mappedRows hfits.slotSize _) (List.Perm.of_eq (hm.flatMap_mappedRows _))
  obtain ⟨x, hx, -, hoffset⟩ := hm.root
  rw [regions_eq_mappedRows members hmap, htypes, hm.types, hencoding, hheap, hroot, ← hoffset]
  refine ⟨objects, hwalk, (x.moveTo (image.heap.base + ·)).verified, ?_, rfl⟩
  rw [hlist, hm.flatMap_mappedRows]
  exact List.mem_map_of_mem (moveTo_mem_moved hx)

/-- A mapped dump passes verification. -/
theorem exists_verifyHeap_of_mapImage (hm : a.HoldsMembers g r roots native members ref)
    (hmap : mapImage a host runtime delta = (.ok image, host')) (hbase : image.heap.base ≠ 0)
    (htop : image.heap.base + a.image.size ≤ 2 ^ 64) :
    ∃ report, verifyHeap image.heap image.types image.encoding image.regions = .ok report :=
  ⟨_, hm.verifyHeap_of_mapImage hmap hbase htop⟩

end HoldsMembers

/-! ## Mapping a dump back -/

/-- **An archive is mapped at its requested base** exactly if its encoding reaches the last word of
the image; else the range is given back. -/
theorem Anchored.mapImage_self (h : a.Anchored) (hsound : a.Sound) (delta : UInt64)
    (hreserve : MappingHost.reserve host a.header.requestedBase.toNat a.image.size =
      (some a.header.requestedBase.toNat, granted)) :
    (a.encoding.reaches a.lastWord = true → ∃ image host',
      mapImage a host a.encoding delta = (.ok image, host') ∧
        image.heap.base = a.header.requestedBase.toNat) ∧
    (a.encoding.reaches a.lastWord = false →
      mapImage a host a.encoding delta =
        (.error (.encoding (.imageUnreachable a.lastWord .beyondRange)),
          MappingHost.release granted a.header.requestedBase.toNat a.image.size)) := by
  obtain ⟨hok, herror⟩ := h.checkEdges_self
  obtain ⟨hfailed, hmapped⟩ := mapImage_eq delta h.checkEncodings_self hreserve
  constructor
  · intro hreaches
    obtain ⟨p, hpatch, -⟩ := hsound.patchImage_of_constant delta rfl h.aligned (hok hreaches)
      (Rebasing.constant?_of_same (m := a.rebasing a.encoding a.header.requestedBase.toNat) rfl rfl)
    obtain ⟨image, host', hmap, hheap, -⟩ := hmapped p hpatch
    exact ⟨image, host', hmap, by rw [hheap]⟩
  · intro hreaches
    exact hfailed _ (patchImage_of_edges delta h.aligned (herror hreaches))

/-- No reference of a dump is found to disagree with where it leads. -/
theorem HoldsMembers.mappingAssertion?_self (hm : a.HoldsMembers g r roots native members ref)
    (h : a.Anchored)
    (hreserve : MappingHost.reserve host a.header.requestedBase.toNat a.image.size =
      (some a.header.requestedBase.toNat, granted)) :
    mappingAssertion? a host a.encoding = none := by
  obtain ⟨hok, herror⟩ := h.checkEdges_self
  cases hreaches : a.encoding.reaches a.lastWord with
  | false =>
    have hedges := herror hreaches
    rw [rebasing] at hedges
    rw [mappingAssertion?, h.checkEncodings_self, hreserve]
    dsimp only
    rw [hedges, h.aligned]
    rfl
  | true =>
    rw [mappingAssertion?_eq h.checkEncodings_self hreserve h.aligned (hok hreaches),
      disagreement?_eq_none_iff rfl]
    intro region bit hbit
    obtain ⟨x, hx, c, hc, i, hv, hwidth, hplace, region', y, hy, hid⟩ := hm.referent_of_marked hbit
    -- The slot holds the stored form of the requested address of its referent.
    have hvalue : a.slotValue region bit = ref i := by
      have hheld := (hm.held region x hx).cells c hc
      rw [slotValue, Bytes.valueAt_eq_number, ← hplace, ← hwidth]
      exact hheld.trans (by rw [hv]; rfl)
    have hbelow := h.below
    have hstop := hm.stop_le hy
    have hsize := y.member.size_pos a.encoding.slotSize
    rw [Placed.stop] at hstop
    rw [hvalue]
    refine Rebasing.disagreement?_of_same rfl rfl ?_ ?_ (hm.stored region' y hy i hid) _
    · change y.offset < a.image.size
      omega
    · change a.header.requestedBase.toNat + a.image.size ≤ 2 ^ 64
      omega

end

end Archive

/-! ## Loading a dump back -/

namespace LoadOutcome

variable {a : Archive} {heap heap' : Arena} {source : ArchiveSource} {options : LoadOptions}

/-- A mapped image that verification accepts is what a load ends with. -/
theorem loadArchive_of_mapImage {image : MappedImage} {report : VerifyReport}
    (hopen : source.open? options.verifyChecksum = .ok a) (hmode : options.mode = .mapped)
    (hmap : mapImage a heap (options.runtime.getD a.encoding) (nativeDelta a options) =
      (.ok image, heap'))
    (hverify : verifyHeap image.heap image.types image.encoding image.regions = .ok report) :
    loadArchive source heap options = (.ok (mapped image), heap') := by
  have houtcome : verifyOutcome heap' (mapped image) = .ok report := hverify
  have htry : tryLoad source heap options = (.ok (mapped image), heap') := by
    rw [tryLoad, hopen]
    dsimp only
    rw [hmode]
    dsimp only
    rw [mapOutcome, hmap]
    dsimp only
    rw [houtcome]
    exact ite_self _
  rw [loadArchive, htry]

/-- What keeps an image from being mapped disables the archive, if the program can do without. -/
theorem loadArchive_of_mapImage_error {e : ArchiveError}
    (hopen : source.open? options.verifyChecksum = .ok a) (hmode : options.mode = .mapped)
    (hmap : mapImage a heap (options.runtime.getD a.encoding) (nativeDelta a options) =
      (.error e, heap'))
    (he : e.isRecoverable = true) :
    loadArchive source heap options = (.ok (disabled e), heap') := by
  rw [loadArchive, tryLoad, hopen]
  dsimp only
  rw [hmode]
  dsimp only
  rw [mapOutcome, hmap]
  dsimp only
  rw [if_pos he]

end LoadOutcome

namespace Archive

/-- **A dump that is mapped back.** A dump that is loaded with its own encoding into a heap without
chunks which grants the requested base is mapped there, and no assertion fails, exactly if the
encoding reaches the last word of the image. Objects cannot be out of reach, but the padding behind
them can; then the archive is disabled. -/
theorem loadArchive_mapped_of_dump {r : TypeRegistry} {g : ObjectGraph} {selection : Selection}
    {o : DumpOptions} {a : Archive} {options : LoadOptions} {heap : Arena} (hwords : o.InWords)
    (hfits : r.FitsTable) (hdump : dump r g selection o = .ok a) (hsize : a.fileSize < 2 ^ 64)
    (hmode : options.mode = .mapped) (hruntime : options.runtime = none)
    (hfresh : heap.chunks = #[])
    (hgrant : heap.grant? a.header.requestedBase.toNat = some a.header.requestedBase.toNat) :
    (a.encoding.reaches a.lastWord = true → ∃ image heap',
      loadArchive (.memory a.toBytes) heap options = (.ok (.mapped image), heap') ∧
        image.heap.base = a.header.requestedBase.toNat) ∧
    (a.encoding.reaches a.lastWord = false → ∃ heap',
      loadArchive (.memory a.toBytes) heap options =
        (.ok (.disabled (.encoding (.imageUnreachable a.lastWord .beyondRange))), heap')) ∧
    loadAssertion? (.memory a.toBytes) heap options = none := by
  obtain ⟨-, -, hread⟩ := sections_of_dump hwords hfits hdump hsize
  have hopen : ArchiveSource.open? (.memory a.toBytes) options.verifyChecksum = .ok a :=
    hread options.verifyChecksum
  have hencoding : options.runtime.getD a.encoding = a.encoding := by
    rw [hruntime]
    rfl
  obtain ⟨members, ref, hm⟩ := holdsMembers_of_dump hwords hdump
  have hanchored := anchored_of_dump hwords hdump
  have hreserve := Arena.reserve_of_fresh a.image.size hfresh hgrant
  obtain ⟨hmapped, hfailed⟩ := hanchored.mapImage_self (sound_of_ofBytes hopen)
    (nativeDelta a options) hreserve
  rw [← hencoding] at hmapped hfailed
  refine ⟨?_, ?_, ?_⟩
  · -- What has been mapped at its own base is verified as the dump it is.
    intro hreaches
    obtain ⟨image, heap', hmap, hbase⟩ := hmapped (hencoding.symm ▸ hreaches)
    obtain ⟨report, hverify⟩ := hm.exists_verifyHeap_of_mapImage hmap
      (hbase ▸ hanchored.base_ne_zero) (hbase ▸ Nat.le_of_lt hanchored.below)
    exact ⟨image, heap', LoadOutcome.loadArchive_of_mapImage hopen hmode hmap hverify, hbase⟩
  · intro hreaches
    exact ⟨_, LoadOutcome.loadArchive_of_mapImage_error hopen hmode
      (hfailed (hencoding.symm ▸ hreaches)) rfl⟩
  · rw [loadAssertion?, hopen, hmode]
    dsimp only
    rw [hencoding]
    exact hm.mappingAssertion?_self hanchored hreserve

end Archive

/-! ## An image with padding out of reach -/

/-- A pair that refers to itself. -/
def ObjectGraph.loop : ObjectGraph where
  objects := #[⟨1, 1, .fields [.reference (some ⟨0⟩), .native 0x8010]⟩]

/-- The pair in the open region, and as the root. -/
def Selection.loop : Selection where
  entries := [(⟨0⟩, .opened)]
  roots := [⟨0⟩]

/-- Options with an encoding that reaches both objects of the loop and not the end of its image. -/
def DumpOptions.tight : DumpOptions where
  alignment := 64
  heapEnd := 0x800000040
  encoding := .narrow 40 3
  native := ⟨0x8000, 0x9000⟩
  capacity := 4096

/-- A load that maps an archive and verifies it. -/
def LoadOptions.checked : LoadOptions where
  mode := .mapped
  runtime := none
  nativeBase := none
  verifyAfterLoad := true
  verifyChecksum := true

namespace Archive

/-- The cycle is mapped back. The loop is not: its archive is disabled. -/
theorem loadArchive_mapped_of_dump_cycle :
    (∃ a image heap', dump .pairs .cycle .cycle .small = .ok a ∧
      loadArchive (.memory a.toBytes) Arena.standard .checked = (.ok (.mapped image), heap')) ∧
    ∃ a heap', dump .pairs .loop .loop .tight = .ok a ∧
      loadArchive (.memory a.toBytes) Arena.standard .checked =
        (.ok (.disabled (.encoding (.imageUnreachable 0x800000038 .beyondRange))), heap') := by
  constructor
  · obtain ⟨a, hdump, hok⟩ : ∃ a, dump .pairs .cycle .cycle .small = .ok a ∧
        decide (a.fileSize < 2 ^ 64 ∧ a.encoding.reaches a.lastWord = true) = true :=
      Except.exists_of_any (by decide +kernel)
    obtain ⟨hsize, hreaches⟩ := of_decide_eq_true hok
    obtain ⟨hmapped, -⟩ := loadArchive_mapped_of_dump
      DumpOptions.inWords_small TypeRegistry.fitsTable_pairs hdump hsize
      (show LoadOptions.checked.mode = .mapped from rfl) rfl
      (show Arena.standard.chunks = #[] from rfl) rfl
    obtain ⟨image, heap', hload, -⟩ := hmapped hreaches
    exact ⟨a, image, heap', hdump, hload⟩
  · obtain ⟨a, hdump, hok⟩ : ∃ a, dump .pairs .loop .loop .tight = .ok a ∧
        decide (a.fileSize < 2 ^ 64 ∧ a.encoding.reaches a.lastWord = false ∧
          a.lastWord = 0x800000038) = true :=
      Except.exists_of_any (by decide +kernel)
    obtain ⟨hsize, hreaches, hlast⟩ := of_decide_eq_true hok
    have hwords : DumpOptions.tight.InWords := ⟨by decide, by decide, by decide⟩
    obtain ⟨-, hdisabled, -⟩ := loadArchive_mapped_of_dump hwords
      TypeRegistry.fitsTable_pairs hdump hsize
      (show LoadOptions.checked.mode = .mapped from rfl) rfl
      (show Arena.standard.chunks = #[] from rfl) rfl
    obtain ⟨heap', hload⟩ := hdisabled hreaches
    rw [hlast] at hload
    exact ⟨a, heap', hdump, hload⟩

end Archive

end HeapImage
