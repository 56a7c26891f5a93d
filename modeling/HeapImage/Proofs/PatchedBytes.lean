import HeapImage.Proofs.AdjustedBytes
import HeapImage.Proofs.CheckedResults

/-! # Every byte of a mapped image

Mapping rewrites the marked numbers of an image where they stand. Each reference comes to name the
place to which the object that it named has been moved, each native pointer is moved once, and all
other bytes stay, those between the objects and behind them among them.

* `Rebasing.Carries`: what becomes of a reference, wherever references are led to the new places.
* `Archive.Sound.adjusts_of_region`, `Archive.Sound.adjusts_of_patchImage`: patching.
* `Archive.adjusts_of_mapImage`: the bytes of a mapped image. -/

namespace HeapImage

/-- Null stays null, and a reference to a place of an image at its requested base becomes one to
that place of the image at its new base, wherever references are led there. -/
structure Rebasing.Carries (m : Rebasing) (_offset old new : Nat) : Prop where
  null : old = 0 → new = 0
  target : old ≠ 0 → ∀ place, place + wordSize ≤ m.length →
    m.dump.decode old = m.requested + place →
      (m.runtime.decode new = m.actual + place ↔ m.Lands place)

/-- Without a distance, adjusted references are what they were. -/
theorem Rebasing.Moves.eq_of_constant_zero {m : Rebasing} {offset old new : Nat}
    (h : m.Moves offset old new) (hc : m.constant? = some 0) (hlt : old < 256 ^ m.slotSize) :
    new = old := by
  cases h with
  | null => rfl
  | value _ hvalue =>
    rw [Rebasing.value, hc] at hvalue
    obtain rfl := Except.ok.inj hvalue
    rw [Rebasing.shifted_zero hlt, Nat.mod_eq_of_lt hlt]

namespace Archive

variable {a : Archive} {m : Rebasing} {delta : UInt64} {region : Region} {p p' : Patching}

/-! ## Patching -/

namespace Sound

/-- **Patching a region** adjusts its bytes. -/
theorem adjusts_of_region (hsound : a.Sound) (hapart : a.MarksApart)
    (hslot : m.slotSize = a.slotSize) (hsize : p.image.size = a.image.size)
    (h : Patching.region m delta (a.header.range region).bottom (a.maps region) p = .ok p') :
    p'.image.size = a.image.size ∧
      a.Adjusts [region] m.Moves delta (Bytes.get p.image) (Bytes.get p'.image) := by
  have hbounds := hsound.bounds_of_mem_slots hslot region
  have hbounds' := hsound.bounds_of_mem_words region
  have htop := hsize ▸ (hsound.bounds region).2
  obtain ⟨hsize', v, hmoves, hrewrites⟩ := Patching.rewrites_of_region
    (fun i hi => Nat.le_trans (hbounds i hi).2 htop)
    (fun i hi => Nat.le_trans (hbounds' i hi).2 htop) h
  have hmem : ∀ bit, (a.maps region).references.contains bit = true →
      a.slotOffset region bit ∈
        Patching.slots m (a.header.range region).bottom (a.maps region) :=
    fun bit hbit => (mem_slots hslot).mpr ⟨bit, hbit, rfl⟩
  have hmem' : ∀ bit, (a.maps region).natives.contains bit = true →
      a.nativeOffset region bit ∈
        Patching.words (a.header.range region).bottom (a.maps region) :=
    fun bit hbit => List.mem_map_of_mem (BitMap.mem_toList.mpr hbit)
  -- References are replaced before native pointers are moved. As the marks lie apart, neither pass
  -- sees what the other one has written.
  obtain ⟨hreferences, hnatives, hothers⟩ := hmoves.both hrewrites (by
    intro i hi j hj
    obtain ⟨bit, hbit, rfl⟩ := (mem_slots hslot).mp hi
    obtain ⟨bit', hbit', rfl⟩ := List.mem_map.mp hj
    rw [hslot]
    exact hapart.apart hbit (BitMap.mem_toList.mp hbit'))
  refine ⟨hsize'.trans hsize, ?_, ?_, ?_⟩
  · simp only [List.mem_singleton, forall_eq]
    intro bit hbit
    rw [← hslot]
    exact hreferences _ (hmem bit hbit)
  · simp only [List.mem_singleton, forall_eq]
    exact fun bit hbit => hnatives _ (hmem' bit hbit)
  · intro j hj
    apply hothers
    · intro i hi
      obtain ⟨bit, hbit, rfl⟩ := (mem_slots hslot).mp hi
      rw [hslot]
      exact hj.references region (List.mem_singleton_self _) bit hbit
    · intro i hi
      obtain ⟨bit, hbit, rfl⟩ := List.mem_map.mp hi
      exact hj.natives region (List.mem_singleton_self _) bit (BitMap.mem_toList.mp hbit)

/-- **Patching an image** adjusts the bytes of both regions. -/
theorem adjusts_of_patchImage (hsound : a.Sound) (hapart : a.MarksApart)
    (hslot : m.slotSize = a.slotSize) (h : patchImage a m delta = .ok p) :
    p.image.size = a.image.size ∧
      a.Adjusts Region.all m.Moves delta (Bytes.get a.image) (Bytes.get p.image) := by
  obtain ⟨-, q, hopened, hclosed⟩ := of_patchImage h
  obtain ⟨hsize, hadjusts⟩ := hsound.adjusts_of_region hapart hslot rfl hopened
  obtain ⟨hsize', hadjusts'⟩ := hsound.adjusts_of_region hapart hslot hsize hclosed
  exact ⟨hsize', hadjusts.append hsound hadjusts' (by decide)⟩

end Sound

/-! ## Mapping -/

/-- What has become of a reference in an image whose edges can be stored. -/
theorem carries_of_moves {offset old new : Nat} (hcheck : checkEncodings m.dump m.runtime = .ok ())
    (hedges : m.checkEdges = .ok ()) (htop : m.actual + (m.length - wordSize) < 2 ^ 64)
    (hlt : old < 256 ^ m.slotSize) (h : m.Moves offset old new) : m.Carries offset old new := by
  obtain ⟨hslot, hdump, hruntime⟩ := checkEncodings_eq_ok hcheck
  have hword : wordSize = 8 := rfl
  have hpos : 0 < 256 ^ m.slotSize := Nat.pow_pos (by decide)
  cases h with
  | null => exact ⟨fun _ => rfl, fun hne => absurd rfl hne⟩
  | @value _ new hold hvalue =>
    refine ⟨fun hzero => absurd hzero hold, fun _ place hplace hdecode => ?_⟩
    have hmoved : m.actual + place < 2 ^ 64 := by omega
    have hlands := Rebasing.encode_eq_iff_lands hslot hdump hedges htop hold (hslot ▸ hlt) hdecode
      hplace hvalue
    have hfits : new % 256 ^ m.slotSize = new := by
      cases hc : m.constant? with
      | none => exact Nat.mod_eq_of_lt (ReferenceEncoding.encode_lt hmoved (hlands.mpr (.inl hc)))
      | some c =>
        rw [Rebasing.value, hc] at hvalue
        obtain rfl := Except.ok.inj hvalue
        exact Rebasing.shifted_mod c
    rw [← hlands, hfits]
    refine ⟨fun hnew => ?_, ReferenceEncoding.decode_encode hmoved⟩
    rw [← hnew]
    exact ReferenceEncoding.encode_decode hruntime (hfits ▸ Nat.mod_lt _ hpos)

section

variable {μ : Type} [MappingHost μ] {host granted host' : μ} {runtime : ReferenceEncoding}
variable {actual : Nat}

/-- References of a patched image that assertions have let pass. -/
theorem agree_of_mappingAssertion? (hcheck : checkEncodings a.encoding runtime = .ok ())
    (hreserve : MappingHost.reserve host a.header.requestedBase.toNat a.image.size =
      (some actual, granted))
    (hpatch : patchImage a (a.rebasing runtime actual) delta = .ok p)
    (hassert : mappingAssertion? a host runtime = none) {bit : Nat} (hbit : a.Refers region bit) :
    (a.rebasing runtime actual).disagreement? (a.slotOffset region bit)
      (a.slotValue region bit) = none := by
  have hslot : (a.rebasing runtime actual).slotSize = a.slotSize :=
    (checkEncodings_eq_ok hcheck).1.symm
  have haligned : isAligned actual a.header.regionAlignment.toNat = true := by
    rw [patchImage, Except.guard_eq_ok] at hpatch
    exact Bool.not_eq_false _ |>.mp fun hfalse => hpatch.1 (hfalse ▸ rfl)
  rw [mappingAssertion?_eq hcheck hreserve haligned (of_patchImage hpatch).1,
    disagreement?_eq_none_iff hslot] at hassert
  exact hassert region bit hbit

/-- **Every byte of a mapped image.** Let no marked word of an archive that has been read overlap a
marked slot, and let its image be mapped at any address. Then all marked references that are null
still are, those to a word of the image lead to that word in its new place wherever references are
led there, all marked native pointers have been moved once, and all other bytes are as they were.
All references are led to the new places if they have been looked up, if the image is not at address
zero, or if assertions have let them pass. If the image stands where it was made for, with the
encoding it was made with and no distance for native pointers, then all bytes are as they were. -/
theorem adjusts_of_mapImage [HeapSums μ] {bytes : ByteArray} {checksum : Bool} {image : MappedImage}
    (hread : ofBytes bytes checksum = .ok a) (hapart : a.MarksApart)
    (hmap : Checked.mapImage .words a host runtime delta = .ok (.ok image, host')) :
    image.heap.image.size = a.image.size ∧
      a.Adjusts Region.all (a.rebasing runtime image.heap.base).Carries delta (Bytes.get a.image)
        (Bytes.get image.heap.image) ∧
      ((a.rebasing runtime image.heap.base).constant? = none ∨ image.heap.base ≠ 0 ∨
          mappingAssertion? a host runtime = none →
        ∀ region bit, a.Refers region bit → ∀ place, place + wordSize ≤ a.image.size →
          a.encoding.decode (a.slotValue region bit) = a.header.requestedBase.toNat + place →
          (a.rebasing runtime image.heap.base).Lands place) ∧
      (image.heap.base = a.header.requestedBase.toNat → runtime = a.encoding → delta = 0 →
        image.heap.image = a.image) := by
  have hsound := sound_of_ofBytes hread
  have htop := Checked.edge_of_mapImage hmap
  obtain ⟨hcheck, -, -, -, ⟨granted, hreserve, -⟩, p, hpatch, himage, -⟩ :=
    of_mapImage (Checked.gives_mapImage _ hmap).symm
  have hedges := (of_patchImage hpatch).1
  have hslot : (a.rebasing runtime image.heap.base).slotSize = a.slotSize :=
    (checkEncodings_eq_ok hcheck).1.symm
  obtain ⟨hsize, hadjusts⟩ := hsound.adjusts_of_patchImage hapart hslot hpatch
  rw [himage]
  refine ⟨hsize, hadjusts.mono ?_, ?_, ?_⟩
  · intro region _ bit hbit new hmoves
    refine carries_of_moves hcheck hedges htop ?_ hmoves
    rw [hslot]
    exact Bytes.number_lt ..
  · rintro (hconstant | hactual | hassert) region bit hbit place hplace hdecode
    · exact .inl hconstant
    · exact Rebasing.lands_of_ne_zero hedges hactual place
    · obtain ⟨hwidth, hdump, -⟩ := checkEncodings_eq_ok hcheck
      exact Rebasing.lands_of_agree hwidth hdump hedges htop hbit.2 (Bytes.valueAt_lt ..) hdecode
        hplace (agree_of_mappingAssertion? hcheck hreserve hpatch hassert hbit)
  · -- With nothing moved and the encoding kept, the constant is zero.
    rintro hbase rfl rfl
    have hconstant : (a.rebasing a.encoding image.heap.base).constant? = some 0 :=
      Rebasing.constant?_of_same rfl hbase
    have hsame := hadjusts.eq_of_stay fun offset old new hlt hmoves =>
      hmoves.eq_of_constant_zero hconstant (hslot.symm ▸ hlt)
    exact Bytes.ext_get hsize fun i _ => congrFun hsame i

end

/-- The cycle of two pairs can be mapped to another base, with its native pointers moved. -/
theorem exists_moved_cycle : ∃ a image h, dump .pairs .cycle .cycle .small = .ok a ∧
    a.fileSize < 2 ^ 64 ∧ a.MarksApart ∧
    Checked.mapImage .words a (Arena.standard.withMapping (.atFixed 0x4000)) (.narrow 0 3) 0x100 =
      .ok (.ok image, h) ∧ image.heap.base = 0x4000 := by
  have hok : ((dump .pairs .cycle .cycle .small).toOption.any fun a =>
      (Checked.mapImage .words a (Arena.standard.withMapping (.atFixed 0x4000)) (.narrow 0 3)
        0x100).toOption.any fun r => r.1.toOption.any fun image =>
          decide (a.fileSize < 2 ^ 64 ∧ a.MarksApart ∧ image.heap.base = 0x4000)) = true := by
    decide +kernel
  obtain ⟨a, hdump, hok⟩ := Except.exists_of_any hok
  obtain ⟨⟨r, h⟩, hmap, hok⟩ := Except.exists_of_any hok
  obtain ⟨image, rfl, hok⟩ := Except.exists_of_any hok
  obtain ⟨hsize, hapart, hbase⟩ := of_decide_eq_true hok
  exact ⟨a, image, h, hdump, hsize, hapart, hmap, hbase⟩

/-- At base zero, and with another zero point of the encoding, a reference of the cycle is led
astray. -/
theorem exists_astray_cycle : ∃ a image h, dump .pairs .cycle .cycle .small = .ok a ∧
    Checked.mapImage .words a (Arena.standard.withMapping (.atFixed 0)) (.narrow 8 3) 0 =
      .ok (.ok image, h) ∧ image.heap.base = 0 ∧ a.slotSize = 4 ∧ wordSize ≤ a.image.size ∧
    (a.maps .opened).references.contains 12 = true ∧ a.slotValue .opened 12 ≠ 0 ∧
    a.encoding.decode (a.slotValue .opened 12) = a.header.requestedBase.toNat ∧
    Bytes.valueAt image.heap.image (a.slotOffset .opened 12) 4 = 0xffffffff := by
  have hok : ((dump .pairs .cycle .cycle .small).toOption.any fun a =>
      (Checked.mapImage .words a (Arena.standard.withMapping (.atFixed 0)) (.narrow 8 3)
        0).toOption.any fun r => r.1.toOption.any fun image =>
          decide (image.heap.base = 0 ∧ a.slotSize = 4 ∧ wordSize ≤ a.image.size ∧
            (a.maps .opened).references.contains 12 = true ∧ a.slotValue .opened 12 ≠ 0 ∧
            a.encoding.decode (a.slotValue .opened 12) = a.header.requestedBase.toNat ∧
            Bytes.valueAt image.heap.image (a.slotOffset .opened 12) 4 = 0xffffffff)) = true := by
    decide +kernel
  obtain ⟨a, hdump, hok⟩ := Except.exists_of_any hok
  obtain ⟨⟨r, h⟩, hmap, hok⟩ := Except.exists_of_any hok
  obtain ⟨image, rfl, hok⟩ := Except.exists_of_any hok
  exact ⟨a, image, h, hdump, hmap, of_decide_eq_true hok⟩

/-- The cycle is mapped elsewhere with its native pointer moved. At address zero, under an encoding
with a base, a reference to its first object is led astray. -/
theorem adjusts_of_mapImage_cycle : ∃ a image h, ofBytes a.toBytes false = .ok a ∧ a.MarksApart ∧
    Checked.mapImage .words a (Arena.standard.withMapping (.atFixed 0x4000)) (.narrow 0 3) 0x100 =
      .ok (.ok image, h) ∧ image.heap.base = 0x4000 ∧
    a.Adjusts Region.all (a.rebasing (.narrow 0 3) 0x4000).Carries 0x100 (Bytes.get a.image)
      (Bytes.get image.heap.image) ∧
    a.Refers .opened 12 ∧
    a.encoding.decode (a.slotValue .opened 12) = a.header.requestedBase.toNat ∧
    (a.rebasing (.narrow 0 3) 0x4000).Lands 0 ∧
    ∃ image h,
      Checked.mapImage .words a (Arena.standard.withMapping (.atFixed 0)) (.narrow 8 3) 0 =
        .ok (.ok image, h) ∧
      Bytes.valueAt image.heap.image (a.slotOffset .opened 12) 4 = 0xffffffff ∧
      ¬ (a.rebasing (.narrow 8 3) 0).Lands 0 := by
  obtain ⟨a, image, h, hdump, hsize, hapart, hmap, hbase⟩ := exists_moved_cycle
  obtain ⟨a', image', h', hdump', hmap', hbase', hslot, hlength, hmarked, hne, hfirst, hastray⟩ :=
    exists_astray_cycle
  obtain rfl : a' = a := Except.ok.inj (hdump'.symm.trans hdump)
  obtain ⟨-, -, hread⟩ := sections_of_dump DumpOptions.inWords_small TypeRegistry.fitsTable_pairs
    hdump hsize
  obtain ⟨-, hadjusts, hlands, -⟩ := adjusts_of_mapImage (hread false) hapart hmap
  obtain ⟨-, hadjusts', -⟩ := adjusts_of_mapImage (hread false) hapart hmap'
  have hrefers : a'.Refers .opened 12 := ⟨hmarked, hne⟩
  refine ⟨a', image, h, hread false, hapart, hmap, hbase, hbase ▸ hadjusts, hrefers, hfirst, ?_,
    image', h', hmap', hastray, ?_⟩
  · rw [← hbase]
    exact hlands (.inr (.inl (hbase ▸ by decide))) .opened 12 hrefers 0
      ((Nat.zero_add _).symm ▸ hlength) hfirst
  · -- What the slot holds now stands for no place of the image.
    have hcarries := hadjusts'.references .opened (by decide) 12 hmarked
    rw [← Bytes.valueAt_eq_number, ← Bytes.valueAt_eq_number, hslot, hastray, hbase'] at hcarries
    rw [slotValue, hslot] at hne hfirst
    rw [← hcarries.target hne 0 ((Nat.zero_add _).symm ▸ hlength) hfirst]
    change ¬ ReferenceEncoding.decode (.narrow 8 3) 0xffffffff = 0
    decide

end Archive

end HeapImage
