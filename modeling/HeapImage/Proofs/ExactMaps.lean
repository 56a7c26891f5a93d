import HeapImage.Proofs.DerivedMaps
import HeapImage.Proofs.FieldPlaces
import HeapImage.Proofs.FileRoundTrip

/-! # What a check of maps decides

The maps of an archive are checked against those that are derived from its image, which may hold
anything. They pass exactly if each region is a row of objects and a bit is set for every reference
slot, for every native pointer into the native image, and for nothing else.

* `ObjectSpan.up`, `ObjectSpan.row_extract`: the objects of a region in the whole image.
* `RegionMaps.Describes`: maps that mark what some objects of an image call for.
* `RegionMaps.Marks.describes`: derived maps do.
* `Archive.Sound.checkRegionMaps_eq_ok`: what the check of one region decides.
* `Archive.checkMaps_iff_describes`: what the check of an archive decides. -/

namespace HeapImage

/-! ## Regions in an image -/

/-- A number inside a part of an array. -/
theorem Bytes.valueAt_extract {b : ByteArray} {start stop i n : Nat} (h : start + i + n ≤ stop) :
    valueAt (b.extract start stop) i n = valueAt b (start + i) n := by
  rw [valueAt_eq_number, valueAt_eq_number]
  apply number_congr
  intro k hk
  rw [get_extract, if_pos (by omega), Nat.add_assoc]

/-- A header inside a part of an array. -/
theorem ObjectHeader.read?_extract {b : ByteArray} {start stop i : Nat}
    (h : start + i + headerSize ≤ stop) (hstop : stop ≤ b.size) :
    read? (b.extract start stop) i = read? b (start + i) := by
  have hwords : headerSize = wordSize + wordSize := rfl
  have hsize : (b.extract start stop).size = stop - start := by
    rw [ByteArray.size_extract, Nat.min_eq_left hstop]
  rw [read?, read?, hsize, if_pos (by omega), if_pos (by omega),
    Bytes.valueAt_extract (by omega), Bytes.valueAt_extract (by omega), Nat.add_assoc]

namespace ObjectSpan

variable {b : ByteArray} {r : TypeRegistry} {slot start stop : Nat} {o : ObjectSpan}

/-- The object with its place counted from another one, which lies `base` bytes in front. -/
def up (base : Nat) (o : ObjectSpan) : ObjectSpan := { o with offset := base + o.offset }

/-- An object is found in a region where it is found in the image. -/
theorem found_extract (hle : start ≤ stop) (hstop : stop ≤ b.size) :
    o.Found (b.extract start stop) r slot (stop - start) ↔ (o.up start).Found b r slot stop := by
  have hread : o.stop ≤ stop - start → headerSize ≤ o.size →
      ObjectHeader.read? (b.extract start stop) o.offset =
        ObjectHeader.read? b (start + o.offset) := by
    intro hend hheader
    rw [ObjectSpan.stop] at hend
    exact ObjectHeader.read?_extract (by omega) hstop
  have hends : o.stop ≤ stop - start ↔ (o.up start).stop ≤ stop := by
    rw [ObjectSpan.stop, ObjectSpan.stop, up]
    dsimp only
    omega
  constructor
  · intro h
    exact ⟨(hread h.stop_le h.headerSize_le).symm.trans h.header, h.type, h.length, h.size,
      hends.mp h.stop_le⟩
  · intro h
    have hend := hends.mpr h.stop_le
    exact ⟨(hread hend h.headerSize_le).trans h.header, h.type, h.length, h.size, hend⟩

/-- **The objects of a region** stand in the image behind its first byte. -/
theorem row_extract {ys : List ObjectSpan} (hle : start ≤ stop) (hstop : stop ≤ b.size) :
    Row b r slot start ys stop ↔ ∃ xs, ys = xs.map (up start) ∧
      Row (b.extract start stop) r slot 0 xs (b.extract start stop).size := by
  have hsize : (b.extract start stop).size = stop - start := by
    rw [ByteArray.size_extract, Nat.min_eq_left hstop]
  -- The ends of the region, as far behind the ends of its bytes as its objects are.
  have hends : Tiles ObjectSpan.offset ObjectSpan.size start ys stop ↔
      Tiles ObjectSpan.offset ObjectSpan.size (0 + start) ys (stop - start + start) := by
    rw [Nat.zero_add, Nat.sub_add_cancel hle]
  have hoffset : ∀ o : ObjectSpan, (o.up start).offset = o.offset + start :=
    fun o => Nat.add_comm start o.offset
  rw [hsize]
  constructor
  · intro h
    obtain ⟨xs, rfl⟩ : ∃ xs : List ObjectSpan, ys = xs.map (up start) := by
      refine ⟨ys.map fun o => { o with offset := o.offset - start }, ?_⟩
      rw [List.map_map]
      refine ((List.map_congr_left fun o ho => ?_).trans (List.map_id ys)).symm
      have hlow := (h.tiles.bounds o ho).1
      rw [Function.comp_apply, up]
      dsimp only
      rw [Nat.add_sub_cancel' hlow]
      rfl
    refine ⟨xs, rfl, (hends.mp h.tiles).of_map (fun o _ => hoffset o) fun _ _ => rfl, ?_⟩
    exact fun o ho => (found_extract hle hstop).mpr (h.found _ (List.mem_map_of_mem ho))
  · rintro ⟨xs, rfl, h⟩
    refine ⟨hends.mpr (Tiles.map h.tiles (fun o _ => hoffset o) fun _ _ => rfl), ?_⟩
    exact List.forall_mem_map.mpr fun o ho => (found_extract hle hstop).mp (h.found o ho)

end ObjectSpan

/-! ## Maps of a region -/

namespace RegionMaps

variable {b : ByteArray} {r : TypeRegistry} {slot : Nat} {native : Extent} {e : Extent}
variable {maps maps' : RegionMaps} {xs ys : List ObjectSpan}

/-- Some objects tile a region of an image, and the maps of the region mark where they have
references and where they have native pointers into the native image. -/
structure Describes (maps : RegionMaps) (b : ByteArray) (r : TypeRegistry) (slot : Nat)
    (native e : Extent) (xs : List ObjectSpan) : Prop where
  row : ObjectSpan.Row b r slot e.bottom xs e.top
  references : ∀ i, maps.references.contains i = true ↔
    ∃ o ∈ xs, ∃ k, o.type.kind.FieldAt o.header.length slot .reference k ∧
      o.offset + k = e.bottom + i * slot
  natives : ∀ i, maps.natives.contains i = true ↔
    ∃ o ∈ xs, ∃ k, o.type.kind.FieldAt o.header.length slot .native k ∧
      native.contains (Bytes.valueAt b (o.offset + k) wordSize) = true ∧
      o.offset + k = e.bottom + i * wordSize

/-- An image calls for one pair of maps only. -/
theorem Describes.unique (h : maps.Describes b r slot native e xs)
    (h' : maps'.Describes b r slot native e ys) :
    (∀ i, maps.references.contains i = maps'.references.contains i) ∧
      ∀ i, maps.natives.contains i = maps'.natives.contains i := by
  obtain rfl := h.row.unique h'.row
  constructor
  · intro i
    rw [Bool.eq_iff_iff, h.references, h'.references]
  · intro i
    rw [Bool.eq_iff_iff, h.natives, h'.natives]

/-- Maps with the same bits mark the same places. -/
theorem Describes.congr (h : maps.Describes b r slot native e xs)
    (hreferences : ∀ i, maps'.references.contains i = maps.references.contains i)
    (hnatives : ∀ i, maps'.natives.contains i = maps.natives.contains i) :
    maps'.Describes b r slot native e xs where
  row := h.row
  references i := by rw [hreferences, h.references]
  natives i := by rw [hnatives, h.natives]

/-- The number of a unit that a place is a multiple of. -/
theorem add_div_eq_iff {width start p k i : Nat} (hwidth : 0 < width) (hp : width ∣ p)
    (hk : width ∣ k) : (p + k) / width = i ↔ start + p + k = start + i * width := by
  rw [Nat.div_eq_iff_eq_mul_left hwidth (Nat.dvd_add hp hk), Nat.add_assoc, Nat.add_left_cancel_iff]

/-- **Derived maps** mark what the objects of the region call for. -/
theorem Marks.describes (hslot : IsSlotSize slot) (hle : e.bottom ≤ e.top) (htop : e.top ≤ b.size)
    (hrow : ObjectSpan.Row (b.extract e.bottom e.top) r slot 0 xs
      (b.extract e.bottom e.top).size)
    (hmarks : maps.Marks (b.extract e.bottom e.top) slot native xs) :
    maps.Describes b r slot native e (xs.map (ObjectSpan.up e.bottom)) := by
  have hsize : (b.extract e.bottom e.top).size = e.top - e.bottom := by
    rw [ByteArray.size_extract, Nat.min_eq_left htop]
  -- Objects and their fields stand at multiples of the unit, so a bit stands for one place only.
  have hword : ∀ o ∈ xs, wordSize ∣ o.offset := by
    refine (hrow.tiles.dvd (Nat.dvd_zero _) fun o ho => ?_).1
    rw [(hrow.found o ho).size]
    exact TypeKind.wordSize_dvd_objectSize ..
  refine ⟨(ObjectSpan.row_extract hle htop).mpr ⟨xs, rfl, hrow⟩, fun i => ?_, fun i => ?_⟩
  · rw [hmarks.references i]
    simp only [ObjectSpan.references, List.mem_map, exists_exists_and_eq_and]
    refine exists_congr fun o => and_congr_right fun ho => exists_congr fun k => ?_
    rw [TypeKind.mem_referenceOffsets]
    refine and_congr_right fun hk => ?_
    exact add_div_eq_iff hslot.pos (Nat.dvd_trans hslot.dvd_wordSize (hword o ho)) (hk.dvd hslot)
  · rw [hmarks.natives i]
    simp only [ObjectSpan.natives, List.mem_map, exists_exists_and_eq_and]
    refine exists_congr fun o => and_congr_right fun ho => exists_congr fun k => ?_
    rw [TypeKind.mem_nativeOffsets o.header.length]
    refine and_congr_right fun hk => ?_
    have hend := ((hrow.found o ho).slot_le hslot).2 (o.offset + k)
      (List.mem_map_of_mem ((TypeKind.mem_nativeOffsets o.header.length).mpr hk))
    rw [hsize] at hend
    rw [Bytes.valueAt_extract (by omega), ← Nat.add_assoc]
    exact and_congr_right fun _ => add_div_eq_iff (by decide) (hword o ho) (hk.dvd hslot)

end RegionMaps

/-! ## Archives -/

/-- Maps of the same size agree if they have the same members. -/
theorem crossCheck_eq_ok_of_size {derived recorded : BitMap} {region : Region}
    (hsize : derived.size = recorded.size) : crossCheck derived recorded 0 region = .ok () ↔
      ∀ i, recorded.contains i = derived.contains i := by
  rw [crossCheck_eq_ok, Nat.zero_add, hsize]
  constructor
  · rintro ⟨-, h⟩ i
    rcases Nat.lt_or_ge i recorded.size with hi | hi
    · rw [h i hi, Nat.zero_add]
    · rw [recorded.contains_eq_false_of_size_le hi,
        derived.contains_eq_false_of_size_le (hsize ▸ hi)]
  · intro h
    refine ⟨Nat.le_refl _, fun i _ => ?_⟩
    rw [h, Nat.zero_add]

namespace Archive

variable {a : Archive} {region : Region}

/-- **The check of one region** decides whether its maps mark what its objects call for. -/
theorem Sound.checkRegionMaps_eq_ok (h : a.Sound) : a.checkRegionMaps region = .ok () ↔
    ∃ xs, (a.maps region).Describes a.image a.types a.slotSize a.header.native
      (a.header.range region) xs := by
  obtain ⟨hle, htop⟩ := h.bounds region
  have hslot : IsSlotSize a.slotSize := a.encoding.isSlotSize
  have hrefSize : a.header.refSize.toNat = a.slotSize :=
    (ArchiveHeader.check_eq_ok.mp h.check).1.refSize
  have hsize : (a.image.extract (a.header.range region).bottom (a.header.range region).top).size =
      (a.header.range region).length := by
    rw [ByteArray.size_extract, Nat.min_eq_left htop]
    rfl
  -- A derived map has as many bits as the one that the archive has.
  have hderived : ∀ {derived : RegionMaps}, RegionMaps.derive (a.image.extract
      (a.header.range region).bottom (a.header.range region).top) a.types a.slotSize
      a.header.native = .ok derived → ∃ xs, derived.Describes a.image a.types a.slotSize
        a.header.native (a.header.range region) xs ∧
        derived.references.size = (a.maps region).references.size ∧
        derived.natives.size = (a.maps region).natives.size := by
    intro derived hderive
    obtain ⟨xs, hrow, hmarks⟩ := RegionMaps.of_derive hderive
    refine ⟨_, hmarks.describes hslot hle htop hrow, ?_, ?_⟩
    · rw [hmarks.sizeReferences, h.size_references, hsize]
    · rw [hmarks.sizeNatives, h.size_natives, hsize]
  rw [checkRegionMaps, hrefSize, Except.bind_eq_ok]
  constructor
  · rintro ⟨derived, hderive, hcheck⟩
    obtain ⟨⟨⟩, hreferences, hnatives⟩ := Except.bind_eq_ok.mp hcheck
    obtain ⟨xs, hdescribes, hrsize, hnsize⟩ := hderived hderive
    exact ⟨xs, hdescribes.congr ((crossCheck_eq_ok_of_size hrsize).mp hreferences)
      ((crossCheck_eq_ok_of_size hnsize).mp hnatives)⟩
  · -- Maps can be derived from any row of objects, and no two maps describe the same row.
    rintro ⟨ys, hdescribes⟩
    obtain ⟨xs, -, hrow⟩ := (ObjectSpan.row_extract hle htop).mp hdescribes.row
    have hbounds := fun o ho => (hrow.found o ho).slot_le hslot
    obtain ⟨derived, hderive⟩ : ∃ derived, RegionMaps.derive (a.image.extract
        (a.header.range region).bottom (a.header.range region).top) a.types a.slotSize
        a.header.native = .ok derived :=
      RegionMaps.exists_derive_of_row hslot.pos hrow (fun o ho => (hbounds o ho).1)
        fun o ho => (hbounds o ho).2
    obtain ⟨zs, hderives, hrsize, hnsize⟩ := hderived hderive
    obtain ⟨hreferences, hnatives⟩ := hdescribes.unique hderives
    exact ⟨derived, hderive, Except.bind_eq_ok.mpr ⟨⟨⟩,
      (crossCheck_eq_ok_of_size hrsize).mpr hreferences,
      (crossCheck_eq_ok_of_size hnsize).mpr hnatives⟩⟩

/-- **The check of maps is exact.** An archive that was read from a file passes it if and only if
each region is tiled from end to end by objects of registered types with lengths that these accept,
the bits of its reference map are set exactly for the reference fields and elements of these
objects, null or not, and the bits of its map of native pointers exactly for those native fields
whose value lies in the native range of the header. -/
theorem checkMaps_iff_describes {bytes : ByteArray} {checksum : Bool}
    (h : ofBytes bytes checksum = .ok a) : a.checkMaps = .ok () ↔
      ∀ region, ∃ xs, (a.maps region).Describes a.image a.types a.slotSize a.header.native
        (a.header.range region) xs := by
  rw [checkMaps, Except.forM_eq_ok]
  refine forall_congr' fun region => ?_
  rw [← (sound_of_ofBytes h).checkRegionMaps_eq_ok]
  exact ⟨fun hregion => hregion region.mem_all, fun hregion _ => hregion⟩

/-- The maps of a dumped cycle pass, and describe a row of objects each. -/
theorem checkMaps_iff_describes_cycle : ∃ a, ofBytes a.toBytes true = .ok a ∧
    a.checkMaps = .ok () ∧ ∀ region, ∃ xs, (a.maps region).Describes a.image a.types a.slotSize
      a.header.native (a.header.range region) xs := by
  have hok : ((dump .pairs .cycle .cycle .small).toOption.any fun a =>
      a.checkMaps.toOption.any fun _ => decide (a.fileSize < 2 ^ 64)) = true := by
    decide +kernel
  obtain ⟨a, hdump, hok⟩ := Except.exists_of_any hok
  obtain ⟨⟨⟩, hcheck, hsize⟩ := Except.exists_of_any hok
  obtain ⟨-, -, hread⟩ := sections_of_dump DumpOptions.inWords_small TypeRegistry.fitsTable_pairs
    hdump (of_decide_eq_true hsize)
  exact ⟨a, hread true, hcheck, (checkMaps_iff_describes (hread true)).mp hcheck⟩

end Archive

end HeapImage
