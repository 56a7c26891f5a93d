import HeapImage.Checked.Maps
import HeapImage.Proofs.DerivedMaps
import HeapImage.Proofs.SoundArchives

/-! # Walks without a fault

However the bytes of a region, its types and its maps have come about, walking through the region
and deriving its maps never asks for a byte or a bit that is not there. A walk makes at least one
header's worth of progress with each object, so it is as short as the region.

* `TypeKind.bounds_of_mem_referenceOffsets`, `TypeKind.bounds_of_mem_nativeOffsets`: an object has
  its slots.
* `ObjectSpan.exists_tiles_scan`: the objects in front of a fault tile the bytes in front of it.
* `Checked.scan_eq_ok`, `Checked.derive_eq_ok`, `Checked.crossCheck_eq_ok`: nothing goes wrong.
* `Archive.Sound.checkMaps_eq_ok`: checking the maps of an archive. -/

namespace HeapImage

/-! ## Slots of an object -/

/-- The fields of a record lie between its header and its end. -/
theorem RecordLayout.bounds_of_mem_zip {slot start : Nat} {fields : List FieldKind} {k : FieldKind}
    {i : Nat} (h : (k, i) ∈ fields.zip (fieldOffsets slot start fields)) :
    start ≤ i ∧ i + k.width slot ≤ fieldsEnd slot start fields := by
  induction fields generalizing start with
  | nil => cases h
  | cons kind fields ih =>
    have hle := le_alignUp start (kind.width slot)
    rcases List.mem_cons.mp h with heq | h
    · cases heq
      exact ⟨hle, le_fieldsEnd slot _ fields⟩
    · obtain ⟨hlow, hhigh⟩ := ih h
      exact ⟨by omega, hhigh⟩

/-- A field that is listed for its kind is one of the fields. -/
theorem RecordLayout.mem_zip_of_mem_offsetsOf {l : RecordLayout} {fields : List FieldKind}
    {kind : FieldKind} {i : Nat} (h : i ∈ l.offsetsOf fields kind) :
    (kind, i) ∈ fields.zip l.offsets := by
  obtain ⟨⟨k, j⟩, hmem, hsome⟩ := List.mem_filterMap.mp h
  dsimp only at hsome
  split at hsome
  · rename_i hkind
    cases hsome
    exact hkind ▸ hmem
  · cases hsome

namespace TypeKind

variable {kind : TypeKind} {length : UInt32} {slot i : Nat}

/-- The elements of an array lie in it. -/
theorem element_stop_le {i n width : Nat} (hi : i < n) :
    headerSize + i * width + width ≤ alignUp (headerSize + n * width) wordSize := by
  have hstop : (i + 1) * width ≤ n * width := Nat.mul_le_mul_right width hi
  have hsize := le_alignUp (headerSize + n * width) wordSize
  rw [Nat.succ_mul] at hstop
  omega

/-- The fields of a record lie in it. -/
theorem field_stop_le {kinds : List FieldKind} {k : FieldKind} (hslot : IsSlotSize slot)
    (h : (k, i) ∈ kinds.zip (RecordLayout.fieldOffsets slot headerSize kinds)) :
    headerSize ≤ i ∧ i + k.width slot ≤ (record kinds).objectSize length slot := by
  obtain ⟨hlow, hhigh⟩ := RecordLayout.bounds_of_mem_zip h
  refine ⟨hlow, Nat.le_trans hhigh ?_⟩
  rw [objectSize, hslot.slotWidth_eq]
  exact le_alignUp ..

/-- The reference slots of an object lie in it. -/
theorem bounds_of_mem_referenceOffsets (hslot : IsSlotSize slot)
    (h : i ∈ kind.referenceOffsets length slot) :
    headerSize ≤ i ∧ i + slot ≤ kind.objectSize length slot := by
  cases kind with
  | record fields =>
    have hmem := RecordLayout.mem_zip_of_mem_offsetsOf h
    rw [hslot.slotWidth_eq] at hmem
    exact field_stop_le hslot hmem
  | scalarArray size => cases h
  | referenceArray =>
    obtain ⟨k, hk, rfl⟩ := List.mem_map.mp h
    exact ⟨Nat.le_add_right .., element_stop_le (List.mem_range.mp hk)⟩

/-- The native pointers of an object lie in it. -/
theorem bounds_of_mem_nativeOffsets (h : i ∈ kind.nativeOffsets slot) :
    headerSize ≤ i ∧ i + wordSize ≤ kind.objectSize length slot := by
  cases kind with
  | record fields =>
    obtain ⟨hlow, hhigh⟩ :=
      RecordLayout.bounds_of_mem_zip (RecordLayout.mem_zip_of_mem_offsetsOf h)
    exact ⟨hlow, Nat.le_trans hhigh (le_alignUp ..)⟩
  | scalarArray size => cases h
  | referenceArray => cases h

end TypeKind

/-! ## Walks -/

namespace ObjectSpan

variable {b : ByteArray} {r : TypeRegistry} {slot offset start stop : Nat} {o : ObjectSpan}

/-- The slots of an object that has been found lie in front of the end of its region. -/
theorem Found.slot_le (h : o.Found b r slot stop) (hslot : IsSlotSize slot) :
    (∀ i ∈ o.references slot, i + slot ≤ stop) ∧ ∀ i ∈ o.natives slot, i + wordSize ≤ stop := by
  have hstop := h.stop_le
  rw [ObjectSpan.stop, h.size] at hstop
  constructor
  · intro i hi
    obtain ⟨k, hk, rfl⟩ := List.mem_map.mp hi
    have hk := (TypeKind.bounds_of_mem_referenceOffsets hslot hk).2
    omega
  · intro i hi
    obtain ⟨k, hk, rfl⟩ := List.mem_map.mp hi
    have hk : k + wordSize ≤ o.type.kind.objectSize o.header.length slot :=
      (TypeKind.bounds_of_mem_nativeOffsets hk).2
    omega

/-- A walk appends a row of objects that are found, and stops at the end of the row. -/
theorem exists_tiles_scanFrom (hle : offset ≤ stop) (found : Array ObjectSpan) :
    ∃ xs middle, (scanFrom b r slot stop offset found).1.toList = found.toList ++ xs ∧
      middle ≤ stop ∧ Tiles ObjectSpan.offset ObjectSpan.size offset xs middle ∧
      ∀ o ∈ xs, o.Found b r slot stop := by
  fun_induction scanFrom b r slot stop offset found with
  | case1 offset found _ fault hat =>
    exact ⟨[], offset, (List.append_nil _).symm, hle, rfl, fun o ho => absurd ho List.not_mem_nil⟩
  | case2 offset found hlt o hat ih =>
    obtain ⟨rfl, hfound⟩ := at?_eq_ok.mp hat
    obtain ⟨xs, middle, hxs, hmiddle, htiles, hall⟩ := ih hfound.stop_le
    refine ⟨o :: xs, middle, ?_, hmiddle, ⟨rfl, htiles⟩, ?_⟩
    · rw [hxs, Array.toList_push, List.append_assoc]
      rfl
    · exact List.forall_mem_cons.mpr ⟨hfound, hall⟩
  | case3 offset found hlt =>
    exact ⟨[], offset, (List.append_nil _).symm, hle, rfl, fun o ho => absurd ho List.not_mem_nil⟩

/-- **The objects of a walk** tile the bytes in front of the place where it stops. -/
theorem exists_tiles_scan (hle : start ≤ stop) : ∃ middle ≤ stop,
    Tiles ObjectSpan.offset ObjectSpan.size start (scan b r slot start stop).1 middle ∧
      ∀ o ∈ (scan b r slot start stop).1, o.Found b r slot stop := by
  obtain ⟨xs, middle, hxs, hmiddle, htiles, hall⟩ : ∃ xs middle,
      (scan b r slot start stop).1 = xs ∧ middle ≤ stop ∧ Tiles _ _ start xs middle ∧
        ∀ o ∈ xs, o.Found b r slot stop := exists_tiles_scanFrom hle #[]
  rw [hxs]
  exact ⟨middle, hmiddle, htiles, hall⟩

/-- **A walk ends** after no more objects than there are headers in the region. -/
theorem length_scan_le (b : ByteArray) (r : TypeRegistry) (slot : Nat) (hle : start ≤ stop) :
    headerSize * (scan b r slot start stop).1.length ≤ stop - start := by
  obtain ⟨middle, hmiddle, htiles, hall⟩ : ∃ middle ≤ stop,
      Tiles _ _ start (scan b r slot start stop).1 middle ∧
        ∀ o ∈ (scan b r slot start stop).1, o.Found b r slot stop := exists_tiles_scan hle
  have hlength := htiles.mul_length_le fun o ho => (hall o ho).headerSize_le
  omega

end ObjectSpan

namespace Checked

variable {b : ByteArray} {r : TypeRegistry} {slot offset start stop : Nat} {o : ObjectSpan}
variable {native : Extent}

/-- A scan inside the image finds what the plain one finds. -/
theorem scanFrom_eq_ok (hstop : stop ≤ b.size) (found : Array ObjectSpan) :
    scanFrom b r slot stop offset found =
      .ok (ObjectSpan.scanFrom b r slot stop offset found) := by
  fun_induction ObjectSpan.scanFrom b r slot stop offset found with
  | case1 offset found hlt fault hat =>
    rw [scanFrom, if_pos hlt, within_eq_ok (by omega)]
    dsimp only
    split <;> simp_all
  | case2 offset found hlt o hat ih =>
    rw [scanFrom, if_pos hlt, within_eq_ok (by omega)]
    dsimp only
    split <;> simp_all
  | case3 offset found hlt => rw [scanFrom, if_neg hlt]

/-- **A walk** through bytes that are there comes to no fault. -/
theorem scan_eq_ok (hstop : stop ≤ b.size) :
    scan b r slot start stop = .ok (ObjectSpan.scan b r slot start stop) := by
  rw [scan, scanFrom_eq_ok hstop]
  rfl

/-! ## Maps of a region -/

/-- Marking an object reads its native pointers, which have to be there, and sets bits. -/
theorem mark_eq_mapError {maps : RegionMaps} (h : ∀ i ∈ o.natives slot, i + wordSize ≤ b.size) :
    mark b slot native maps o = (RegionMaps.mark b slot native maps o).mapError .bounds := by
  have hreferences : (o.references slot).foldlM (fun m i => insert m (i / slot)) maps.references =
      ((o.references slot).foldlM (fun m i => BitMap.set? m (i / slot)) maps.references).mapError
        .bounds := Except.foldlM_mapError (fun i _ m => rfl) _
  have hnatives : (o.natives slot).foldlM (fun m i => do
        let value ← valueAt b i wordSize
        if native.contains value then insert m (i / wordSize) else return m) maps.natives =
      ((o.natives slot).foldlM (fun m i =>
        if native.contains (Bytes.valueAt b i wordSize) then BitMap.set? m (i / wordSize)
        else .ok m) maps.natives).mapError .bounds := by
    refine Except.foldlM_mapError (fun i hi m => ?_) _
    rw [valueAt_eq_ok (h i hi), ok_bind]
    by_cases hkeep : native.contains (Bytes.valueAt b i wordSize) = true
    · rw [if_pos hkeep, if_pos hkeep]
      rfl
    · rw [if_neg hkeep, if_neg hkeep]
      rfl
  rw [mark, RegionMaps.mark, Except.mapError_bind, hreferences]
  refine congrArg _ (funext fun references => ?_)
  rw [Except.mapError_bind, hnatives]
  rfl

/-- **Deriving maps** comes to no fault, whether the bytes are a region or not. -/
theorem derive_eq_ok (hslot : IsSlotSize slot) :
    derive b r slot native = .ok (RegionMaps.derive b r slot native) := by
  have hne : slot ≠ 0 := Nat.ne_of_gt hslot.pos
  have hfound : ∀ o ∈ (ObjectSpan.scan b r slot 0 b.size).1, o.Found b r slot b.size := by
    obtain ⟨middle, -, -, hfound⟩ := ObjectSpan.exists_tiles_scan (Nat.zero_le b.size)
    exact hfound
  obtain ⟨maps, hmaps⟩ : ∃ maps, (ObjectSpan.scan b r slot 0 b.size).1.foldlM
      (RegionMaps.mark b slot native) (RegionMaps.blank b.size slot) = .ok maps :=
    RegionMaps.exists_foldlM_mark hslot.pos (fun o ho => ((hfound o ho).slot_le hslot).1)
      fun o ho => ((hfound o ho).slot_le hslot).2
  rw [derive, if_neg hne, scan_eq_ok (Nat.le_refl _), RegionMaps.derive, if_neg hne]
  cases hscan : ObjectSpan.scan b r slot 0 b.size with
  | mk objects fault =>
    rw [hscan] at hfound hmaps
    have hmarks : objects.foldlM (mark b slot native) (RegionMaps.blank b.size slot) =
        (objects.foldlM (RegionMaps.mark b slot native) (RegionMaps.blank b.size slot)).mapError
          .bounds :=
      Except.foldlM_mapError
        (fun o ho maps => mark_eq_mapError ((hfound o ho).slot_le hslot).2) _
    rw [ok_bind]
    dsimp only
    rw [hmarks, hmaps]
    cases fault <;> rfl

/-- The bits of two maps can be compared as far as both go. -/
theorem difference?_eq_ok {derived recorded : BitMap} {first : Nat} {is : List Nat}
    (h : ∀ i ∈ is, i < derived.size ∧ first + i < recorded.size) :
    difference? derived recorded first is =
      .ok (is.find? fun i => derived.contains i != recorded.contains (first + i)) := by
  induction is with
  | nil => rfl
  | cons i is ih =>
    obtain ⟨⟨hderived, hrecorded⟩, h⟩ := List.forall_mem_cons.mp h
    rw [difference?, contains_eq_ok hderived, contains_eq_ok hrecorded, ok_bind, ok_bind, ih h,
      List.find?_cons]
    cases derived.contains i != recorded.contains (first + i) <;> rfl

/-- **Comparing maps** comes to no fault. -/
theorem crossCheck_eq_ok (derived recorded : BitMap) (first : Nat) (region : Region) :
    crossCheck derived recorded first region =
      .ok (HeapImage.crossCheck derived recorded first region) := by
  rw [crossCheck, HeapImage.crossCheck]
  split
  · rfl
  · rename_i hsize
    rw [difference?_eq_ok fun i hi => ?_]
    · rw [ok_bind]
      cases (List.range derived.size).find? fun i =>
        derived.contains i != recorded.contains (first + i) <;> rfl
    · have hi := List.mem_range.mp hi
      exact ⟨hi, by omega⟩

end Checked

/-! ## Maps of an archive -/

/-- **Checking the maps** of an archive that was read comes to no fault, whatever its image and its
maps are. -/
theorem Archive.Sound.checkMaps_eq_ok {a : Archive} (h : a.Sound) :
    Checked.checkMaps a = .ok a.checkMaps := by
  have hslot : IsSlotSize a.header.refSize.toNat :=
    (ArchiveHeader.check_eq_ok.mp h.check).1.refSize ▸ ReferenceEncoding.isSlotSize _
  have hregion : ∀ region, Checked.checkRegionMaps a region = .ok (a.checkRegionMaps region) := by
    intro region
    obtain ⟨hle, htop⟩ := h.bounds region
    rw [Checked.checkRegionMaps, Archive.checkRegionMaps, Checked.sub_eq_ok hle, Checked.ok_bind,
      Checked.slice_eq_ok (by omega), Checked.ok_bind, Nat.add_sub_cancel' hle,
      Checked.derive_eq_ok hslot, Checked.ok_bind]
    cases RegionMaps.derive _ _ _ _ with
    | error e => rfl
    | ok derived =>
      show _ = Except.ok (crossCheck derived.references (a.maps region).references 0 region >>=
        fun _ => crossCheck derived.natives (a.maps region).natives 0 region)
      dsimp only
      rw [Checked.crossCheck_eq_ok, Checked.ok_bind, Checked.crossCheck_eq_ok]
      cases crossCheck derived.references (a.maps region).references 0 region <;> rfl
  show _ = Except.ok (a.checkRegionMaps .opened >>= fun _ =>
    a.checkRegionMaps .closed >>= fun _ => pure ())
  rw [Checked.checkMaps, hregion, hregion, Checked.ok_bind]
  cases a.checkRegionMaps .opened with
  | error e => rfl
  | ok u => cases a.checkRegionMaps .closed <;> rfl

end HeapImage
