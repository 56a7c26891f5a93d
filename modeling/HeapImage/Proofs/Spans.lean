import HeapImage.Proofs.BitMapSearch
import HeapImage.Proofs.ByteView
import HeapImage.Proofs.Steps
import HeapImage.Proofs.Tiling
import HeapImage.Region.Maps

/-! # Objects found in a region

A walk through a region that ends without a fault has tiled the region with objects, and marking
their slots gives the maps of the region.

* `ObjectSpan.Found`: what it takes to find an object at its offset.
* `ObjectSpan.scan_eq`: a walk without a fault, as a row of objects that are found.
* `RegionMaps.Marks`, `RegionMaps.of_derive`: what is in derived maps. -/

namespace HeapImage

namespace ObjectSpan

variable {b : ByteArray} {r : TypeRegistry} {slot offset start stop : Nat} {o : ObjectSpan}

/-- The object can be found where it says it is. -/
structure Found (o : ObjectSpan) (b : ByteArray) (r : TypeRegistry) (slot stop : Nat) : Prop where
  header : ObjectHeader.read? b o.offset = some o.header
  type : r.get? o.header.typeIndex = some o.type
  length : o.type.kind.acceptsLength o.header.length = true
  size : o.size = o.type.kind.objectSize o.header.length slot
  stop_le : o.stop ≤ stop

/-- An object that is found has room for its header. -/
theorem Found.headerSize_le (h : o.Found b r slot stop) : headerSize ≤ o.size := by
  rw [h.size]
  exact TypeKind.headerSize_le_objectSize ..

/-- An object that is found takes up memory. -/
theorem Found.size_pos (h : o.Found b r slot stop) : 0 < o.size :=
  Nat.lt_of_lt_of_le (by decide) h.headerSize_le

/-- The object at an offset. -/
theorem at?_eq_ok :
    at? b r slot offset stop = .ok o ↔ o.offset = offset ∧ o.Found b r slot stop := by
  constructor
  · intro h
    rw [at?] at h
    split at h
    · cases h
    · split at h
      · cases h
      · rename_i header hheader
        split at h
        · cases h
        · rename_i type htype
          split at h
          · rename_i hlength
            dsimp only at h
            split at h
            · cases h
            · rename_i hstop
              cases h
              exact ⟨rfl, hheader, htype, hlength, rfl, Nat.not_lt.mp hstop⟩
          · cases h
  · rintro ⟨rfl, h⟩
    have hsize := h.headerSize_le
    have hstop := h.stop_le
    rw [ObjectSpan.stop] at hstop
    have hfull : ¬ stop < o.offset + headerSize := by omega
    have hover : ¬ stop < o.offset + o.type.kind.objectSize o.header.length slot := by
      rw [← h.size]
      omega
    rw [at?, if_neg hfull, h.header]
    dsimp only
    rw [h.type]
    dsimp only
    rw [if_pos h.length, if_neg hover, ← h.size]

/-- Objects back to back that can all be found. -/
structure Row (b : ByteArray) (r : TypeRegistry) (slot start : Nat) (xs : List ObjectSpan)
    (stop : Nat) : Prop where
  tiles : Tiles ObjectSpan.offset ObjectSpan.size start xs stop
  found : ∀ o ∈ xs, o.Found b r slot stop

/-- Nothing is left at the end. -/
theorem Row.nil : Row b r slot stop [] stop where
  tiles := rfl
  found _ ho := nomatch ho

/-- The objects of a row take up memory. -/
theorem Row.size_pos {xs : List ObjectSpan} (h : Row b r slot start xs stop) :
    ∀ o ∈ xs, 0 < o.size := fun o ho => (h.found o ho).size_pos

/-- Only the header of an object matters for finding it. -/
theorem Found.congr {b' : ByteArray} (h : o.Found b r slot stop) (hsize : b'.size = b.size)
    (hbytes : ∀ k < headerSize, Bytes.get b' (o.offset + k) = Bytes.get b (o.offset + k)) :
    o.Found b' r slot stop := by
  refine ⟨?_, h.type, h.length, h.size, h.stop_le⟩
  have hhead : headerSize = wordSize + wordSize := rfl
  have hmark : Bytes.number (Bytes.get b') o.offset wordSize =
      Bytes.number (Bytes.get b) o.offset wordSize :=
    Bytes.number_congr fun k hk => hbytes k (by omega)
  have hlayout : Bytes.number (Bytes.get b') (o.offset + wordSize) wordSize =
      Bytes.number (Bytes.get b) (o.offset + wordSize) wordSize := by
    apply Bytes.number_congr
    intro k hk
    rw [Nat.add_assoc]
    exact hbytes _ (by omega)
  rw [← h.header, ObjectHeader.read?, ObjectHeader.read?, hsize]
  simp only [Bytes.valueAt_eq_number, hmark, hlayout]

/-- Only the bytes of the region matter for its objects. -/
theorem Row.congr {b' : ByteArray} {xs : List ObjectSpan} (h : Row b r slot start xs stop)
    (hsize : b'.size = b.size)
    (hbytes : ∀ j, start ≤ j → j < stop → Bytes.get b' j = Bytes.get b j) :
    Row b' r slot start xs stop := by
  refine ⟨h.tiles, ?_⟩
  intro o ho
  have hfound := h.found o ho
  have hbounds := h.tiles.bounds o ho
  have hheader := hfound.headerSize_le
  exact hfound.congr hsize fun k hk => hbytes _ (by omega) (by omega)

/-- A scan that comes to the end has found a row. -/
theorem Row.of_scanFrom {found found' : Array ObjectSpan} (hle : offset ≤ stop)
    (h : scanFrom b r slot stop offset found = (found', none)) :
    ∃ xs, found'.toList = found.toList ++ xs ∧ Row b r slot offset xs stop := by
  fun_induction scanFrom b r slot stop offset found with
  | case1 offset found _ fault hat => cases h
  | case2 offset found hlt o hat ih =>
    obtain ⟨hoffset, hfound⟩ := at?_eq_ok.mp hat
    have hstop := hfound.stop_le
    rw [ObjectSpan.stop, hoffset] at hstop
    obtain ⟨xs, hxs, hrow⟩ := ih hstop h
    refine ⟨o :: xs, ?_, ⟨hoffset, hrow.tiles⟩, ?_⟩
    · rw [hxs, Array.toList_push, List.append_assoc]
      rfl
    · intro o' ho'
      rcases List.mem_cons.mp ho' with rfl | ho'
      · exact hfound
      · exact hrow.found o' ho'
  | case3 offset found hlt =>
    cases h
    have heq : offset = stop := Nat.le_antisymm hle (Nat.not_lt.mp hlt)
    exact ⟨[], (List.append_nil _).symm, heq ▸ Row.nil⟩

/-- A row is what a scan finds. -/
theorem Row.scanFrom_eq {xs : List ObjectSpan} (h : Row b r slot offset xs stop)
    (found : Array ObjectSpan) :
    scanFrom b r slot stop offset found = (found ++ xs.toArray, none) := by
  induction xs generalizing offset found with
  | nil =>
    obtain rfl : offset = stop := h.tiles
    rw [scanFrom, if_neg (Nat.lt_irrefl _), Array.append_empty]
  | cons o xs ih =>
    obtain ⟨hoffset, htiles⟩ := h.tiles
    have hfound := h.found o (List.mem_cons_self ..)
    have hle := htiles.le
    have hpos := hfound.size_pos
    have hat : at? b r slot offset stop = .ok o := at?_eq_ok.mpr ⟨hoffset, hfound⟩
    rw [scanFrom, if_pos (by omega)]
    split
    · rename_i fault hfault
      rw [hat] at hfault
      cases hfault
    · rename_i o' ho'
      obtain rfl := Except.ok.inj (hat.symm.trans ho')
      rw [ih ⟨htiles, fun o ho => h.found o (List.mem_cons_of_mem _ ho)⟩]
      simp

/-- **A walk without a fault** has gone through a row of objects. -/
theorem scan_eq {xs : List ObjectSpan} (hle : start ≤ stop) :
    scan b r slot start stop = (xs, none) ↔ Row b r slot start xs stop := by
  rw [scan]
  constructor
  · intro h
    cases hfrom : scanFrom b r slot stop start #[] with
    | mk found fault =>
      rw [hfrom] at h
      cases h
      obtain ⟨xs, hxs, hrow⟩ := Row.of_scanFrom hle hfrom
      rw [hxs]
      exact hrow
  · intro h
    rw [h.scanFrom_eq]
    simp

end ObjectSpan

namespace RegionMaps

variable {b : ByteArray} {r : TypeRegistry} {slot : Nat} {native : Extent}
variable {maps maps' : RegionMaps}

/-- The bits of two maps are those of the reference slots and of the native pointers into a native
image that some objects have. -/
structure Marks (maps : RegionMaps) (b : ByteArray) (slot : Nat) (native : Extent)
    (xs : List ObjectSpan) : Prop where
  sizeReferences : maps.references.size = b.size / slot
  sizeNatives : maps.natives.size = b.size / wordSize
  references : ∀ i, maps.references.contains i = true ↔
    ∃ o ∈ xs, ∃ k ∈ o.references slot, k / slot = i
  natives : ∀ i, maps.natives.contains i = true ↔
    ∃ o ∈ xs, ∃ k ∈ o.natives slot, native.contains (Bytes.valueAt b k wordSize) = true ∧
      k / wordSize = i

/-- Blank maps mark nothing. -/
theorem marks_blank : (blank b.size slot).Marks b slot native [] where
  sizeReferences := rfl
  sizeNatives := rfl
  references i := by
    rw [blank, BitMap.contains_empty]
    simp
  natives i := by
    rw [blank, BitMap.contains_empty]
    simp

/-- Setting the bits of some of the places. -/
theorem contains_of_foldlM {ks : List Nat} (keep : Nat → Bool) {width : Nat} {m m' : BitMap}
    (h : ks.foldlM (fun m k => if keep k then m.set? (k / width) else .ok m) m = .ok m') :
    m'.size = m.size ∧ ∀ i, m'.contains i = true ↔
      m.contains i = true ∨ ∃ k ∈ ks, keep k = true ∧ k / width = i := by
  refine Except.foldlM_induction (fun done w => w.size = m.size ∧ ∀ i, w.contains i = true ↔
    m.contains i = true ∨ ∃ k ∈ done, keep k = true ∧ k / width = i) h ⟨rfl, by simp⟩ ?_
  -- The bits that are set are the old ones and those of the places so far.
  rintro done k w w' - ⟨hsize, hmem⟩ hstep
  simp only [List.mem_append, List.mem_singleton, or_and_right, exists_or, exists_eq_left]
  split at hstep
  · rename_i hkeep
    obtain ⟨hlt, rfl⟩ := BitMap.set?_eq_ok.mp hstep
    refine ⟨(BitMap.size_insert ..).trans hsize, ?_⟩
    intro i
    rw [BitMap.contains_insert hlt, Bool.or_eq_true, decide_eq_true_eq, hmem i]
    constructor
    · rintro (hi | hm | hdone)
      · exact .inr (.inr ⟨hkeep, hi⟩)
      · exact .inl hm
      · exact .inr (.inl hdone)
    · rintro (hm | hdone | ⟨-, hi⟩)
      · exact .inr (.inl hm)
      · exact .inr (.inr hdone)
      · exact .inl hi
  · rename_i hkeep
    cases hstep
    refine ⟨hsize, ?_⟩
    intro i
    rw [hmem i]
    constructor
    · rintro (hm | hdone)
      · exact .inl hm
      · exact .inr (.inl hdone)
    · rintro (hm | hdone | ⟨hk, -⟩)
      · exact .inl hm
      · exact .inr hdone
      · exact absurd hk hkeep

/-- Marking one more object. -/
theorem Marks.step {xs : List ObjectSpan} {o : ObjectSpan} (hm : maps.Marks b slot native xs)
    (h : mark b slot native maps o = .ok maps') : maps'.Marks b slot native (xs ++ [o]) := by
  rw [mark, Except.bind_eq_ok] at h
  obtain ⟨references, hreferences, h⟩ := h
  obtain ⟨natives, hnatives, h⟩ := Except.bind_eq_ok.mp h
  rw [Except.pure_eq_ok] at h
  subst h
  obtain ⟨hrsize, hrmem⟩ := contains_of_foldlM (fun _ => true) hreferences
  obtain ⟨hnsize, hnmem⟩ :=
    contains_of_foldlM (fun k => native.contains (Bytes.valueAt b k wordSize)) hnatives
  refine ⟨hrsize.trans hm.sizeReferences, hnsize.trans hm.sizeNatives, ?_, ?_⟩
  · intro i
    rw [hrmem i, hm.references i]
    simp only [true_and, List.mem_append, List.mem_singleton, or_and_right, exists_or,
      exists_eq_left]
  · intro i
    rw [hnmem i, hm.natives i]
    simp only [List.mem_append, List.mem_singleton, or_and_right, exists_or, exists_eq_left]

/-- **Derived maps** mark the objects that the region is made of. -/
theorem of_derive (h : derive b r slot native = .ok maps) :
    ∃ xs, ObjectSpan.Row b r slot 0 xs b.size ∧ maps.Marks b slot native xs := by
  rw [derive, Except.guard_eq_ok] at h
  obtain ⟨-, h⟩ := h
  cases hscan : ObjectSpan.scan b r slot 0 b.size with
  | mk xs fault =>
    rw [hscan] at h
    obtain ⟨done, hdone, h⟩ := Except.bind_eq_ok.mp h
    cases fault with
    | some fault => cases h
    | none =>
      obtain rfl := Except.pure_eq_ok.mp h
      refine ⟨xs, (ObjectSpan.scan_eq (Nat.zero_le _)).mp hscan, ?_⟩
      have hfold : xs.foldlM (mark b slot native) (blank b.size slot) = .ok done := by
        cases hf : xs.foldlM (mark b slot native) (blank b.size slot) with
        | error e =>
          rw [hf] at hdone
          cases hdone
        | ok w =>
          rw [hf] at hdone
          exact congrArg Except.ok (Except.ok.inj hdone)
      exact Except.foldlM_induction (fun seen w => w.Marks b slot native seen) hfold marks_blank
        fun seen o w w' _ hw hstep => hw.step hstep

end RegionMaps

end HeapImage
