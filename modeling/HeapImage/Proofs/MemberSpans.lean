import HeapImage.Proofs.Members
import HeapImage.Proofs.Spans

/-! # Members found in a region

A walk through the bytes of a region finds the members that the region holds, so the maps that are
derived from the bytes mark the cells of these members.

* `Placed.span`, `Placed.Row.spans`: the members of a region as objects that are found.
* `ObjectSpan.Row.unique`: bytes hold one row of objects at most.
* `RegionMaps.MarksMembers`, `RegionMaps.marksMembers_of_derive`: what derived maps mark. -/

namespace HeapImage

namespace Placed

/-- The object that a walk finds where the member is. -/
def span (slot : Nat) (x : Placed) : ObjectSpan :=
  ⟨x.offset, x.member.object.header, x.member.type, x.member.size slot⟩

/-- The member with its place counted from another one. -/
def down (base : Nat) (x : Placed) : Placed := ⟨x.member, x.offset - base⟩

variable {g : ObjectGraph} {r : TypeRegistry} {roots : List ObjectId} {slot start stop : Nat}
variable {ref : ObjectId → Nat} {native : UInt64 → UInt64} {b : ByteArray} {x : Placed}
variable {xs : List Placed}

/-- A member that an array holds is found there. -/
theorem found_span (hof : x.member.Of g r roots) (hheld : x.Held slot ref native (Bytes.get b))
    (hstop : x.stop slot ≤ stop) (hsize : stop ≤ b.size) : (x.span slot).Found b r slot stop where
  header := by
    have hheader := x.member.headerSize_le_size slot
    rw [Placed.stop] at hstop
    exact hheld.read_header (by omega)
  type := hof.type
  length := SourceObject.acceptsLength hof.fits hof.length_lt
  size := rfl
  stop_le := hstop

/-- **Members that stand back to back** are found as a row of objects. -/
theorem Row.spans (h : Row slot start xs stop) (hof : ∀ x ∈ xs, x.member.Of g r roots)
    (hheld : ∀ x ∈ xs, x.Held slot ref native (Bytes.get b)) (hsize : stop ≤ b.size) :
    ObjectSpan.Row b r slot start (xs.map (span slot)) stop where
  tiles := Tiles.map (d := 0) h (fun _ _ => rfl) fun _ _ => rfl
  found := by
    intro o ho
    obtain ⟨x, hx, rfl⟩ := List.mem_map.mp ho
    exact found_span (hof x hx) (hheld x hx) (h.bounds x hx).2 hsize

/-- Members that stand back to back, counted from another place. -/
theorem Row.down {base : Nat} (h : Row slot start xs stop) (hbase : base ≤ start) :
    Row slot (start - base) (xs.map (down base)) (stop - base) := by
  induction xs generalizing start with
  | nil => exact congrArg (· - base) h
  | cons x xs ih =>
    have hnext := ih h.2 (Nat.le_add_right_of_le hbase)
    rw [Nat.sub_add_comm hbase] at hnext
    exact ⟨congrArg (· - base) h.1, hnext⟩

/-- A part of an array holds what stands in it. -/
theorem Held.down {base : Nat} (h : x.Held slot ref native (Bytes.get b))
    (hof : x.member.Of g r roots) (hslot : IsSlotSize slot) (hbase : base ≤ x.offset)
    (hstop : x.stop slot ≤ stop) :
    (x.down base).Held slot ref native (Bytes.get (b.extract base stop)) := by
  apply Member.HeldAt.congr h hof hslot
  intro k hk
  have hplace : base + (x.offset - base + k) = x.offset + k := by omega
  rw [Placed.stop] at hstop
  rw [Placed.down, Bytes.get_extract, hplace, if_pos (by omega)]

/-- The bytes of a region hold what stands in it. -/
theorem Row.held_down (h : Row slot start xs stop) (hslot : IsSlotSize slot)
    (hof : ∀ x ∈ xs, x.member.Of g r roots)
    (hheld : ∀ x ∈ xs, x.Held slot ref native (Bytes.get b)) : ∀ x ∈ xs,
      (x.down start).Held slot ref native (Bytes.get (b.extract start stop)) :=
  fun x hx => (hheld x hx).down (hof x hx) hslot (h.bounds x hx).1 (h.bounds x hx).2

/-- **The members of a region** are found in its bytes. -/
theorem Row.spans_extract (h : Row slot start xs stop) (hslot : IsSlotSize slot)
    (hof : ∀ x ∈ xs, x.member.Of g r roots)
    (hheld : ∀ x ∈ xs, x.Held slot ref native (Bytes.get b)) (hsize : stop ≤ b.size) :
    ObjectSpan.Row (b.extract start stop) r slot 0 ((xs.map (Placed.down start)).map (span slot))
      (b.extract start stop).size := by
  have hlength : (b.extract start stop).size = stop - start := by
    rw [ByteArray.size_extract, Nat.min_eq_left hsize]
  have hrow := h.down (Nat.le_refl start)
  rw [Nat.sub_self] at hrow
  rw [hlength]
  exact hrow.spans (List.forall_mem_map.mpr hof)
    (List.forall_mem_map.mpr (h.held_down hslot hof hheld)) (Nat.le_of_eq hlength.symm)

end Placed

/-- Bytes hold one row of objects at most. -/
theorem ObjectSpan.Row.unique {b : ByteArray} {r : TypeRegistry} {slot start stop : Nat}
    {xs ys : List ObjectSpan} (hxs : Row b r slot start xs stop)
    (hys : Row b r slot start ys stop) :
    xs = ys := by
  have hscan := (scan_eq hxs.tiles.le).mpr hxs
  rw [(scan_eq hys.tiles.le).mpr hys] at hscan
  exact (congrArg Prod.fst hscan).symm

namespace RegionMaps

/-- The bits of two maps are those of the references of some members, and of their native pointers
into a native image. Places are counted from the start of the region. -/
structure MarksMembers (maps : RegionMaps) (slot bottom : Nat) (native : Extent)
    (xs : List Placed) : Prop where
  references : ∀ i, maps.references.contains i = true ↔
    ∃ x ∈ xs, ∃ k ∈ x.member.referenceOffsets slot, x.offset + k = bottom + i * slot
  natives : ∀ i, maps.natives.contains i = true ↔
    ∃ x ∈ xs, ∃ c ∈ x.member.cells slot, ∃ v, c.value = .native v ∧
      native.contains v.toNat = true ∧ x.offset + c.offset = bottom + i * wordSize

/-- A multiple of a width behind a place is the one with its number. -/
theorem div_eq_iff_eq_add_mul {width bottom p k i : Nat} (hwidth : 0 < width) (hle : bottom ≤ p)
    (hp : width ∣ p - bottom) (hk : width ∣ k) :
    (p - bottom + k) / width = i ↔ p + k = bottom + i * width := by
  obtain ⟨m, hm⟩ := hp
  obtain ⟨n, rfl⟩ := hk
  rw [hm, ← Nat.mul_add, Nat.mul_div_cancel_left _ hwidth]
  have hsum : p + width * n = bottom + width * (m + n) := by
    rw [Nat.mul_add]
    omega
  rw [hsum, Nat.add_left_cancel_iff, Nat.mul_comm i, Nat.mul_right_inj (Nat.ne_of_gt hwidth)]

/-- **Maps derived** from a region mark the members that it holds. -/
theorem marksMembers_of_derive {maps : RegionMaps} {b : ByteArray} {g : ObjectGraph}
    {r : TypeRegistry} {roots : List ObjectId} {slot bottom top : Nat} {native : Extent}
    {ref : ObjectId → Nat} {xs : List Placed} (hslot : IsSlotSize slot)
    (hrow : Placed.Row slot bottom xs top) (hof : ∀ x ∈ xs, x.member.Of g r roots)
    (hheld : ∀ x ∈ xs, x.Held slot ref id (Bytes.get b)) (htop : top ≤ b.size)
    (h : derive (b.extract bottom top) r slot native = .ok maps) :
    maps.MarksMembers slot bottom native xs := by
  obtain ⟨spans, hspans, hmarks⟩ := of_derive h
  have hbounds := hrow.bounds
  have hdown := hrow.held_down hslot hof hheld
  rw [hspans.unique (hrow.spans_extract hslot hof hheld htop)] at hmarks
  have hdvd : ∀ x ∈ xs, wordSize ∣ x.offset - bottom :=
    (hrow.dvd_sub fun x _ => x.member.wordSize_dvd_size slot).1
  constructor
  · intro i
    rw [hmarks.references i]
    constructor
    · rintro ⟨o, ho, k, hk, hi⟩
      obtain ⟨y, hy, rfl⟩ := List.mem_map.mp ho
      obtain ⟨x, hx, rfl⟩ := List.mem_map.mp hy
      obtain ⟨j, hj, rfl⟩ := List.mem_map.mp hk
      have hj' := ((hof x hx).bounds_of_referenceOffsets hslot hj).2.2
      exact ⟨x, hx, j, hj, (div_eq_iff_eq_add_mul hslot.pos (hbounds x hx).1
        (Nat.dvd_trans hslot.dvd_wordSize (hdvd x hx)) hj').mp hi⟩
    · rintro ⟨x, hx, j, hj, hi⟩
      have hj' := ((hof x hx).bounds_of_referenceOffsets hslot hj).2.2
      exact ⟨_, List.mem_map_of_mem (List.mem_map_of_mem hx), _, List.mem_map_of_mem hj,
        (div_eq_iff_eq_add_mul hslot.pos (hbounds x hx).1
          (Nat.dvd_trans hslot.dvd_wordSize (hdvd x hx)) hj').mpr hi⟩
  · intro i
    -- The number in a cell with a native pointer is the pointer.
    have hvalue : ∀ x ∈ xs, ∀ c ∈ x.member.cells slot, ∀ v, c.value = .native v →
        Bytes.valueAt (b.extract bottom top) (x.offset - bottom + c.offset) wordSize = v.toNat := by
      intro x hx c hc v hv
      have hcell := (hdown x hx).cells c hc
      rw [((hof x hx).width_of_native hslot hc hv).1, hv] at hcell
      rw [Bytes.valueAt_eq_number]
      exact hcell
    rw [hmarks.natives i]
    constructor
    · rintro ⟨o, ho, k, hk, hnative, hi⟩
      obtain ⟨y, hy, rfl⟩ := List.mem_map.mp ho
      obtain ⟨x, hx, rfl⟩ := List.mem_map.mp hy
      obtain ⟨j, hj, rfl⟩ := List.mem_map.mp hk
      obtain ⟨c, hc, rfl, v, hv⟩ := ((hof x hx).mem_nativeOffsets hslot).mp hj
      have hc' := ((hof x hx).width_of_native hslot hc hv).2
      refine ⟨x, hx, c, hc, v, hv, ?_,
        (div_eq_iff_eq_add_mul (by decide) (hbounds x hx).1 (hdvd x hx) hc').mp hi⟩
      rw [← hvalue x hx c hc v hv]
      exact hnative
    · rintro ⟨x, hx, c, hc, v, hv, hnative, hi⟩
      have hj := ((hof x hx).mem_nativeOffsets hslot).mpr ⟨c, hc, rfl, v, hv⟩
      have hc' := ((hof x hx).width_of_native hslot hc hv).2
      refine ⟨_, List.mem_map_of_mem (List.mem_map_of_mem hx), _, List.mem_map_of_mem hj, ?_,
        (div_eq_iff_eq_add_mul (by decide) (hbounds x hx).1 (hdvd x hx) hc').mpr hi⟩
      rw [← hvalue x hx c hc v hv] at hnative
      exact hnative

namespace MarksMembers

variable {maps : RegionMaps} {g : ObjectGraph} {r : TypeRegistry} {roots : List ObjectId}
variable {slot bottom top : Nat} {native : Extent} {xs : List Placed}

/-- The places that the map of references marks are the members' slots. -/
theorem mem_slots (h : maps.MarksMembers slot bottom native xs) (hslot : IsSlotSize slot)
    (hrow : Placed.Row slot bottom xs top) (hof : ∀ x ∈ xs, x.member.Of g r roots) {i : Nat} :
    i ∈ (maps.references.toList.map fun bit => bottom + bit * slot) ↔ i ∈ Placed.slots xs slot := by
  rw [List.mem_map, Placed.mem_slots]
  constructor
  · rintro ⟨bit, hbit, rfl⟩
    obtain ⟨x, hx, k, hk, heq⟩ := (h.references bit).mp (BitMap.mem_toList.mp hbit)
    exact ⟨x, hx, k, hk, heq.symm⟩
  · rintro ⟨x, hx, k, hk, rfl⟩
    have hle := (hrow.bounds x hx).1
    obtain ⟨m, hm⟩ := Nat.dvd_trans hslot.dvd_wordSize
      ((hrow.dvd_sub fun x _ => x.member.wordSize_dvd_size slot).1 x hx)
    obtain ⟨n, rfl⟩ := ((hof x hx).bounds_of_referenceOffsets hslot hk).2.2
    have heq : x.offset + slot * n = bottom + (m + n) * slot := by
      rw [Nat.mul_comm (m + n), Nat.mul_add]
      omega
    exact ⟨m + n, BitMap.mem_toList.mpr ((h.references _).mpr ⟨x, hx, _, hk, heq⟩), heq.symm⟩

/-- The places that the map of native pointers marks are those of the members. -/
theorem mem_natives (h : maps.MarksMembers slot bottom native xs) (hslot : IsSlotSize slot)
    (hrow : Placed.Row slot bottom xs top) (hof : ∀ x ∈ xs, x.member.Of g r roots) {i : Nat} :
    i ∈ (maps.natives.toList.map fun bit => bottom + bit * wordSize) ↔
      Placed.NativeAt xs slot native i := by
  rw [List.mem_map]
  constructor
  · rintro ⟨bit, hbit, rfl⟩
    obtain ⟨x, hx, c, hc, v, hv, hin, heq⟩ := (h.natives bit).mp (BitMap.mem_toList.mp hbit)
    exact ⟨x, hx, c, hc, v, hv, hin, heq.symm⟩
  · rintro ⟨x, hx, c, hc, v, hv, hin, rfl⟩
    have hle := (hrow.bounds x hx).1
    obtain ⟨m, hm⟩ := (hrow.dvd_sub fun x _ => x.member.wordSize_dvd_size slot).1 x hx
    obtain ⟨n, hn⟩ := ((hof x hx).width_of_native hslot hc hv).2
    have heq : x.offset + c.offset = bottom + (m + n) * wordSize := by
      rw [hn, Nat.mul_comm (m + n), Nat.mul_add]
      omega
    exact ⟨m + n, BitMap.mem_toList.mpr ((h.natives _).mpr ⟨x, hx, c, hc, v, hv, hin, heq⟩),
      heq.symm⟩

end MarksMembers

end RegionMaps

end HeapImage
