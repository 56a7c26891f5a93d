import HeapImage.Proofs.MemberSpans
import HeapImage.Proofs.MovedReferences
import HeapImage.Proofs.SoundArchives

/-! # Patching an image

A region is patched in two passes, one over its references and one over its native pointers. They
leave the members behind with other referents and other native pointers, and touch nothing outside
the region.

* `Patching.moves_of_references`, `Patching.rewrites_of_natives`: the two passes.
* `Patching.error_of_region`: where patching a region fails.
* `Patching.rewrites_of_region`, `Patching.outside_of_region`: both passes over a region.
* `Patching.held_of_region`: the members of a patched region.
* `Archive.Sound.bounds_of_mem_slots`, `Archive.Sound.closed_of_opened`: what is patched of an
  archive that has been read. -/

namespace HeapImage

/-- An adjusted reference, null staying null. -/
inductive Rebasing.Moves (m : Rebasing) (position : Nat) : (old new : Nat) → Prop
  | null : Moves m position 0 0
  | value {old value : Nat} : old ≠ 0 → m.value position old = .ok value →
    Moves m position old (value % 256 ^ m.slotSize)

namespace Patching

variable {m : Rebasing} {delta : UInt64} {p p' : Patching}

/-- The places of the bits of a map do not overlap. -/
theorem places_pairwise (bits : BitMap) (start width : Nat) :
    (bits.toList.map fun bit => start + bit * width).Pairwise (Apart width) := by
  rw [List.pairwise_map]
  apply bits.toList_pairwise.imp
  intro i j hij
  have hle := Nat.mul_le_mul_right width (Nat.succ_le_of_lt hij)
  rw [Nat.succ_mul] at hle
  exact .inl (by omega)

/-- The references at some places are adjusted. -/
theorem moves_of_references {offsets : List Nat} (hapart : offsets.Pairwise (Apart m.slotSize))
    (hin : ∀ i ∈ offsets, i + m.slotSize ≤ p.image.size) (h : references m offsets p = .ok p') :
    p'.image.size = p.image.size ∧
      Rewrites m.slotSize m.Moves offsets (Bytes.get p.image) (Bytes.get p'.image) := by
  -- Induction on the places, with the rest of them patched in what the first one leaves.
  induction offsets generalizing p with
  | nil =>
    cases h
    exact ⟨rfl, .nil⟩
  | cons i rest ih =>
    obtain ⟨image, counts⟩ := p
    obtain ⟨hi, hrest⟩ := List.pairwise_cons.mp hapart
    have hfits := hin i (List.mem_cons_self ..)
    rw [references] at h
    dsimp only at h hin hfits ⊢
    split at h
    · rename_i hzero
      obtain ⟨hsize, hrewrites⟩ := ih hrest (fun j hj => hin j (List.mem_cons_of_mem _ hj)) h
      refine ⟨hsize, hrewrites.cons hi (fun _ _ => rfl) ?_⟩
      rw [← Bytes.valueAt_eq_number, hzero]
      exact .null
    · rename_i hne
      split at h
      · cases h
      · rename_i value hvalue
        obtain ⟨hsize, hrewrites⟩ := ih hrest (fun j hj => by
          rw [Bytes.size_setValue]
          exact hin j (List.mem_cons_of_mem _ hj)) h
        rw [Bytes.size_setValue] at hsize
        refine ⟨hsize, hrewrites.cons hi ?_ ?_⟩
        · intro j hj
          rw [Bytes.get_setValue, if_neg (by omega)]
        · rw [← Bytes.valueAt_eq_number, ← Bytes.valueAt_eq_number,
            Bytes.valueAt_setValue_self hfits]
          exact .value hne hvalue

/-- The native pointers at some places are moved. -/
theorem rewrites_of_natives (delta : UInt64) {offsets : List Nat}
    (hapart : offsets.Pairwise (Apart wordSize))
    (hin : ∀ i ∈ offsets, i + wordSize ≤ p.image.size) :
    (natives delta offsets p).image.size = p.image.size ∧
      Rewrites wordSize (PlusDelta delta) offsets (Bytes.get p.image)
        (Bytes.get (natives delta offsets p).image) := by
  induction offsets generalizing p with
  | nil => exact ⟨rfl, .nil⟩
  | cons i rest ih =>
    obtain ⟨image, counts⟩ := p
    obtain ⟨hi, hrest⟩ := List.pairwise_cons.mp hapart
    have hfits := hin i (List.mem_cons_self ..)
    rw [natives]
    dsimp only at hin hfits ⊢
    generalize hvalue : UInt64.ofNat (Bytes.valueAt image i wordSize) + delta = value
    have hnext : (Bytes.setWord image i value).size = image.size := Bytes.size_setWord image i value
    obtain ⟨hsize, hrewrites⟩ := ih hrest
      (p := ⟨Bytes.setWord image i value, { counts with natives := counts.natives + 1 }⟩)
      (fun j hj => by
        dsimp only
        rw [hnext]
        exact hin j (List.mem_cons_of_mem _ hj))
    dsimp only at hsize hrewrites
    rw [hnext] at hsize
    refine ⟨hsize, hrewrites.cons hi ?_ ?_⟩
    · exact fun j hj => Bytes.get_setWord_of_outside hj value
    · rw [Bytes.number_setWord_self hfits value, PlusDelta, ← hvalue, Bytes.valueAt_eq_number]

/-- The image offsets of the slots that a region's reference map marks. -/
def slots (m : Rebasing) (start : Nat) (maps : RegionMaps) : List Nat :=
  maps.references.toList.map fun bit => start + bit * m.slotSize

/-- The image offsets of the words that a region's map of native pointers marks. -/
def words (start : Nat) (maps : RegionMaps) : List Nat :=
  maps.natives.toList.map fun bit => start + bit * wordSize

/-- A pass over references fails at a reference without a new value. -/
theorem error_of_references {offsets : List Nat} {e : ArchiveError}
    (hapart : offsets.Pairwise (Apart m.slotSize)) (h : references m offsets p = .error e) :
    ∃ i ∈ offsets, Bytes.valueAt p.image i m.slotSize ≠ 0 ∧
      m.value i (Bytes.valueAt p.image i m.slotSize) = .error e := by
  induction offsets generalizing p with
  | nil => cases h
  | cons i rest ih =>
    obtain ⟨image, counts⟩ := p
    obtain ⟨hi, hrest⟩ := List.pairwise_cons.mp hapart
    rw [references] at h
    dsimp only at h ⊢
    split at h
    · obtain ⟨j, hj, hfault⟩ := ih hrest h
      exact ⟨j, List.mem_cons_of_mem _ hj, hfault⟩
    · rename_i hne
      split at h
      · rename_i hvalue
        cases h
        exact ⟨i, List.mem_cons_self .., hne, hvalue⟩
      · obtain ⟨j, hj, hfault⟩ := ih hrest h
        -- The slots before this one do not overlap it, so it still has its first value.
        rw [Bytes.valueAt_setValue_of_disjoint (hi j hj).symm] at hfault
        exact ⟨j, List.mem_cons_of_mem _ hj, hfault⟩

/-- Patching a region fails at a reference without a new value. -/
theorem error_of_region {maps : RegionMaps} {start : Nat} {e : ArchiveError}
    (h : region m delta start maps p = .error e) :
    ∃ i ∈ slots m start maps, Bytes.valueAt p.image i m.slotSize ≠ 0 ∧
      m.value i (Bytes.valueAt p.image i m.slotSize) = .error e := by
  rw [region] at h
  cases hreferences : references m (slots m start maps) p with
  | error e' =>
    obtain rfl : e' = e := by
      rw [slots] at hreferences
      rw [hreferences] at h
      exact Except.error.inj h
    exact error_of_references (places_pairwise ..) hreferences
  | ok q =>
    rw [slots] at hreferences
    rw [hreferences] at h
    change (if delta = 0 then Except.ok q else Except.ok _) = Except.error e at h
    split at h <;> cases h

section

variable {maps : RegionMaps} {start top : Nat}

/-- A region is patched in two passes. -/
theorem rewrites_of_region (hslots : ∀ i ∈ slots m start maps, i + m.slotSize ≤ p.image.size)
    (hwords : ∀ i ∈ words start maps, i + wordSize ≤ p.image.size)
    (h : region m delta start maps p = .ok p') :
    p'.image.size = p.image.size ∧ ∃ v,
      Rewrites m.slotSize m.Moves (slots m start maps) (Bytes.get p.image) v ∧
      Rewrites wordSize (PlusDelta delta) (words start maps) v (Bytes.get p'.image) := by
  rw [region, Except.bind_eq_ok] at h
  obtain ⟨q, hreferences, h⟩ := h
  obtain ⟨hsize, hmoves⟩ := moves_of_references (places_pairwise ..) hslots hreferences
  split at h
  · rename_i hzero
    cases h
    rw [hzero]
    exact ⟨hsize, _, hmoves, .plusDelta_zero ..⟩
  · cases h
    obtain ⟨hsize', hrewrites⟩ := rewrites_of_natives delta (p := q)
      (places_pairwise maps.natives start wordSize)
      (fun i hi => by
        rw [hsize]
        exact hwords i hi)
    exact ⟨hsize'.trans hsize, _, hmoves, hrewrites⟩

/-- Nothing outside a region is touched if its maps mark places inside it. -/
theorem outside_of_region (hslots : ∀ i ∈ slots m start maps, start ≤ i ∧ i + m.slotSize ≤ top)
    (hwords : ∀ i ∈ words start maps, start ≤ i ∧ i + wordSize ≤ top) (htop : top ≤ p.image.size)
    (h : region m delta start maps p = .ok p') {j : Nat} (hj : j < start ∨ top ≤ j) :
    Bytes.get p'.image j = Bytes.get p.image j := by
  obtain ⟨-, v, hmoves, hrewrites⟩ := rewrites_of_region
    (fun i hi => Nat.le_trans (hslots i hi).2 htop)
    (fun i hi => Nat.le_trans (hwords i hi).2 htop) h
  rw [hrewrites.outside, hmoves.outside]
  · intro i hi
    have := hslots i hi
    omega
  · intro i hi
    have := hwords i hi
    omega

end

/-- What native pointers a pass over a region may or may not move. -/
theorem movedNative_of_plusDelta {native : Extent} {i new : Nat} {v : UInt64}
    (hin : native.contains v.toNat = true) (h : PlusDelta delta i v.toNat new) :
    new = (movedNative native delta v).toNat := by
  rw [h, UInt64.ofNat_toNat, movedNative, if_pos hin]

/-- A reference of a member that has been adjusted has got a new value, unless it is null. -/
theorem exists_value_of_moves {x : Placed} {positions : List Nat} {v w : Nat → UInt8}
    {g : ObjectGraph} {r : TypeRegistry} {roots : List ObjectId} {ref : ObjectId → Nat}
    {native : UInt64 → UInt64} (hslot : IsSlotSize m.slotSize) (hof : x.member.Of g r roots)
    (hheld : x.Held m.slotSize ref native v) (hmoves : Rewrites m.slotSize m.Moves positions v w)
    {c : Cell} (hc : c ∈ x.member.cells m.slotSize) (hplace : x.offset + c.offset ∈ positions)
    {i : ObjectId} (hv : c.value = .reference (some i)) (hne : ref i ≠ 0) :
    ∃ new, m.value (x.offset + c.offset) (ref i) = .ok new := by
  have hold := hheld.cells c hc
  have hmove := hmoves.inside _ hplace
  rw [(hof.width_of_reference hslot hc hv).1, hv, FieldValue.number] at hold
  rw [hold] at hmove
  generalize ref i = old at hmove hne
  generalize Bytes.number w (x.offset + c.offset) m.slotSize = new at hmove
  cases hmove with
  | null => exact absurd rfl hne
  | value _ hok => exact ⟨_, hok⟩

/-- **Patching a region** gives its members other referents and moves their native pointers into the
native image. -/
theorem held_of_region {maps : RegionMaps} {g : ObjectGraph} {r : TypeRegistry}
    {roots : List ObjectId} {bottom top : Nat} {native : Extent} {xs : List Placed}
    {ref ref' : ObjectId → Nat} (hslot : IsSlotSize m.slotSize)
    (hrow : Placed.Row m.slotSize bottom xs top) (hof : ∀ x ∈ xs, x.member.Of g r roots)
    (hmarks : maps.MarksMembers m.slotSize bottom native xs) (htop : top ≤ p.image.size)
    (hheld : ∀ x ∈ xs, x.Held m.slotSize ref id (Bytes.get p.image))
    (hvalue : ∀ x ∈ xs, ∀ c ∈ x.member.cells m.slotSize, ∀ i, c.value = .reference (some i) →
      ref i ≠ 0 ∧ ∀ offset new, m.value offset (ref i) = .ok new →
        new % 256 ^ m.slotSize = ref' i)
    (h : region m delta bottom maps p = .ok p') :
    p'.image.size = p.image.size ∧
      (∀ x ∈ xs, x.Held m.slotSize ref' (movedNative native delta) (Bytes.get p'.image)) ∧
      (∀ j, j < bottom ∨ top ≤ j → Bytes.get p'.image j = Bytes.get p.image j) ∧
      ∀ x ∈ xs, ∀ c ∈ x.member.cells m.slotSize, ∀ i, c.value = .reference (some i) →
        ∃ new, m.value (x.offset + c.offset) (ref i) = .ok new := by
  have hmem := fun i => hmarks.mem_slots hslot hrow hof (i := i)
  have hmem' := fun i => hmarks.mem_natives hslot hrow hof (i := i)
  -- All places lie in the region.
  have hbounds : ∀ i ∈ slots m bottom maps, bottom ≤ i ∧ i + m.slotSize ≤ top := by
    intro i hi
    obtain ⟨x, hx, k, hk, rfl⟩ := Placed.mem_slots.mp ((hmem i).mp hi)
    have hx' := hrow.bounds x hx
    have hk' := (hof x hx).bounds_of_referenceOffsets hslot hk
    omega
  have hbounds' : ∀ i ∈ words bottom maps, bottom ≤ i ∧ i + wordSize ≤ top := by
    intro i hi
    obtain ⟨x, hx, c, hc, v, hv, -, rfl⟩ := (hmem' i).mp hi
    have hx' := hrow.bounds x hx
    have hc' := (hof x hx).bounds hslot hc
    have hwidth := ((hof x hx).width_of_native hslot hc hv).1
    omega
  obtain ⟨hsize, v, hmoves, hrewrites⟩ := rewrites_of_region
    (fun i hi => Nat.le_trans (hbounds i hi).2 htop)
    (fun i hi => Nat.le_trans (hbounds' i hi).2 htop) h
  have hheld' : ∀ x ∈ xs, x.Held m.slotSize ref' id v := by
    intro x hx
    apply Placed.Held.rewrite_references hx (hheld x hx) hof hslot hrow.disjoint hmoves hmem
    intro c hc target hv new hnew
    rw [hv] at hnew ⊢
    cases target with
    | none =>
      cases hnew with
      | null => rfl
      | value hne => exact absurd rfl hne
    | some i =>
      obtain ⟨hne, hnew'⟩ := hvalue x hx c hc i hv
      generalize hold : FieldValue.number ref id (.reference (some i)) = old at hnew
      cases hnew with
      | null => exact absurd hold hne
      | value _ hok =>
        rw [← hold] at hok
        exact hnew' _ _ hok
  refine ⟨hsize, ?_, fun j hj => outside_of_region hbounds hbounds' htop h hj, ?_⟩
  · intro x hx
    apply Placed.Held.rewrite_natives hx (hheld' x hx) hof hslot hrow.disjoint hrewrites hmem'
    · exact fun i v hin new hnew => movedNative_of_plusDelta hin hnew
    · intro v hout
      rw [movedNative, hout]
      rfl
  · intro x hx c hc i hv
    have hoffset := ((hof x hx).mem_referenceOffsets hslot).mpr ⟨c, hc, rfl, _, hv⟩
    exact exists_value_of_moves hslot (hof x hx) (hheld x hx) hmoves hc
      ((hmem _).mpr (Placed.mem_slots.mpr ⟨x, hx, _, hoffset, rfl⟩)) hv (hvalue x hx c hc i hv).1

end Patching

/-! ## Archives that have been read -/

namespace Archive

variable {a : Archive} {m : Rebasing} {delta : UInt64} {region : Region}

/-- The slots of a region are those that its map marks. -/
theorem mem_slots (hslot : m.slotSize = a.slotSize) {i : Nat} :
    i ∈ Patching.slots m (a.header.range region).bottom (a.maps region) ↔
      ∃ bit, (a.maps region).references.contains bit = true ∧ a.slotOffset region bit = i := by
  rw [Patching.slots, List.mem_map, hslot]
  simp only [BitMap.mem_toList, slotOffset]

namespace Sound

/-- The slots of a region lie inside it. -/
theorem bounds_of_mem_slots (h : a.Sound) (hslot : m.slotSize = a.slotSize) (region : Region) :
    ∀ i ∈ Patching.slots m (a.header.range region).bottom (a.maps region),
      (a.header.range region).bottom ≤ i ∧ i + m.slotSize ≤ (a.header.range region).top := by
  intro i hi
  obtain ⟨bit, hbit, rfl⟩ := (mem_slots hslot).mp hi
  rw [hslot]
  exact ⟨Nat.le_add_right .., h.slot_bounds hbit⟩

/-- The native pointers of a region lie inside it. -/
theorem bounds_of_mem_words (h : a.Sound) (region : Region) :
    ∀ i ∈ Patching.words (a.header.range region).bottom (a.maps region),
      (a.header.range region).bottom ≤ i ∧ i + wordSize ≤ (a.header.range region).top := by
  intro i hi
  obtain ⟨bit, hbit, rfl⟩ := List.mem_map.mp hi
  exact ⟨Nat.le_add_right .., h.native_bounds (BitMap.mem_toList.mp hbit)⟩

/-- Patching the open region leaves the closed one alone. -/
theorem closed_of_opened (h : a.Sound) (hslot : m.slotSize = a.slotSize) {q : Patching}
    (hq : Patching.region m delta (a.header.range .opened).bottom a.opened ⟨a.image, .zero⟩ =
      .ok q) :
    q.image.size = a.image.size ∧ ∀ i ∈ Patching.slots m (a.header.range .closed).bottom a.closed,
      Bytes.valueAt q.image i m.slotSize = Bytes.valueAt a.image i m.slotSize := by
  obtain ⟨hopen, hclosed, htop⟩ := h.range_bounds
  have hslots := h.bounds_of_mem_slots hslot .opened
  have hwords := h.bounds_of_mem_words .opened
  have hend : (a.header.range .opened).top ≤ a.image.size := by omega
  constructor
  · exact (Patching.rewrites_of_region (fun i hi => Nat.le_trans (hslots i hi).2 hend)
      (fun i hi => Nat.le_trans (hwords i hi).2 hend) hq).1
  · intro i hi
    have hlow := (h.bounds_of_mem_slots hslot .closed i hi).1
    rw [Bytes.valueAt_eq_number, Bytes.valueAt_eq_number]
    apply Bytes.number_congr
    intro k _
    exact Patching.outside_of_region hslots hwords hend hq (.inr (by omega))

end Sound

end Archive

end HeapImage
