import HeapImage.Proofs.MemberSpans

/-! # Maps that can be derived

Maps can be derived from every region that is made of members, and maps that have been derived agree
with everything that says the same of the region's slots.

* `RegionMaps.exists_derive`: deriving the maps of a row of members succeeds.
* `crossCheck_eq_ok`: what it takes for two maps to agree.
* `RegionMaps.MarksMembers.crossCheck_eq_ok`: a map agrees with a record of the members' slots. -/

namespace HeapImage

/-- A derived map agrees with a recorded one if it is a section of it. -/
theorem crossCheck_eq_ok {derived recorded : BitMap} {first : Nat} {region : Region} :
    crossCheck derived recorded first region = .ok () ↔ first + derived.size ≤ recorded.size ∧
      ∀ i < derived.size, derived.contains i = recorded.contains (first + i) := by
  have hfind : ((List.range derived.size).find? fun i =>
      derived.contains i != recorded.contains (first + i)) = none ↔
        ∀ i < derived.size, derived.contains i = recorded.contains (first + i) := by
    simp only [List.find?_eq_none, List.mem_range, bne_iff_ne, ne_eq, Decidable.not_not]
  rw [crossCheck, ← hfind]
  split
  · rename_i hlt
    exact ⟨nofun, fun h => absurd h.1 (Nat.not_le.mpr hlt)⟩
  · rename_i hle
    split
    · rename_i bit hbit
      rw [hbit]
      exact ⟨nofun, fun h => nomatch h.2⟩
    · rename_i hnone
      exact ⟨fun _ => ⟨Nat.not_lt.mp hle, hnone⟩, fun _ => rfl⟩

/-- A map agrees with itself. -/
theorem crossCheck_self (m : BitMap) (region : Region) : crossCheck m m 0 region = .ok () := by
  rw [crossCheck_eq_ok, Nat.zero_add]
  refine ⟨Nat.le_refl _, ?_⟩
  intro i _
  rw [Nat.zero_add]

namespace RegionMaps

variable {b : ByteArray} {g : ObjectGraph} {r : TypeRegistry} {roots : List ObjectId}
variable {slot bottom top : Nat} {native : Extent} {maps : RegionMaps} {o : ObjectSpan}
variable {ref : ObjectId → Nat} {xs : List Placed}

/-! ## Deriving succeeds -/

/-- Bits inside a map can be set one after another. -/
theorem exists_foldlM_set? {ks : List Nat} (keep : Nat → Bool) {width : Nat} {m : BitMap}
    (h : ∀ k ∈ ks, k / width < m.size) : ∃ m',
      ks.foldlM (fun m k => if keep k then m.set? (k / width) else .ok m) m = .ok m' ∧
        m'.size = m.size := by
  refine Except.exists_foldlM _ ks (fun w : BitMap => w.size = m.size) rfl ?_
  intro k hk w hw
  cases keep k with
  | false => exact ⟨w, rfl, hw⟩
  | true =>
    exact ⟨w.insert (k / width), BitMap.set?_eq_ok.mpr ⟨hw.symm ▸ h k hk, rfl⟩,
      (BitMap.size_insert ..).trans hw⟩

/-- An object can be marked if the maps have bits for its slots. -/
theorem exists_mark (hreferences : ∀ k ∈ o.references slot, k / slot < maps.references.size)
    (hnatives : ∀ k ∈ o.natives slot, k / wordSize < maps.natives.size) :
    ∃ maps', mark b slot native maps o = .ok maps' ∧
      maps'.references.size = maps.references.size ∧ maps'.natives.size = maps.natives.size := by
  obtain ⟨references, href, hrsize⟩ := exists_foldlM_set? (fun _ => true) hreferences
  obtain ⟨natives, hnat, hnsize⟩ :=
    exists_foldlM_set? (fun k => native.contains (Bytes.valueAt b k wordSize)) hnatives
  refine ⟨⟨references, natives⟩, ?_, hrsize, hnsize⟩
  rw [mark, Except.bind_eq_ok]
  refine ⟨references, href, ?_⟩
  rw [Except.bind_eq_ok]
  exact ⟨natives, hnat, rfl⟩

/-- Objects can be marked one after another if their slots lie in the region. -/
theorem exists_foldlM_mark {spans : List ObjectSpan} (hslot : 0 < slot)
    (hreferences : ∀ o ∈ spans, ∀ k ∈ o.references slot, k + slot ≤ b.size)
    (hnatives : ∀ o ∈ spans, ∀ k ∈ o.natives slot, k + wordSize ≤ b.size) :
    ∃ maps, spans.foldlM (mark b slot native) (blank b.size slot) = .ok maps := by
  -- Marking never changes the sizes of the maps, so there is a bit for every slot to the end.
  obtain ⟨maps, hmaps, -⟩ := Except.exists_foldlM (mark b slot native) spans
    (fun w => w.references.size = b.size / slot ∧ w.natives.size = b.size / wordSize)
    (s := blank b.size slot) ⟨rfl, rfl⟩ (by
      rintro o ho w ⟨hr, hn⟩
      obtain ⟨w', hmark, hr', hn'⟩ : ∃ w', mark b slot native w o = .ok w' ∧
          w'.references.size = w.references.size ∧ w'.natives.size = w.natives.size := exists_mark
        (fun k hk => hr.symm ▸ BitMap.div_lt_div_of_add_le hslot (hreferences o ho k hk))
        (fun k hk => hn.symm ▸ BitMap.div_lt_div_of_add_le (by decide) (hnatives o ho k hk))
      exact ⟨w', hmark, hr'.trans hr, hn'.trans hn⟩)
  exact ⟨maps, hmaps⟩

/-- Maps can be derived from bytes that are tiled with objects. -/
theorem exists_derive_of_row {spans : List ObjectSpan} (hslot : 0 < slot)
    (hrow : ObjectSpan.Row b r slot 0 spans b.size)
    (hreferences : ∀ o ∈ spans, ∀ k ∈ o.references slot, k + slot ≤ b.size)
    (hnatives : ∀ o ∈ spans, ∀ k ∈ o.natives slot, k + wordSize ≤ b.size) :
    ∃ maps, derive b r slot native = .ok maps := by
  obtain ⟨maps, hmaps⟩ : ∃ maps, spans.foldlM (mark b slot native) (blank b.size slot) = .ok maps :=
    exists_foldlM_mark hslot hreferences hnatives
  refine ⟨maps, ?_⟩
  rw [derive, Except.guard_eq_ok, (ObjectSpan.scan_eq (Nat.zero_le _)).mpr hrow]
  refine ⟨Nat.ne_of_gt hslot, ?_⟩
  dsimp only
  rw [hmaps]
  rfl

/-- **Deriving the maps** of a region that is made of members succeeds. -/
theorem exists_derive (hslot : IsSlotSize slot) (hrow : Placed.Row slot bottom xs top)
    (hof : ∀ x ∈ xs, x.member.Of g r roots)
    (hheld : ∀ x ∈ xs, x.Held slot ref id (Bytes.get b)) (htop : top ≤ b.size) :
    ∃ maps, derive (b.extract bottom top) r slot native = .ok maps := by
  have hsize : (b.extract bottom top).size = top - bottom := by
    rw [ByteArray.size_extract, Nat.min_eq_left htop]
  have hstop : ∀ x ∈ xs, x.offset - bottom + x.member.size slot ≤ (b.extract bottom top).size := by
    intro x hx
    obtain ⟨hlow, hhigh⟩ := hrow.bounds x hx
    rw [hsize]
    omega
  refine exists_derive_of_row hslot.pos (hrow.spans_extract hslot hof hheld htop) ?_ ?_
  · intro o ho k hk
    obtain ⟨y, hy, rfl⟩ := List.mem_map.mp ho
    obtain ⟨x, hx, rfl⟩ := List.mem_map.mp hy
    obtain ⟨j, hj, rfl⟩ := List.mem_map.mp hk
    have hj' := ((hof x hx).bounds_of_referenceOffsets hslot hj).2.1
    have hx' := hstop x hx
    change x.offset - bottom + j + slot ≤ _
    omega
  · intro o ho k hk
    obtain ⟨y, hy, rfl⟩ := List.mem_map.mp ho
    obtain ⟨x, hx, rfl⟩ := List.mem_map.mp hy
    obtain ⟨j, hj, rfl⟩ := List.mem_map.mp hk
    have hj' := ((hof x hx).bounds_of_nativeOffsets hslot hj).2.1
    have hx' := hstop x hx
    change x.offset - bottom + j + wordSize ≤ _
    omega

/-! ## Agreement with a record -/

/-- **A map of members agrees with a record** of slots that are those of the members as far as the
region goes. -/
theorem MarksMembers.crossCheck_eq_ok {positions : List Nat} {recorded : BitMap} {region : Region}
    (h : maps.MarksMembers slot bottom native xs) (hslot : 0 < slot) (hbottom : slot ∣ bottom)
    (hsize : maps.references.size = (top - bottom) / slot)
    (hroom : bottom / slot + maps.references.size ≤ recorded.size)
    (hbits : ∀ i, recorded.contains i = true ↔ ∃ p ∈ positions, p / slot = i)
    (hdvd : ∀ p ∈ positions, slot ∣ p)
    (hslots : ∀ p, bottom ≤ p → p < top → (p ∈ positions ↔ p ∈ Placed.slots xs slot)) :
    crossCheck maps.references recorded (bottom / slot) region = .ok () := by
  refine HeapImage.crossCheck_eq_ok.mpr ⟨hroom, ?_⟩
  intro i hi
  have hlt : bottom + i * slot < top := by
    rw [hsize] at hi
    have hmul := (Nat.le_div_iff_mul_le hslot).mp (Nat.succ_le_of_lt hi)
    rw [Nat.succ_mul] at hmul
    omega
  -- Bit `i` of the derived map stands for the slot at `bottom + i * slot`, in the record this is
  -- bit `bottom / slot + i`.
  have hderived : maps.references.contains i = true ↔ bottom + i * slot ∈ Placed.slots xs slot := by
    rw [h.references, Placed.mem_slots]
    simp only [eq_comm (a := bottom + i * slot)]
  have hrecorded : recorded.contains (bottom / slot + i) = true ↔
      bottom + i * slot ∈ positions := by
    rw [hbits, Nat.mul_comm, ← Nat.add_mul_div_left _ _ hslot]
    constructor
    · rintro ⟨p, hp, heq⟩
      have hsum := Nat.dvd_add hbottom (Nat.dvd_mul_right slot i)
      rwa [← Nat.div_left_inj (hdvd p hp) hsum |>.mp heq]
    · exact fun hp => ⟨_, hp, rfl⟩
  rw [Bool.eq_iff_iff, hderived, hrecorded, hslots _ (Nat.le_add_right ..) hlt]

end RegionMaps

end HeapImage
