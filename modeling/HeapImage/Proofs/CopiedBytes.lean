import HeapImage.Proofs.AdjustedBytes
import HeapImage.Proofs.CountedLoads

/-! # Every byte of the copies

A load that copies takes the objects of an image apart, and overwrites the image on the way. Put
back to where they come from, the copies show what it has made of the image: each reference that is
not null has been looked up once, each native pointer has been moved once, and all other bytes are
those that the image had in the beginning, the words that were overwritten with addresses among
them.

* `Copy.gathered`: the image that the copies show.
* `CopyPlan.Complete.exists_place`, `CopyPlan.Complete.mark_of_mem_places`: the marks of a region
  and those of its copies.
* `Archive.Forwards`, `Archive.Redirects`: what becomes of a reference.
* `Copy.HoldsImage.byte_eq`, `Copy.HoldsImage.number_native`: a copy after the first pass.
* `Archive.adjusts_of_passes`, `Archive.counts_of_passes`: the copies after both passes.
* `Archive.adjusts_of_copyImage`: the bytes of the copies. -/

namespace HeapImage

/-! ## Copies put back -/

namespace Copy

variable {cs : List Copy} {image heap : Nat → UInt8}

/-- The bytes of copies where their objects are in an image, and those of the image elsewhere. -/
def gathered (image heap : Nat → UInt8) (j : Nat) : List Copy → UInt8
  | [] => image j
  | c :: cs =>
    if c.span.offset ≤ j ∧ j < c.span.stop then heap (c.dest + (j - c.span.offset))
    else gathered image heap j cs

/-- The bytes of a copied object are gathered from its copy. -/
theorem gathered_add (hstream : cs.Pairwise fun c d => c.span.stop ≤ d.span.offset) {c : Copy}
    (hc : c ∈ cs) {k : Nat} (hk : k < c.span.size) :
    gathered image heap (c.span.offset + k) cs = heap (c.dest + k) := by
  induction cs with
  | nil => cases hc
  | cons d ds ih =>
    obtain ⟨hd, hds⟩ := List.pairwise_cons.mp hstream
    rw [gathered]
    rcases List.mem_cons.mp hc with rfl | hc
    · rw [ObjectSpan.stop, if_pos (by omega), Nat.add_sub_cancel_left]
    · have hle := hd c hc
      rw [if_neg (by omega)]
      exact ih hds hc

/-- Bytes of no copied object are those of the image. -/
theorem gathered_of_outside {j : Nat} (h : ∀ c ∈ cs, j < c.span.offset ∨ c.span.stop ≤ j) :
    gathered image heap j cs = image j := by
  induction cs with
  | nil => rfl
  | cons c cs ih =>
    obtain ⟨hc, hcs⟩ := List.forall_mem_cons.mp h
    rw [gathered, if_neg (by omega)]
    exact ih hcs

/-- Numbers of a copy put back. -/
theorem number_gathered (hstream : cs.Pairwise fun c d => c.span.stop ≤ d.span.offset) {c : Copy}
    (hc : c ∈ cs) {k n : Nat} (hk : k + n ≤ c.span.size) :
    Bytes.number (gathered image heap · cs) (c.span.offset + k) n =
      Bytes.number heap (c.dest + k) n := by
  apply Bytes.number_congr
  intro i hi
  rw [Nat.add_assoc, Nat.add_assoc]
  exact gathered_add hstream hc (by omega)

end Copy

/-! ## Marks in copies -/

namespace CopyPlan.Complete

variable {p : CopyPlan} {b : ByteArray} {cs : List Copy} {m : BitMap} {width bit i : Nat}

/-- What a map of a region marks has a place in a copy from there. -/
theorem exists_place (hall : p.Complete b cs) {region : Region} (hwidth : 0 < width)
    (hword : width ∣ wordSize) (hbit : m.contains bit = true)
    (htop : p.bottom region + bit * width + width ≤ (p.header.range region).top) :
    ∃ c ∈ cs, c.region = region ∧ ∃ k, p.bottom region + bit * width = c.span.offset + k ∧
      c.dest + k ∈ c.places m width (p.bottom region) := by
  have hlow : (p.header.range region).bottom ≤ p.bottom region + bit * width :=
    Nat.le_add_right ..
  obtain ⟨o, ho, hlow, hhigh⟩ := (hall region).tiles.exists_covering hlow
    (show p.bottom region + bit * width < (p.header.range region).top by omega)
  obtain ⟨c, hc, rfl⟩ := List.mem_map.mp ho
  obtain ⟨hmem, hregion⟩ := List.mem_filter.mp hc
  obtain rfl := of_decide_eq_true hregion
  obtain ⟨hbottom, hoffset, hsize⟩ := hall.bounds hmem
  obtain ⟨first, hfirst⟩ := Nat.dvd_trans hword hoffset
  obtain ⟨n, hn⟩ := Nat.dvd_trans hword hsize
  -- Both the object and the place are a whole number of places from the start of the region.
  have hle : first ≤ bit := by
    apply Nat.le_of_mul_le_mul_left _ hwidth
    rw [← hfirst, Nat.mul_comm width]
    omega
  obtain ⟨k, rfl⟩ := Nat.exists_eq_add_of_le hle
  rw [Nat.add_mul, Nat.mul_comm first, ← hfirst] at hhigh ⊢
  have hlt : k < n := by
    apply Nat.lt_of_mul_lt_mul_left (a := width)
    rw [← hn, Nat.mul_comm width]
    omega
  refine ⟨c, hmem, rfl, k * width, by omega, Copy.mem_places.mpr ⟨k, ?_, ?_, rfl⟩⟩
  · rwa [hn, Nat.mul_div_cancel_left _ hwidth]
  · rwa [hfirst, Nat.mul_div_cancel_left _ hwidth]

/-- What is marked in a copy is what the map of its region marks. -/
theorem mark_of_mem_places (hall : p.Complete b cs) {c : Copy} (hc : c ∈ cs)
    (hword : width ∣ wordSize) (hi : i ∈ c.places m width (p.bottom c.region)) :
    ∃ bit, m.contains bit = true ∧
      c.dest + (p.bottom c.region + bit * width) = i + c.span.offset := by
  obtain ⟨k, -, hbit, rfl⟩ := Copy.mem_places.mp hi
  obtain ⟨hbottom, hoffset, -⟩ := hall.bounds hc
  have hfirst := Nat.div_mul_cancel (Nat.dvd_trans hword hoffset)
  refine ⟨_, hbit, ?_⟩
  rw [Nat.add_mul, hfirst]
  omega

end CopyPlan.Complete

/-- The marked references of one copy are those of all copies that are near it. -/
theorem mem_references_or_apart {p : CopyPlan} {cs : List Copy}
    (hapart : cs.Pairwise fun c d => c.stop ≤ d.dest ∨ d.stop ≤ c.dest) {c : Copy} (hc : c ∈ cs)
    {i : Nat} (hi : i ∈ cs.flatMap fun c => c.references p) :
    i ∈ c.references p ∨ i + p.slotSize ≤ c.dest ∨ c.stop ≤ i := by
  obtain ⟨d, hd, hi⟩ := List.mem_flatMap.mp hi
  have hbounds := Copy.bounds_of_mem_places hi
  have hboth : d = c ∨ (d.stop ≤ c.dest ∨ c.stop ≤ d.dest) :=
    List.Pairwise.forall_of_forall_of_flip
      (R := fun c d : Copy => c = d ∨ (c.stop ≤ d.dest ∨ d.stop ≤ c.dest)) (fun _ _ => .inl rfl)
      (hapart.imp .inr) (hapart.imp fun h => .inr h.symm) hd hc
  rcases hboth with rfl | hbefore | hbehind
  · exact .inl hi
  · exact .inr (.inl (by omega))
  · exact .inr (.inr (by omega))

/-! ## The first pass -/

namespace Copy.HoldsImage

variable {c : Copy} {p : CopyPlan} {image v : Nat → UInt8}

/-- Bytes of a copy away from its native pointers are those of the object. -/
theorem byte_eq (h : c.HoldsImage p image v) {k : Nat} (hk : k < c.span.size)
    (hout : ∀ i ∈ c.natives p, c.dest + k < i ∨ i + wordSize ≤ c.dest + k) :
    v (c.dest + k) = image (c.span.offset + k) := by
  obtain ⟨w, hw, hsame⟩ := h
  rw [hsame k hk, hw.outside _ hout, Nat.add_sub_cancel_left]

/-- Numbers away from native pointers are copied as they are. -/
theorem number_eq (h : c.HoldsImage p image v) {k n : Nat} (hk : k + n ≤ c.span.size)
    (hapart : ∀ i ∈ c.natives p, c.dest + k + n ≤ i ∨ i + wordSize ≤ c.dest + k) :
    Bytes.number v (c.dest + k) n = Bytes.number image (c.span.offset + k) n := by
  apply Bytes.number_congr
  intro i hi
  rw [Nat.add_assoc, Nat.add_assoc]
  refine h.byte_eq (by omega) fun q hq => ?_
  have := hapart q hq
  omega

/-- A native pointer of a copy is that of the object plus the distance. -/
theorem number_native (h : c.HoldsImage p image v) {k : Nat} (hk : c.dest + k ∈ c.natives p) :
    PlusDelta p.delta (c.span.offset + k) (Bytes.number image (c.span.offset + k) wordSize)
      (Bytes.number v (c.dest + k) wordSize) := by
  obtain ⟨w, hw, hsame⟩ := h
  have hbounds := bounds_of_mem_places hk
  rw [stop] at hbounds
  have hview : Bytes.number v (c.dest + k) wordSize = Bytes.number w (c.dest + k) wordSize :=
    Bytes.number_congr fun i hi => by
      rw [Nat.add_assoc]
      exact hsame _ (by omega)
  have hold : Bytes.number image (c.span.offset + k) wordSize =
      Bytes.number (fun x => image (c.span.offset + (x - c.dest))) (c.dest + k) wordSize := by
    apply Bytes.number_congr
    intro i _
    congr 1
    omega
  rw [hview, hold]
  exact hw.inside _ hk

end Copy.HoldsImage

/-! ## References -/

/-- Where the objects of an image have been copied to that stand at heap words. In heap words in
which no object starts there is nothing to be found. -/
structure Forwards (cs : List Copy) (forward : Nat → Option Nat) : Prop where
  start : ∀ c ∈ cs, wordSize ∣ c.span.offset → forward c.span.offset = some (c.dest % 2 ^ 64)
  only : ∀ offset dest, forward offset = some dest →
    wordSize ∣ offset ∧ ∃ c ∈ cs, c.span.offset / wordSize = offset / wordSize

/-- Null stays null, and any other reference becomes one to the address that is found for the place
of its target in the image. -/
structure Archive.Redirects (a : Archive) (runtime : ReferenceEncoding)
    (forward : Nat → Option Nat) (_offset old new : Nat) : Prop where
  null : old = 0 → new = 0
  target : old ≠ 0 → a.header.requestedBase.toNat ≤ a.encoding.decode old ∧
    ∃ dest, forward (a.encoding.decode old - a.header.requestedBase.toNat) = some dest ∧
      runtime.encode dest = .ok new

/-- An offset resolves to the word at the start of an object, where its bit is set. -/
theorem resolve?_eq_some {image : ByteArray} {starts : BitMap} {offset dest : Nat} :
    resolve? image starts offset = some dest ↔ wordSize ∣ offset ∧
      starts.contains (offset / wordSize) = true ∧ Bytes.valueAt image offset wordSize = dest := by
  rw [resolve?, Option.ite_none_right_eq_some, Option.some.injEq, ← Nat.dvd_iff_mod_eq_zero,
    and_assoc]

/-- What has been copied can be found from its place in the image. -/
theorem CopyState.Copied.forwards {s : CopyState Arena} {p : CopyPlan} {b : ByteArray} {h : Arena}
    {cs : List Copy} (hs : s.Copied p b h cs) : Forwards cs (resolve? s.image s.starts) where
  start c hc hdvd := by
    rw [resolve?_eq_some, Bytes.valueAt_eq_number]
    exact ⟨hdvd, (hs.starts _).mpr ⟨c, hc, rfl⟩, hs.marks c hc⟩
  only offset dest hresolve := by
    obtain ⟨hdvd, hcontains, -⟩ := resolve?_eq_some.mp hresolve
    exact ⟨hdvd, (hs.starts _).mp hcontains⟩

namespace Archive

variable {a : Archive} {runtime : ReferenceEncoding} {delta : UInt64} {cs : List Copy}

/-- A reference that follows the plan is redirected to the copy of its referent. -/
theorem redirects_of_follows {image : ByteArray} {starts : BitMap} {position old new : Nat}
    (h : (a.plan runtime delta).Follows image starts position old new) (offset : Nat) :
    a.Redirects runtime (resolve? image starts) offset old new := by
  cases h with
  | null => exact ⟨fun _ => rfl, fun hne => absurd rfl hne⟩
  | target hne hbase hresolve hencode =>
    refine ⟨fun hzero => absurd hzero hne, fun _ => ⟨hbase, _, hresolve, ?_⟩⟩
    obtain ⟨-, -, rfl⟩ := resolve?_eq_some.mp hresolve
    have hlt := ReferenceEncoding.encode_lt (Bytes.valueAt_lt _ _ wordSize) hencode
    exact hencode.trans (congrArg Except.ok (Nat.mod_eq_of_lt hlt).symm)

/-! ## Both passes -/

/-- The slots of an archive have four or eight bytes. -/
theorem isSlotSize (a : Archive) : IsSlotSize a.slotSize := a.encoding.isSlotSize

/-- The references of a copy are where the map of its region has them. -/
theorem references_plan (hslot : a.slotSize = runtime.slotSize) (c : Copy) :
    c.references (a.plan runtime delta) =
      c.places (a.maps c.region).references a.slotSize (a.header.range c.region).bottom := by
  rw [Copy.references, maps_plan, hslot]
  rfl

/-- The native pointers of a copy are where the map of its region has them. -/
theorem natives_plan (c : Copy) : c.natives (a.plan runtime delta) =
    c.places (a.maps c.region).natives wordSize (a.header.range c.region).bottom := by
  rw [Copy.natives, maps_plan]
  rfl

/-- In a copy no marked native pointer overlaps a marked reference. -/
theorem MarksApart.places_apart (hapart : a.MarksApart) (hslot : a.slotSize = runtime.slotSize)
    (hall : (a.plan runtime delta).Complete a.image cs) {c : Copy} (hc : c ∈ cs) {i j : Nat}
    (hi : i ∈ c.references (a.plan runtime delta)) (hj : j ∈ c.natives (a.plan runtime delta)) :
    i + a.slotSize ≤ j ∨ j + wordSize ≤ i := by
  rw [references_plan hslot] at hi
  rw [natives_plan] at hj
  obtain ⟨bit, hbit, hplace⟩ := hall.mark_of_mem_places hc a.isSlotSize.dvd_wordSize hi
  obtain ⟨bit', hbit', hplace'⟩ := hall.mark_of_mem_places hc (Nat.dvd_refl _) hj
  have hmarks := hapart.apart hbit hbit'
  change c.dest + a.slotOffset c.region bit = _ at hplace
  change c.dest + a.nativeOffset c.region bit' = _ at hplace'
  omega

/-- A copy of an unmarked byte is in none of the references of all copies. -/
theorem Unmarked.outside_references {c : Copy} {k : Nat}
    (h : a.Unmarked Region.all (c.span.offset + k)) (hslot : a.slotSize = runtime.slotSize)
    (hall : (a.plan runtime delta).Complete a.image cs)
    (hapart : cs.Pairwise fun c d => c.stop ≤ d.dest ∨ d.stop ≤ c.dest) (hc : c ∈ cs)
    (hk : k < c.span.size) {i : Nat}
    (hi : i ∈ cs.flatMap fun c => c.references (a.plan runtime delta)) :
    c.dest + k < i ∨ i + a.slotSize ≤ c.dest + k := by
  rcases mem_references_or_apart hapart hc hi with hi | hout
  · rw [references_plan hslot] at hi
    obtain ⟨bit, hbit, hplace⟩ := hall.mark_of_mem_places hc a.isSlotSize.dvd_wordSize hi
    have hmark := h.references c.region c.region.mem_all bit hbit
    change c.dest + a.slotOffset c.region bit = _ at hplace
    omega
  · change i + runtime.slotSize ≤ _ ∨ _ at hout
    rw [← hslot, Copy.stop] at hout
    omega

/-- A copy of an unmarked byte is in none of the native pointers of its copy. -/
theorem Unmarked.outside_natives {c : Copy} {k : Nat}
    (h : a.Unmarked Region.all (c.span.offset + k))
    (hall : (a.plan runtime delta).Complete a.image cs) (hc : c ∈ cs) {i : Nat}
    (hi : i ∈ c.natives (a.plan runtime delta)) :
    c.dest + k < i ∨ i + wordSize ≤ c.dest + k := by
  rw [natives_plan] at hi
  obtain ⟨bit, hbit, hplace⟩ := hall.mark_of_mem_places hc (Nat.dvd_refl _) hi
  have hmark := h.natives c.region c.region.mem_all bit hbit
  change c.dest + a.nativeOffset c.region bit = _ at hplace
  omega

/-- **Both passes.** Put back into the image, the copies show it with its bytes adjusted. -/
theorem adjusts_of_passes {s : CopyState Arena} {h : Arena} {v : Nat → UInt8} (hsound : a.Sound)
    (hapart : a.MarksApart) (hslot : a.slotSize = runtime.slotSize)
    (hcopied : s.Copied (a.plan runtime delta) a.image h cs)
    (hall : (a.plan runtime delta).Complete a.image cs)
    (hrewrites : Rewrites a.slotSize ((a.plan runtime delta).Follows s.image s.starts)
      (cs.flatMap fun c => c.references (a.plan runtime delta)) s.heap.byte v) :
    a.Adjusts Region.all (a.Redirects runtime (resolve? s.image s.starts)) delta
      (Bytes.get a.image) (Copy.gathered (Bytes.get a.image) v · cs) where
  references region _ bit hbit := by
    obtain ⟨c, hc, rfl, k, hoffset, hplace⟩ := hall.exists_place a.isSlotSize.pos
      a.isSlotSize.dvd_wordSize hbit (hsound.slot_bounds hbit)
    obtain ⟨-, hstop⟩ := Copy.bounds_of_mem_places hplace
    have hmem : c.dest + k ∈ c.references (a.plan runtime delta) :=
      (references_plan hslot c).symm ▸ hplace
    have hk : k + a.slotSize ≤ c.span.size := by
      rw [Copy.stop] at hstop
      omega
    have hold := (hcopied.contents c hc).number_eq hk fun i hi =>
      hapart.places_apart hslot hall hc hmem hi
    change a.slotOffset c.region bit = _ at hoffset
    rw [hoffset, Copy.number_gathered hcopied.stream hc hk, ← hold]
    exact redirects_of_follows (hrewrites.inside _ (List.mem_flatMap.mpr ⟨c, hc, hmem⟩)) _
  natives region _ bit hbit := by
    obtain ⟨c, hc, rfl, k, hoffset, hplace⟩ := hall.exists_place (by decide) (Nat.dvd_refl _) hbit
      (hsound.native_bounds hbit)
    obtain ⟨hstart, hstop⟩ := Copy.bounds_of_mem_places hplace
    have hmem : c.dest + k ∈ c.natives (a.plan runtime delta) := (natives_plan c).symm ▸ hplace
    have hk : k + wordSize ≤ c.span.size := by
      rw [Copy.stop] at hstop
      omega
    -- The second pass leaves the native pointers of the copy alone.
    have hkept := hrewrites.number_eq fun i hi => by
      rcases mem_references_or_apart hcopied.apart hc hi with hi | hout
      · exact (hapart.places_apart hslot hall hc hi hmem).symm
      · change i + runtime.slotSize ≤ _ ∨ _ at hout
        rw [← hslot] at hout
        omega
    change a.nativeOffset c.region bit = _ at hoffset
    rw [hoffset, Copy.number_gathered hcopied.stream hc hk, hkept]
    exact (hcopied.contents c hc).number_native hmem
  others j hj := by
    by_cases hin : ∃ c ∈ cs, c.span.offset ≤ j ∧ j < c.span.stop
    · obtain ⟨c, hc, hlow, hhigh⟩ := hin
      obtain ⟨k, rfl⟩ := Nat.exists_eq_add_of_le hlow
      have hk : k < c.span.size := Nat.lt_of_add_lt_add_left hhigh
      rw [Copy.gathered_add hcopied.stream hc hk,
        hrewrites.outside _ fun _ hi => hj.outside_references hslot hall hcopied.apart hc hk hi,
        (hcopied.contents c hc).byte_eq hk fun _ hi => hj.outside_natives hall hc hi]
    · apply Copy.gathered_of_outside
      intro c hc
      exact Nat.lt_or_ge j c.span.offset |>.imp_right fun hle =>
        Nat.not_lt.mp fun hlt => hin ⟨c, hc, hle, hlt⟩

/-! ## Counts -/

/-- The marked slots of an image are those of its objects, region by region. -/
theorem slotValues_perm (hsound : a.Sound) (hslot : a.slotSize = runtime.slotSize)
    (hall : (a.plan runtime delta).Complete a.image cs) :
    (cs.flatMap fun c => (c.references (a.plan runtime delta)).map fun i =>
      Bytes.valueAt a.image (c.span.offset + (i - c.dest)) a.slotSize).Perm a.slotValues := by
  have hregion : ∀ region, (a.maps region).references.toList.map (a.slotValue region) =
      (cs.filter fun c => c.region = region).flatMap fun c =>
        (c.references (a.plan runtime delta)).map fun i =>
          Bytes.valueAt a.image (c.span.offset + (i - c.dest)) a.slotSize := by
    intro region
    rw [hall.toList_eq a.isSlotSize.pos a.isSlotSize.dvd_wordSize (hsound.size_references region),
      List.map_flatMap]
    apply List.flatMap_congr
    intro c hc
    obtain ⟨hmem, hregion⟩ := List.mem_filter.mp hc
    obtain rfl := of_decide_eq_true hregion
    obtain ⟨hbottom, hoffset, -⟩ := hall.bounds hmem
    have hfirst := Nat.div_mul_cancel (Nat.dvd_trans a.isSlotSize.dvd_wordSize hoffset)
    rw [references_plan hslot, Copy.places, List.map_map]
    apply List.map_congr_left
    intro bit hbit
    obtain ⟨k, rfl⟩ := Nat.exists_eq_add_of_le (BitMap.mem_ones.mp hbit).1
    have hstart : (a.plan runtime delta).bottom c.region = (a.header.range c.region).bottom := rfl
    rw [hstart] at hbottom hfirst ⊢
    rw [Function.comp_apply, slotValue, slotOffset, Nat.add_sub_cancel_left,
      Nat.add_sub_cancel_left, Nat.add_mul, hfirst, ← Nat.add_assoc, Nat.add_sub_of_le hbottom]
  -- The copies come in the order of the heap and the slots in that of the regions.
  rw [slotValues, Region.all, List.flatMap_cons, List.flatMap_cons, List.flatMap_nil,
    List.append_nil, hregion, hregion, ← List.flatMap_append]
  exact ((Copy.filter_append_perm cs).flatMap_right _).symm

/-- **The counts of a load that copies** are those of its archive: each reference that is marked and
not null has been rewritten once, and each marked native pointer has been moved once. -/
theorem counts_of_passes {s : CopyState Arena} {h : Arena} (hsound : a.Sound)
    (hapart : a.MarksApart) (hslot : a.slotSize = runtime.slotSize)
    (hcopied : s.Copied (a.plan runtime delta) a.image h cs)
    (hall : (a.plan runtime delta).Complete a.image cs) :
    s.counts.addSlots ((cs.flatMap fun c => c.references (a.plan runtime delta)).map fun i =>
      Bytes.number s.heap.byte i a.slotSize) = a.loadCounts delta := by
  have hnatives := hall.sum_nativeCount fun region => by
    rw [maps_plan]
    exact hsound.size_natives region
  -- The first pass has left the references of each copy as they are in the image.
  have hvalues : ((cs.flatMap fun c => c.references (a.plan runtime delta)).map fun i =>
      Bytes.number s.heap.byte i a.slotSize) =
        cs.flatMap fun c => (c.references (a.plan runtime delta)).map fun i =>
          Bytes.valueAt a.image (c.span.offset + (i - c.dest)) a.slotSize := by
    rw [List.map_flatMap]
    apply List.flatMap_congr
    intro c hc
    apply List.map_congr_left
    intro i hi
    obtain ⟨hstart, hstop⟩ := Copy.bounds_of_mem_places hi
    obtain ⟨k, rfl⟩ := Nat.exists_eq_add_of_le hstart
    change _ + runtime.slotSize ≤ _ at hstop
    rw [← hslot, Copy.stop] at hstop
    rw [Nat.add_sub_cancel_left, Bytes.valueAt_eq_number]
    exact (hcopied.contents c hc).number_eq (by omega) fun j hj =>
      hapart.places_apart hslot hall hc hi hj
  rw [hcopied.counts, hnatives, hvalues, loadCounts_eq]
  exact LoadCounts.addSlots_congr _ ((slotValues_perm hsound hslot hall).map _)

/-! ## Loads that copy -/

/-- **Every byte of the copies.** Let no marked word of an archive that has been read overlap a
marked slot, and let its objects be copied. Put back to where they come from, the copies of all
objects show the image with its bytes adjusted: marked references that are null stay null, each
other one is rewritten once, to the new address of its target, each marked native pointer is moved
once, and all other bytes are those of the image, mark words among them. -/
theorem adjusts_of_copyImage {bytes : ByteArray} {checksum : Bool} {h h' : Arena}
    {o : CopiedObjects} (hread : ofBytes bytes checksum = .ok a) (hapart : a.MarksApart)
    (hreachable : h.Reachable) (hcopy : copyImage a h runtime delta = (.ok o, h')) :
    ∃ (cs : List Copy) (forward : Nat → Option Nat) (v : Nat → UInt8),
      (a.plan runtime delta).Complete a.image cs ∧ Grouped o.blocks.toList cs ∧
      o.objects = cs.length ∧ o.counts = a.loadCounts delta ∧ Forwards cs forward ∧
      a.Adjusts Region.all (a.Redirects runtime forward) delta (Bytes.get a.image) v ∧
      ∀ c ∈ cs, ∃ copied, Memory.read? h' c.dest c.span.size = some copied ∧
        ∀ k < c.span.size, Bytes.get copied k = v (c.span.offset + k) := by
  have hsound := sound_of_ofBytes hread
  have hslot : a.slotSize = runtime.slotSize := (checkEncodings_eq_ok (of_copyImage hcopy).1).1
  obtain ⟨s, cs, hcopied, hall, hblocks, hobjects, hcounts, -, hwell, hkeeps, hrewrites⟩ :=
    passes_of_copyImage hsound.regions hsound.size_image hreachable.wellFormed hcopy
  rw [← hslot] at hcounts hrewrites
  refine ⟨cs, _, _, hall, hblocks ▸ hcopied.blocks, hobjects.trans hcopied.objects,
    hcounts.trans (counts_of_passes hsound hapart hslot hcopied hall), hcopied.forwards,
    adjusts_of_passes hsound hapart hslot hcopied hall hrewrites, ?_⟩
  intro c hc
  obtain ⟨copied, hcopied', -, hbytes⟩ :=
    (hkeeps _ _ (hcopied.holds c hc)).read? hwell (hall.size_pos hc)
  refine ⟨copied, hcopied', fun k hk => ?_⟩
  rw [hbytes k hk, Copy.gathered_add hcopied.stream hc hk]

/-- A cycle of two pairs that refer to each other can be copied. -/
theorem exists_copied_cycle : ∃ a o h', dump .pairs .cycle .cycle .small = .ok a ∧
    a.fileSize < 2 ^ 64 ∧ a.MarksApart ∧
    copyImage a Arena.standard (.narrow 0 3) 0x100 = (.ok o, h') := by
  have hok : ((dump .pairs .cycle .cycle .small).toOption.any fun a =>
      (copyImage a Arena.standard (.narrow 0 3) 0x100).1.toOption.any fun _ =>
        decide (a.fileSize < 2 ^ 64 ∧ a.MarksApart)) = true := by
    decide +kernel
  obtain ⟨a, hdump, hok⟩ := Except.exists_of_any hok
  obtain ⟨o, h', hcopy, hok⟩ := Except.exists_of_any_state (p := fun _ _ => decide _) hok
  obtain ⟨hsize, hapart⟩ := of_decide_eq_true hok
  exact ⟨a, o, h', hdump, hsize, hapart, hcopy⟩

/-- The cycle is copied to a fresh heap with its native pointer moved. -/
theorem adjusts_of_copyImage_cycle : ∃ a o h', ∃ cs : List Copy, ∃ forward v,
    ofBytes a.toBytes false = .ok a ∧ a.MarksApart ∧
    copyImage a Arena.standard (.narrow 0 3) 0x100 = (.ok o, h') ∧ o.objects = cs.length ∧
    o.counts = a.loadCounts 0x100 ∧
    a.Adjusts Region.all (a.Redirects (.narrow 0 3) forward) 0x100 (Bytes.get a.image) v := by
  obtain ⟨a, o, h', hdump, hsize, hapart, hcopy⟩ := exists_copied_cycle
  obtain ⟨-, -, hread⟩ := sections_of_dump DumpOptions.inWords_small TypeRegistry.fitsTable_pairs
    hdump hsize
  obtain ⟨cs, forward, v, -, -, hobjects, hcounts, -, hadjusts, -⟩ :=
    adjusts_of_copyImage (hread false) hapart .standard hcopy
  exact ⟨a, o, h', cs, forward, v, hread false, hapart, hcopy, hobjects, hcounts, hadjusts⟩

end Archive

end HeapImage
