import HeapImage.Proofs.ArenaRoom
import HeapImage.Proofs.CopyFrames
import HeapImage.Proofs.LoadedMembers

/-! # Copies that get to their end

A copy asks the arena for memory and looks up the target of every reference. Neither fails where an
image holds the members of a graph, the arena keeps pace and every address that it may give can be
stored. So such an image is copied to the end.

* `CopyState.Paced`: a copy under way into an arena that keeps pace.
* `CopyStep.exists_runs_materialize`: the first pass gets to its end.
* `CopyStep.exists_runs_relocate`: the second pass gets to its end.
* `Archive.HoldsMembers.exists_copyImage`: the members of a graph are copied. -/

namespace HeapImage

/-! ## The first pass -/

/-- A copy under way into an arena that keeps pace. The arena has chunks of at least `chunk` bytes
and has allocated `bytes` bytes, and the image has `size` bytes. -/
structure CopyState.Paced (s : CopyState Arena) (base chunk bytes size : Nat) : Prop where
  heap : s.heap.Paced base 0
  chunkSize : s.heap.chunkSize = chunk
  allocatedBytes : s.heap.allocatedBytes = bytes
  image : s.image.size = size
  blocks : ∀ b ∈ s.blocks.toList, wordSize ∣ b.dest.bottom

namespace CopyStep

variable {s : CopyState Arena} {p : CopyPlan} {base chunk bytes size : Nat}

/-- An allocation that the arena grants runs. -/
theorem runs_allocate {request : AllocationRequest} {a : Nat} {heap : Arena}
    (h : s.heap.allocate request = (.ok a, heap)) :
    Runs (allocate request) s a { s with heap := heap } := by
  rw [allocate, runs_modifyGet_bind, show Destination.allocate s.heap request = _ from h]
  exact runs_pure.mpr ⟨rfl, rfl⟩

/-- A write that the arena takes runs. -/
theorem runs_write {a : Nat} {b : ByteArray} (h : s.heap.canWrite a b.size = true) :
    Runs (write a b) s true { s with heap := s.heap.write a b } := by
  have hwrite : Memory.tryWrite s.heap a b = (true, s.heap.write a b) := if_pos h
  rw [write, runs_modifyGet, hwrite]
  exact ⟨rfl, rfl⟩

/-- Blocks start where copies start. -/
theorem dvd_extendBlocks {blocks : Array Block} (h : ∀ b ∈ blocks.toList, wordSize ∣ b.dest.bottom)
    (region : Region) (o : ObjectSpan) {dest : Nat} (hdest : wordSize ∣ dest) :
    ∀ b ∈ (extendBlocks blocks region o dest).toList, wordSize ∣ b.dest.bottom := by
  intro b hb
  rcases of_mem_extendBlocks hb with hb | rfl | ⟨last, hlast, -, rfl⟩
  · exact h b hb
  · exact hdest
  · exact h last hlast

/-- **One object** of whole heap words is copied. -/
theorem exists_runs_copyObject {region : Region} {o : ObjectSpan}
    (hs : s.Paced base chunk bytes size) (hdelta : p.delta = 0) (hpos : 0 < o.size)
    (hdvd : wordSize ∣ o.size) (hinside : o.stop ≤ size)
    (hfits : o.size + chunk + Arena.pageSize ≤ maxBuffer) :
    ∃ t, Runs (copyObject p region o) s ⟨⟩ t ∧ t.Paced base chunk (bytes + o.size) size := by
  have hsize : (s.image.extract o.offset o.stop).size = o.size := by
    rw [ByteArray.size_extract, hs.image, Nat.min_eq_left hinside, ObjectSpan.stop,
      Nat.add_sub_cancel_left]
  obtain ⟨dest, heap, hallocate, hheap, hbytes, hchunk, hdest⟩ :=
    hs.heap.allocate (requestFor o) hdvd (hs.chunkSize.symm ▸ hfits)
  have hholds := (Arena.of_allocate hs.heap.wellFormed hallocate).holds
  have hcan : heap.canWrite dest (s.image.extract o.offset o.stop).size = true := by
    rw [hsize]
    exact hholds.canWrite hheap.wellFormed hpos
  refine ⟨{ s with
    heap := heap.write dest (s.image.extract o.offset o.stop)
    blocks := extendBlocks s.blocks region o dest
    starts := s.starts.insert (o.offset / wordSize)
    image := Bytes.setWord s.image o.offset (UInt64.ofNat dest)
    objects := s.objects + 1 }, ?_, ?_⟩
  · rw [copyObject, runs_bind]
    refine ⟨dest, _, runs_allocate hallocate, ?_⟩
    rw [runs_get_bind, runs_bind]
    refine ⟨true, _, runs_write hcan, ?_⟩
    rw [runs_guard, runs_ite, runs_modify]
    exact ⟨Bool.false_ne_true, .inr ⟨not_not.mpr hdelta, rfl⟩⟩
  · obtain ⟨-, -, hchunk', hbytes'⟩ := heap.settings_write dest (s.image.extract o.offset o.stop)
    refine ⟨hheap.write .., hchunk'.trans (hchunk.trans hs.chunkSize), ?_, ?_, ?_⟩
    · rw [hbytes', hbytes, hs.allocatedBytes]
      rfl
    · rw [Bytes.size_setWord]
      exact hs.image
    · exact dvd_extendBlocks hs.blocks region o hdest

/-- **A row of objects** is copied. -/
theorem exists_runs_row (region : Region) {b : ByteArray} {r : TypeRegistry}
    {slot start stop : Nat} {xs : List ObjectSpan} (hs : s.Paced base chunk bytes size)
    (hdelta : p.delta = 0) (hrow : ObjectSpan.Row b r slot start xs stop) (hstop : stop ≤ size)
    (hfits : size + chunk + Arena.pageSize ≤ maxBuffer) :
    ∃ t, Runs (xs.forM (copyObject p region)) s ⟨⟩ t ∧
      t.Paced base chunk (bytes + (stop - start)) size := by
  have hsum : (xs.map ObjectSpan.size).sum = stop - start :=
    Nat.eq_sub_of_add_eq' hrow.tiles.add_sum
  rw [← hsum]
  refine exists_runs_forM (copyObject p region) xs
    (fun done w => w.Paced base chunk (bytes + (done.map ObjectSpan.size).sum) size) hs ?_
  intro done o rest w hxs hw
  have hmem : o ∈ xs := hxs ▸ List.mem_append_right _ (List.mem_cons_self ..)
  have hfound := hrow.found o hmem
  have hin := hfound.stop_le
  have hdvd : wordSize ∣ o.size := by
    rw [hfound.size]
    exact TypeKind.wordSize_dvd_objectSize ..
  rw [ObjectSpan.stop] at hin
  rw [List.map_append, List.sum_append, List.map_singleton, List.sum_singleton, ← Nat.add_assoc]
  exact exists_runs_copyObject hw hdelta hfound.size_pos hdvd (Nat.le_trans hin hstop) (by omega)

/-- **The objects of a region** are copied. -/
theorem exists_runs_materializeRegion {region : Region} {e : Extent} {xs : List ObjectSpan}
    (hs : s.Paced base chunk bytes size) (hdelta : p.delta = 0)
    (he : p.header.range region = e)
    (hrow : ObjectSpan.Row s.image p.types p.slotSize e.bottom xs e.top) (htop : e.top ≤ size)
    (hfits : size + chunk + Arena.pageSize ≤ maxBuffer) :
    ∃ t, Runs (materializeRegion p region) s ⟨⟩ t ∧
      t.Paced base chunk (bytes + (e.top - e.bottom)) size := by
  subst he
  obtain ⟨t, hrun, ht⟩ := exists_runs_row region hs hdelta hrow htop hfits
  refine ⟨t, ?_, ht⟩
  rw [materializeRegion, runs_get_bind, (ObjectSpan.scan_eq hrow.tiles.le).mpr hrow]
  exact runs_bind.mpr ⟨⟨⟩, t, hrun, runs_pure.mpr ⟨rfl, rfl⟩⟩

/-- **The first pass** gets to its end. -/
theorem exists_runs_materialize {b : ByteArray} {h : Arena} (hp : h.Paced base 0)
    (hdelta : p.delta = 0) (hregions : p.header.SoundRegions)
    (hsize : b.size = p.header.imageLength.toNat)
    (hrow : ∀ region, ∃ xs, ObjectSpan.Row b p.types p.slotSize (p.header.range region).bottom xs
      (p.header.range region).top)
    (hfits : b.size + h.chunkSize + Arena.pageSize ≤ maxBuffer) :
    ∃ t, Runs (materialize p) ⟨h, b, BitMap.empty (b.size / wordSize), #[], 0, .zero⟩ ⟨⟩ t ∧
      t.Paced base h.chunkSize
        (h.allocatedBytes + p.header.openSize.toNat + p.header.closedSize.toNat) b.size := by
  have hzero : p.header.openOffset.toNat = 0 := by
    rw [hregions.openOffset]
    rfl
  have hopen := hregions.openSize_le
  have hclosed := hregions.closedStop_le
  have htop : ∀ region, (p.header.range region).top ≤ b.size := by
    intro region
    cases region with
    | opened =>
      change p.header.openOffset.toNat + p.header.openSize.toNat ≤ b.size
      omega
    | closed =>
      change p.header.closedOffset.toNat + p.header.closedSize.toNat ≤ b.size
      omega
  obtain ⟨xs, hopened⟩ := hrow .opened
  obtain ⟨ys, hclosed'⟩ := hrow .closed
  have hstart : CopyState.Paced ⟨h, b, BitMap.empty (b.size / wordSize), #[], 0, .zero⟩ base
      h.chunkSize h.allocatedBytes b.size := ⟨hp, rfl, rfl, rfl, fun _ hb => nomatch hb⟩
  obtain ⟨s, hrun, hs⟩ :=
    exists_runs_materializeRegion hstart hdelta rfl hopened (htop .opened) hfits
  -- The marks left behind by the first region lie in front of the second one.
  obtain ⟨ds, hcopied, -, hds⟩ := (CopyState.Copied.start hp.wellFormed).region rfl
    hopened.tiles.le (htop .opened) (fun _ hc => nomatch hc) hrun
  rw [List.nil_append] at hcopied
  have hrow' := hclosed'.congr hcopied.size fun j hlow _ => hcopied.unmarked j (by
    intro c hc
    have hstop := (hds.found _ (List.mem_map_of_mem hc)).stop_le
    change c.span.stop ≤ p.header.openOffset.toNat + p.header.openSize.toNat at hstop
    change p.header.closedOffset.toNat ≤ j at hlow
    exact .inr (by omega))
  obtain ⟨t, hrun', ht⟩ :=
    exists_runs_materializeRegion hs hdelta rfl hrow' (htop .closed) hfits
  refine ⟨t, ?_, ?_⟩
  · exact runs_forM_cons.mpr ⟨s, hrun, runs_forM_cons.mpr ⟨t, hrun', runs_forM_nil.mpr rfl⟩⟩
  · have hsizes : (p.header.range .opened).top - (p.header.range .opened).bottom =
        p.header.openSize.toNat ∧
        (p.header.range .closed).top - (p.header.range .closed).bottom =
          p.header.closedSize.toNat :=
      ⟨Nat.add_sub_cancel_left .., Nat.add_sub_cancel_left ..⟩
    rwa [hsizes.1, hsizes.2] at ht

/-! ## The second pass -/

/-- **One reference** is replaced if its new value is known. -/
theorem exists_runs_relocateSlot {a : Nat} (hw : s.heap.WellFormed)
    (hh : s.heap.Holds a p.slotSize) (hvalue : Bytes.number s.heap.byte a p.slotSize ≠ 0 →
      ∃ value, rebased p s a (Bytes.number s.heap.byte a p.slotSize) = .ok value) :
    ∃ t, Runs (relocateSlot p a) s ⟨⟩ t ∧ (s.heap.Addressable → t.heap.Addressable) := by
  have hpos := p.isSlotSize.pos
  by_cases hzero : Bytes.number s.heap.byte a p.slotSize = 0
  · refine ⟨{ s with counts := { s.counts with nulls := s.counts.nulls + 1 } }, ?_, id⟩
    rw [relocateSlot, runs_get_bind, hh.readValue? hw hpos]
    dsimp only
    rw [if_pos hzero, runs_modify]
  · obtain ⟨value, hvalue⟩ := hvalue hzero
    have hcan : s.heap.canWrite a (Arena.numeral p.slotSize value).size = true := by
      rw [Arena.size_numeral]
      exact hh.canWrite hw hpos
    refine ⟨{ s with
      heap := s.heap.write a (Arena.numeral p.slotSize value)
      counts := { s.counts with references := s.counts.references + 1 } }, ?_,
      fun ha => ha.write hw _ _⟩
    rw [relocateSlot, runs_get_bind, hh.readValue? hw hpos]
    dsimp only
    rw [if_neg hzero, runs_ofExcept_bind]
    refine ⟨value, hvalue, runs_bind.mpr ⟨true, _, runs_write hcan, ?_⟩⟩
    rw [if_pos rfl, runs_modify]

/-- **The second pass** gets to its end if the new value of every reference is known. -/
theorem exists_runs_relocate {b : ByteArray} {h : Arena} {cs : List Copy}
    (hs : s.Copied p b h cs) (hall : p.Complete b cs)
    (hvalues : ∀ c ∈ cs, ∀ a ∈ c.references p, Bytes.number s.heap.byte a p.slotSize ≠ 0 →
      ∃ value, rebased p s a (Bytes.number s.heap.byte a p.slotSize) = .ok value) :
    ∃ t, Runs (relocate p) s ⟨⟩ t ∧ (s.heap.Addressable → t.heap.Addressable) := by
  have hapart := references_pairwise (p := p) hs.apart
  have hloop := exists_runs_forM (relocateSlot p) (cs.flatMap fun c => c.references p)
    (fun done w => Runs (done.forM (relocateSlot p)) s ⟨⟩ w ∧
      (s.heap.Addressable → w.heap.Addressable))
    ⟨runs_forM_nil.mpr rfl, id⟩ (by
      rintro done a rest w hplaces ⟨hrun, hkeeps⟩
      rw [hplaces, List.pairwise_append] at hapart
      obtain ⟨heap, rfl, hwell, hholds, hrewrites⟩ :=
        follows_of_runs_relocateSlots hs.wellFormed hapart.1 hrun
      have hmem : a ∈ cs.flatMap fun c => c.references p :=
        hplaces ▸ List.mem_append_right _ (List.mem_cons_self ..)
      obtain ⟨c, hc, ha⟩ := List.mem_flatMap.mp hmem
      obtain ⟨hlow, hhigh⟩ := Copy.bounds_of_mem_places ha
      -- The references before this one lie elsewhere, so its target is still the one it had.
      have hold : Bytes.number heap.byte a p.slotSize = Bytes.number s.heap.byte a p.slotSize :=
        hrewrites.number_eq fun i hi =>
          (hapart.2.2 i hi a (List.mem_cons_self ..)).symm
      obtain ⟨t, hstep, hkeeps'⟩ := exists_runs_relocateSlot (p := p)
        (s := { s with
          heap := heap
          counts := s.counts.addSlots (done.map fun a => Bytes.number s.heap.byte a p.slotSize) })
        hwell ((hholds _ _ (hs.holds c hc)).part hlow hhigh) (by
          dsimp only
          rw [hold]
          exact hvalues c hc a ha)
      refine ⟨t, hstep, runs_forM_append.mpr ⟨_, hrun, ?_⟩, fun h => hkeeps' (hkeeps h)⟩
      exact runs_forM_cons.mpr ⟨t, hstep, runs_forM_nil.mpr rfl⟩)
  obtain ⟨t, hrun, -, hkeeps⟩ := hloop
  rw [← hs.blocks.slots_eq hall] at hrun
  exact ⟨t, runs_get_bind.mpr (runs_relocateBlocks.mpr hrun), hkeeps⟩

/-- A copy gets to its end behind both passes if the root array has been copied. -/
theorem runs_load {t u : CopyState Arena} {root : Nat} (hmaterialize : Runs (materialize p) s ⟨⟩ t)
    (hrelocate : Runs (relocate p) t ⟨⟩ u)
    (hroot : resolve? u.image u.starts p.header.rootOffset.toNat = some root) :
    Runs (load p) s root { u with
      heap := u.blocks.foldl (fun h b => Destination.completeLoaded h b.dest) u.heap } := by
  rw [load, runs_bind]
  refine ⟨⟨⟩, t, hmaterialize, runs_bind.mpr ⟨⟨⟩, u, hrelocate, ?_⟩⟩
  rw [complete, runs_modify_bind, runs_get_bind]
  dsimp only
  rw [hroot]
  exact runs_pure.mpr ⟨rfl, rfl⟩

end CopyStep

/-- An image is copied if both passes get to their end. -/
theorem copyImage_of_runs {a : Archive} {h : Arena} {runtime : ReferenceEncoding} {delta : UInt64}
    {root : Nat} {t : CopyState Arena} (hcheck : checkEncodings a.encoding runtime = .ok ())
    (hrun : Runs (CopyStep.load (a.plan runtime delta))
      ⟨h, a.image, BitMap.empty (a.image.size / wordSize), #[], 0, .zero⟩ root t) :
    copyImage a h runtime delta =
      (.ok ⟨root, t.blocks, t.objects, a.types, runtime, t.counts⟩, t.heap) := by
  have hload : (CopyStep.load ⟨a.header, a.types, a.opened, a.closed, runtime, delta⟩).run
      ⟨h, a.image, BitMap.empty (a.image.size / wordSize), #[], 0, .zero⟩ = (.ok root, t) := hrun
  rw [copyImage, hcheck]
  dsimp only
  rw [hload]

/-! ## Copies of members -/

/-- If blocks start at heap words and copies are made of them, all copies start at heap words. -/
theorem Grouped.dvd_dest {blocks : List Block} {cs : List Copy} (h : Grouped blocks cs)
    (hblocks : ∀ b ∈ blocks, wordSize ∣ b.dest.bottom)
    (hsize : ∀ c ∈ cs, wordSize ∣ c.span.size) : ∀ c ∈ cs, wordSize ∣ c.dest := by
  obtain ⟨groups, rfl, rfl, hcovers⟩ := h
  intro c hc
  obtain ⟨g, hg, hc⟩ := List.mem_flatMap.mp hc
  refine ((hcovers g hg).dest.dvd (hblocks g.1 (List.mem_map_of_mem hg)) ?_).1 c hc
  exact fun d hd => hsize d (List.mem_flatMap.mpr ⟨g, hg, hd⟩)

/-- A copied object that starts at a heap word is found. -/
theorem CopyState.Copied.resolve?_eq {s : CopyState Arena} {p : CopyPlan} {b : ByteArray}
    {h : Arena} {cs : List Copy} (hs : s.Copied p b h cs) {c : Copy} (hc : c ∈ cs)
    (haligned : wordSize ∣ c.span.offset) (hlt : c.dest < 2 ^ 64) :
    resolve? s.image s.starts c.span.offset = some c.dest := by
  have hstart := (hs.starts _).mpr ⟨c, hc, rfl⟩
  rw [resolve?, if_pos ⟨Nat.mod_eq_zero_of_dvd haligned, hstart⟩, Bytes.valueAt_eq_number,
    hs.marks c hc, Nat.mod_eq_of_lt hlt]

namespace Archive.HoldsMembers

variable {a : Archive} {g : ObjectGraph} {r : TypeRegistry} {roots : List ObjectId}
variable {native : Extent} {members : Region → List Placed} {ref : ObjectId → Nat}
variable {runtime : ReferenceEncoding} {h : Arena} {cs : List Copy} {s : CopyState Arena}
variable {base limit : Nat}

/-- **The new value of a reference** is known if the copy of its target can be stored. -/
theorem exists_rebased (hm : a.HoldsMembers g r roots native members ref)
    (hslot : a.encoding.slotSize = runtime.slotSize)
    (hs : s.Copied (a.plan runtime 0) a.image h cs)
    (hall : (a.plan runtime 0).Complete a.image cs) (hlt : ∀ c ∈ cs, c.dest < 2 ^ 64)
    (hencode : ∀ c ∈ cs, ∃ value, runtime.encode c.dest = .ok value) {c : Copy} (hc : c ∈ cs)
    {i : Nat} (hi : i ∈ c.references (a.plan runtime 0))
    (hne : Bytes.number s.heap.byte i runtime.slotSize ≠ 0) :
    ∃ value, CopyStep.rebased (a.plan runtime 0) s i
      (Bytes.number s.heap.byte i runtime.slotSize) = .ok value := by
  obtain ⟨x, hx, hspan⟩ := hm.member_of_copy hslot hall hc
  obtain ⟨k, hk, rfl⟩ := (hm.mem_references hslot hx hspan).mp hi
  have hof := hm.of c.region x hx
  obtain ⟨cell, hcell, rfl, target, hvalue⟩ := (hof.mem_referenceOffsets runtime.isSlotSize).mp hk
  have hheld := (hm.held_of_copy hslot (hs.contents c hc) hx hspan).cells cell hcell
  rw [(hof.width_of_reference runtime.isSlotSize hcell hvalue).1, hvalue] at hheld
  dsimp only at hheld
  rw [hheld] at hne ⊢
  cases target with
  | none => exact absurd rfl hne
  | some id =>
    -- The target is a member, its copy is found by its offset, and the place of that can be stored.
    obtain ⟨region, y, hy, hid⟩ := hm.referents c.region x hx cell (hslot.symm ▸ hcell) id hvalue
    obtain ⟨d, hd, -, hdspan, -⟩ := hm.copy_of_member hslot hall hy
    have hoffset : d.span.offset = y.offset := congrArg ObjectSpan.offset hdspan
    have hbelow := hm.below
    have hstop := hm.stop_le hy
    rw [Placed.stop] at hstop
    have hdecode := ReferenceEncoding.decode_encode (by omega) (hm.stored region y hy id hid)
    obtain ⟨value, hstored⟩ := hencode d hd
    refine ⟨value, CopyStep.rebased_eq_ok.mpr ⟨?_, d.dest, ?_, hstored⟩⟩
    · exact (Nat.le_add_right ..).trans_eq hdecode.symm
    · change resolve? s.image s.starts
        (a.encoding.decode (ref id) - a.header.requestedBase.toNat) = some d.dest
      rw [hdecode, Nat.add_sub_cancel_left, ← hoffset]
      exact hs.resolve?_eq hd (hall.aligned hm.regions (.inl hm.aligned) d hd) (hlt d hd)

/-- **The members of a graph are copied** to an arena that keeps pace, if all places where it may
put them can be stored. -/
theorem exists_copyImage (hm : a.HoldsMembers g r roots native members ref)
    (hcheck : checkEncodings a.encoding runtime = .ok ()) (hp : h.Paced base 0) (hbase : base ≠ 0)
    (hfits : a.image.size + h.chunkSize + Arena.pageSize ≤ maxBuffer)
    (hlimit : base + 2 * h.chunkSize + 4 * (h.allocatedBytes + a.header.openSize.toNat +
      a.header.closedSize.toNat) ≤ limit) (hlt : limit ≤ 2 ^ 64)
    (hencode : ∀ address, base ≤ address → address + headerSize ≤ limit → wordSize ∣ address →
      ∃ value, runtime.encode address = .ok value) :
    ∃ objects heap, copyImage a h runtime 0 = (.ok objects, heap) ∧ heap.Addressable := by
  have hslot := (checkEncodings_eq_ok hcheck).1
  have hrows : ∀ region, ∃ xs, ObjectSpan.Row a.image a.types runtime.slotSize
      (a.header.range region).bottom xs (a.header.range region).top := by
    intro region
    have hrow := (hm.row region).spans (hm.of region) (hm.held region) (hm.range_top_le region)
    rw [hslot, ← hm.types] at hrow
    exact ⟨_, hrow⟩
  obtain ⟨s, hmaterialize, hs⟩ := CopyStep.exists_runs_materialize (p := a.plan runtime 0) hp rfl
    hm.regions hm.size hrows hfits
  obtain ⟨cs, hcopied, hall⟩ :=
    (CopyState.Copied.start hp.wellFormed).all hm.regions hm.size hmaterialize
  -- Where the copies are.
  have hdvd := hcopied.blocks.dvd_dest hs.blocks fun c hc => (hall.bounds hc).2.2
  have hplace : ∀ c ∈ cs, base ≤ c.dest ∧ c.dest + headerSize ≤ limit := by
    intro c hc
    obtain ⟨hlow, hhigh⟩ := hs.heap.bounds (hcopied.holds c hc)
    obtain ⟨x, -, hspan⟩ := hm.member_of_copy hslot hall hc
    have hsize : headerSize ≤ c.span.size := by
      rw [hspan]
      exact x.member.headerSize_le_size _
    rw [hs.chunkSize, hs.allocatedBytes] at hhigh
    change c.dest + c.span.size ≤ base + 2 * h.chunkSize + 4 * (h.allocatedBytes +
      a.header.openSize.toNat + a.header.closedSize.toNat) + 0 at hhigh
    omega
  have hword : 0 < headerSize := by decide
  have hlt' : ∀ c ∈ cs, c.dest < 2 ^ 64 := by
    intro c hc
    have hhigh := (hplace c hc).2
    omega
  obtain ⟨t, hrelocate, hkeeps⟩ := CopyStep.exists_runs_relocate hcopied hall fun c hc i hi hne =>
    hm.exists_rebased hslot hcopied hall hlt'
      (fun d hd => hencode d.dest (hplace d hd).1 (hplace d hd).2 (hdvd d hd)) hc hi hne
  obtain ⟨cs', heap, -, -, rfl, -⟩ :=
    CopyStep.of_runs_passes hm.regions hm.size hp.wellFormed hmaterialize hrelocate
  -- The root array is a member, so it has been copied.
  obtain ⟨x, hx, -, hroot⟩ := hm.root
  obtain ⟨d, hd, -, hspan, -⟩ := hm.copy_of_member hslot hall hx
  have hoffset : d.span.offset = a.header.rootOffset.toNat :=
    (congrArg ObjectSpan.offset hspan).trans hroot
  have hresolve := hcopied.resolve?_eq hd (hall.aligned hm.regions (.inl hm.aligned) d hd)
    (hlt' d hd)
  rw [hoffset] at hresolve
  have hrun := copyImage_of_runs hcheck (CopyStep.runs_load hmaterialize hrelocate hresolve)
  refine ⟨_, _, hrun, ?_⟩
  have hchunks := (CopyStep.chunks_completeLoaded s.blocks heap).1
  rw [Arena.Addressable]
  dsimp only
  rw [hchunks]
  refine hkeeps (hs.heap.addressable hbase ?_)
  rw [hs.chunkSize, hs.allocatedBytes]
  exact Nat.le_trans hlimit hlt

end Archive.HoldsMembers

end HeapImage
