import HeapImage.Heap.Sums
import HeapImage.Proofs.CheckedWalks
import HeapImage.Proofs.CheckedSteps
import HeapImage.Proofs.CopySteps

/-! # What a copy keeps

A copy into any heap whatever keeps the sizes of the image and of the map of starts, and its blocks
start at heap words of their regions. A heap may leave no room for an address when it has answered a
request; if it does leave room in the end, it has left room all the time.

* `SumsFit`: heaps whose sums are addresses as long as they end up as heaps that fit.
* `CopyState.Framed`: what holds at every time of a copy.
* `CopyStep.OnlyWrites`: steps that write to the heap and count, and do nothing else.
* `CopyPlan.Inside`: plans whose regions lie in the image.
* `ObjectSpan.word_le_of_mem_ones`, `Block.InRegion.slot_le_of_mem_ones`: where bits lead. -/

namespace HeapImage

/-! ## Heaps -/

/-- What a heap adds up to answer a request are addresses, for every valid heap that still fits when
it has been answered. A heap that fits has fitted before. -/
structure SumsFit {μ : Type} [Destination μ] [HeapSums μ] (space : AddressSpace)
    (Valid Fits : μ → Prop) : Prop where
  valid_allocate : ∀ {heap} request, Valid heap → Valid (Destination.allocate heap request).2
  valid_write : ∀ {heap} a bytes, Valid heap → Valid (Memory.write heap a bytes)
  fits_allocate : ∀ {heap} request, Valid heap → Fits (Destination.allocate heap request).2 →
    Fits heap
  fits_write : ∀ {heap} a bytes, Fits (Memory.write heap a bytes) → Fits heap
  fits_completeLoaded : ∀ {heap : μ} e, Fits (Destination.completeLoaded heap e) → Fits heap
  sums : ∀ {heap} request, Valid heap → Fits (Destination.allocate heap request).2 →
    ∀ n ∈ HeapSums.allocation heap request, space.Has n
  stop : ∀ {heap request a}, Valid heap → Fits (Destination.allocate heap request).2 →
    (Destination.allocate heap request).1 = .ok a → space.Has (a + request.size)

/-- Without a limit on addresses, every heap will do. -/
theorem sumsFit_unbounded (μ : Type) [Destination μ] [HeapSums μ] :
    SumsFit .unbounded (fun _ : μ => True) fun _ => True where
  valid_allocate _ _ := trivial
  valid_write _ _ _ := trivial
  fits_allocate _ _ _ := trivial
  fits_write _ _ _ := trivial
  fits_completeLoaded _ _ := trivial
  sums _ _ _ _ _ := trivial
  stop _ _ _ := trivial

/-! ## States -/

/-- A block starts at a heap word of its region. -/
structure Block.InRegion (b : Block) (p : CopyPlan) : Prop where
  bottom_le : p.bottom b.region ≤ b.streamOffset
  dvd_offset : wordSize ∣ b.streamOffset - p.bottom b.region
  dest_le : b.dest.bottom ≤ b.dest.top

/-- An object found in a region of an image of `n` bytes. -/
structure ObjectSpan.InRegion (o : ObjectSpan) (p : CopyPlan) (region : Region) (n : Nat) :
    Prop where
  bottom_le : p.bottom region ≤ o.offset
  dvd_offset : wordSize ∣ o.offset - p.bottom region
  headerSize_le : headerSize ≤ o.size
  stop_le : o.offset + o.size ≤ n

/-- What holds at every time of a copy of an image of `n` bytes. The ends of the blocks are
addresses if the heap fits. -/
structure CopyState.Framed {μ : Type} (s : CopyState μ) (space : AddressSpace)
    (Valid Fits : μ → Prop) (p : CopyPlan) (n : Nat) : Prop where
  image : s.image.size = n
  starts : s.starts.size = n / wordSize
  blocks : ∀ b ∈ s.blocks.toList, b.InRegion p
  valid : Valid s.heap
  tops : Fits s.heap → ∀ b ∈ s.blocks.toList, space.Has b.dest.top

/-- Something has been written to the heap, and counted. -/
structure CopyState.Writes {μ : Type} (s t : CopyState μ) (Valid Fits : μ → Prop) : Prop where
  image : t.image = s.image
  starts : t.starts = s.starts
  blocks : t.blocks = s.blocks
  valid : Valid s.heap → Valid t.heap
  fits : Fits t.heap → Fits s.heap

section

variable {μ : Type} {space : AddressSpace} {Valid Fits : μ → Prop} {p : CopyPlan} {n : Nat}
variable {s t u : CopyState μ}

/-- No write at all. -/
theorem CopyState.Writes.refl (s : CopyState μ) : s.Writes s Valid Fits :=
  ⟨rfl, rfl, rfl, id, id⟩

/-- Writes one after the other. -/
theorem CopyState.Writes.trans (h : s.Writes t Valid Fits) (h' : t.Writes u Valid Fits) :
    s.Writes u Valid Fits where
  image := h'.image.trans h.image
  starts := h'.starts.trans h.starts
  blocks := h'.blocks.trans h.blocks
  valid hs := h'.valid (h.valid hs)
  fits hu := h.fits (h'.fits hu)

/-- Writing keeps a frame. -/
theorem CopyState.Framed.writes (h : s.Framed space Valid Fits p n) (hw : s.Writes t Valid Fits) :
    t.Framed space Valid Fits p n where
  image := hw.image ▸ h.image
  starts := hw.starts ▸ h.starts
  blocks := hw.blocks ▸ h.blocks
  valid := hw.valid h.valid
  tops hfits := hw.blocks ▸ h.tops (hw.fits hfits)

/-- A block that is there after one more object was there before, or it ends with the object. -/
theorem of_mem_extendBlocks {blocks : Array Block} {region : Region} {o : ObjectSpan} {dest : Nat}
    {b : Block} (h : b ∈ (CopyStep.extendBlocks blocks region o dest).toList) :
    b ∈ blocks.toList ∨ b = ⟨⟨dest, dest + o.size⟩, region, o.offset⟩ ∨
      ∃ last ∈ blocks.toList, last.dest.top = dest ∧
        b = { last with dest := ⟨last.dest.bottom, dest + o.size⟩ } := by
  rcases CopyStep.extendBlocks_cases blocks region o dest with
    ⟨front, last, hlast, ⟨-, htop, -⟩, hextended⟩ | ⟨-, hpushed⟩
  · rw [hextended, List.mem_append, List.mem_singleton] at h
    rw [hlast]
    rcases h with hb | hb
    · exact .inl (List.mem_append_left _ hb)
    · exact .inr (.inr ⟨last, List.mem_append_right _ (List.mem_singleton.mpr rfl), htop, hb⟩)
  · rw [hpushed, List.mem_append, List.mem_singleton] at h
    exact h.imp id .inl

/-- The blocks with one more object start at heap words of their regions. -/
theorem inRegion_extendBlocks {blocks : Array Block} {region : Region} {o : ObjectSpan}
    (h : ∀ b ∈ blocks.toList, b.InRegion p) (ho : o.InRegion p region n) (dest : Nat) :
    ∀ b ∈ (CopyStep.extendBlocks blocks region o dest).toList, b.InRegion p := by
  intro b hb
  rcases of_mem_extendBlocks hb with hb | rfl | ⟨last, hlast, rfl, rfl⟩
  · exact h b hb
  · exact ⟨ho.bottom_le, ho.dvd_offset, Nat.le_add_right ..⟩
  · have hlast := h last hlast
    exact ⟨hlast.bottom_le, hlast.dvd_offset, Nat.le_trans hlast.dest_le (Nat.le_add_right ..)⟩

/-- The state behind one more object. -/
theorem CopyState.Framed.push (h : s.Framed space Valid Fits p n) {region : Region} {o : ObjectSpan}
    {dest : Nat} (ho : o.InRegion p region n) (hstop : Fits s.heap → space.Has (dest + o.size))
    (hblocks : t.blocks = CopyStep.extendBlocks s.blocks region o dest)
    (hstarts : t.starts.size = s.starts.size) (himage : t.image.size = s.image.size)
    (hheap : t.heap = s.heap) : t.Framed space Valid Fits p n where
  image := himage.trans h.image
  starts := hstarts.trans h.starts
  blocks := hblocks ▸ inRegion_extendBlocks h.blocks ho dest
  valid := hheap ▸ h.valid
  tops hfits b hb := by
    rw [hheap] at hfits
    rw [hblocks] at hb
    rcases of_mem_extendBlocks hb with hb | rfl | ⟨last, -, -, rfl⟩
    · exact h.tops hfits b hb
    · exact hstop hfits
    · exact hstop hfits

end

/-! ## Plans -/

/-- The regions of a plan lie in an image of `n` bytes, whose slots are as large as those of the
heap. -/
structure CopyPlan.Inside (p : CopyPlan) (n : Nat) : Prop where
  slotSize_eq : p.header.encoding.slotSize = p.slotSize
  bounds : ∀ region, (p.header.range region).bottom ≤ (p.header.range region).top ∧
    (p.header.range region).top ≤ n

/-- What a walk through a region finds is in the region. -/
theorem CopyPlan.Inside.inRegion {p : CopyPlan} {n : Nat} (h : p.Inside n) (b : ByteArray)
    (region : Region) : ∀ o ∈ (ObjectSpan.scan b p.types p.slotSize (p.header.range region).bottom
      (p.header.range region).top).1, o.InRegion p region n := by
  obtain ⟨hle, htop⟩ := h.bounds region
  intro o ho
  obtain ⟨middle, -, htiles, hfound⟩ :=
    @ObjectSpan.exists_tiles_scan b p.types p.slotSize _ _ hle
  have hsize := fun x hx => (hfound x hx).size ▸ TypeKind.wordSize_dvd_objectSize ..
  exact {
    bottom_le := (htiles.bounds o ho).1
    dvd_offset := (htiles.dvd_sub hsize).1 o ho
    headerSize_le := (hfound o ho).headerSize_le
    stop_le := Nat.le_trans (hfound o ho).stop_le htop }

/-- The words that the bits of an object stand for lie in it. -/
theorem ObjectSpan.word_le_of_mem_ones {o : ObjectSpan} {m : BitMap} {first bit : Nat}
    (h : bit ∈ m.ones first (first + o.size / wordSize)) :
    first ≤ bit ∧ (bit - first) * wordSize + wordSize ≤ o.size := by
  obtain ⟨hlow, hhigh, -⟩ := BitMap.mem_ones.mp h
  -- The bits of an object are as many as it has whole words, so the last one ends in the object.
  have hle : (bit - first + 1) * wordSize ≤ o.size :=
    Nat.le_trans (Nat.mul_le_mul_right _ (by omega)) (Nat.div_mul_le_self o.size wordSize)
  rw [Nat.succ_mul] at hle
  exact ⟨hlow, hle⟩

/-- The slots that the bits of a block stand for lie in it. -/
theorem Block.InRegion.slot_le_of_mem_ones {b : Block} {p : CopyPlan} (h : b.InRegion p)
    {m : BitMap}
    {bit : Nat} (hbit : bit ∈ m.ones ((b.streamOffset - p.bottom b.region) / p.slotSize)
      ((b.streamTop - p.bottom b.region) / p.slotSize)) :
    b.streamOffset ≤ p.bottom b.region + bit * p.slotSize ∧
      p.bottom b.region + bit * p.slotSize + p.slotSize ≤ b.streamTop := by
  obtain ⟨hlow, hhigh, -⟩ := BitMap.mem_ones.mp hbit
  have hbottom := h.bottom_le
  -- A block starts between two slots, so no slot of its first bit starts in front of it.
  have hslot : p.slotSize ∣ b.streamOffset - p.bottom b.region :=
    Nat.dvd_trans p.runtime.isSlotSize.dvd_wordSize h.dvd_offset
  have hmul := Nat.mul_le_mul_right p.slotSize hlow
  rw [Nat.div_mul_cancel hslot] at hmul
  exact ⟨by omega, Archive.unit_le_of_lt hhigh⟩

/-- The new address of an object is read from the image. -/
theorem Checked.resolve?_eq_ok {image : ByteArray} {starts : BitMap} {offset : Nat}
    (h : starts.size = image.size / wordSize) :
    Checked.resolve? image starts offset = .ok (HeapImage.resolve? image starts offset) := by
  rw [Checked.resolve?, HeapImage.resolve?]
  by_cases hstart : offset % wordSize = 0 ∧ offset / wordSize < starts.size
  · obtain ⟨haligned, hlt⟩ := hstart
    have hword : offset + wordSize ≤ image.size := by
      have hword : 0 + offset / wordSize * wordSize + wordSize ≤ image.size :=
        Archive.unit_le_of_lt (by rw [Nat.sub_zero, ← h]; exact hlt)
      have hdiv := Nat.div_add_mod offset wordSize
      rw [haligned, Nat.mul_comm] at hdiv
      omega
    rw [if_pos ⟨haligned, hlt⟩, contains_eq_ok hlt, ok_bind]
    cases starts.contains (offset / wordSize) with
    | false =>
      rw [if_neg Bool.false_ne_true, if_neg fun hmember => Bool.false_ne_true hmember.2]
      rfl
    | true =>
      rw [if_pos rfl, if_pos ⟨haligned, rfl⟩, valueAt_eq_ok hword]
      rfl
  · -- An offset that is not in the map is not a member of it either.
    have hnone : ¬ (offset % wordSize = 0 ∧ starts.contains (offset / wordSize) = true) :=
      fun hmember => hstart ⟨hmember.1, BitMap.lt_size_of_contains hmember.2⟩
    rw [if_neg hstart, if_neg hnone]
    rfl

/-- The number in some bytes is below the limit that goes with how many they are. -/
theorem Memory.lt_of_readValue? {μ : Type} [Memory μ] {heap : μ} {a len value : Nat}
    (h : Memory.readValue? heap a len = some value) : value < 256 ^ len := by
  obtain ⟨b, -, rfl⟩ := Option.map_eq_some_iff.mp h
  exact Bytes.valueAt_lt ..

/-! ## Steps of a copy -/

namespace CopyStep

variable {μ : Type} [Destination μ] [HeapSums μ] {space : AddressSpace} {Valid Fits : μ → Prop}
variable {s : CopyState μ}

omit [HeapSums μ] in
/-- What asking the heap for memory comes to. -/
theorem run_allocate (request : AllocationRequest) : (allocate request).run s =
    match Destination.allocate s.heap request with
    | (.ok a, heap) => (.ok a, { s with heap := heap })
    | (.error e, heap) => (.error (.ofAllocation e), { s with heap := heap }) := by
  rw [allocate, run_modifyGet_bind]
  rcases Destination.allocate s.heap request with ⟨e | a, heap⟩ <;> rfl

section

variable {α β : Type} {f : CopyStep μ α}

omit [Destination μ] [HeapSums μ]

/-- A step only writes to the heap and counts. -/
def OnlyWrites (f : CopyStep μ α) (Valid Fits : μ → Prop) : Prop :=
  ∀ s : CopyState μ, s.Writes (after f s) Valid Fits

/-- Two steps that only write only write together. -/
theorem onlyWrites_bind {g : α → CopyStep μ β} (hf : OnlyWrites f Valid Fits)
    (hg : ∀ x, OnlyWrites (g x) Valid Fits) : OnlyWrites (f >>= g) Valid Fits := by
  intro s
  have hs := hf s
  rw [after] at hs
  rw [after_bind]
  rcases hrun : f.run s with ⟨e | x, t⟩ <;> rw [hrun] at hs
  · exact hs
  · exact hs.trans (hg x t)

/-- Reading the state writes nothing. -/
theorem onlyWrites_get : OnlyWrites (get : CopyStep μ (CopyState μ)) Valid Fits := .refl

/-- An error writes nothing. -/
theorem onlyWrites_throw (e : ArchiveError) :
    OnlyWrites (throw e : CopyStep μ α) Valid Fits := .refl

/-- A result from elsewhere writes nothing. -/
theorem onlyWrites_ofExcept (r : Except ArchiveError α) :
    OnlyWrites (MonadExcept.ofExcept r : CopyStep μ α) Valid Fits := by
  cases r <;> exact .refl

/-- Counting writes nothing to memory. -/
theorem onlyWrites_counts (count : LoadCounts → LoadCounts) :
    OnlyWrites (modify fun s => { s with counts := count s.counts } : CopyStep μ PUnit)
      Valid Fits :=
  fun _ => ⟨rfl, rfl, rfl, id, id⟩

end

omit [HeapSums μ] in
/-- The state after a write, whether it succeeds or fails. -/
theorem after_write (a : Nat) (bytes : ByteArray) : after (write a bytes) s =
    { s with heap := (Memory.tryWrite s.heap a bytes).2 } := rfl

/-- A write only writes. -/
theorem onlyWrites_write (hsums : SumsFit space Valid Fits) (a : Nat) (bytes : ByteArray) :
    OnlyWrites (write a bytes : CopyStep μ Bool) Valid Fits := by
  intro s
  rw [after_write, Memory.tryWrite]
  split
  · exact ⟨rfl, rfl, rfl, hsums.valid_write a bytes, hsums.fits_write a bytes⟩
  · exact ⟨rfl, rfl, rfl, id, id⟩

/-- A write that is counted if the heap takes it. -/
theorem onlyWrites_write_bind (hsums : SumsFit space Valid Fits) (a : Nat) (bytes : ByteArray)
    (count : LoadCounts → LoadCounts) (e : ArchiveError) :
    OnlyWrites (write a bytes >>= fun done =>
      if done = true then modify fun s => { s with counts := count s.counts } else throw e :
        CopyStep μ PUnit) Valid Fits := by
  refine onlyWrites_bind (onlyWrites_write hsums a bytes) fun done => ?_
  cases done with
  | true => exact onlyWrites_counts count
  | false => exact onlyWrites_throw e

/-- Moving a native pointer only writes. -/
theorem onlyWrites_rebaseNative (hsums : SumsFit space Valid Fits) (delta : UInt64) (a : Nat) :
    OnlyWrites (rebaseNative delta a : CopyStep μ Unit) Valid Fits := by
  rw [rebaseNative]
  refine onlyWrites_bind onlyWrites_get fun s => ?_
  cases Memory.readWord? s.heap a with
  | none => exact onlyWrites_throw _
  | some value =>
    exact onlyWrites_write_bind hsums a _ (fun c => { c with natives := c.natives + 1 }) _

end CopyStep

end HeapImage
