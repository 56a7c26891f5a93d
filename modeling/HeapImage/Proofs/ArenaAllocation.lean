import HeapImage.Proofs.AddressRanges
import HeapImage.Proofs.ArenaMemory

/-! # Allocation in an arena

An arena gives memory from the top of its last chunk, or from a new chunk above all others. So
allocated memory has never been allocated before, and its bytes are as they were.

* `Arena.AllocationEnds`, `Arena.ends_of_allocate`: how an allocation ends.
* `Arena.frontier`, `Arena.frontier_of_allocate`: all later memory lies behind the frontier.
* `Arena.Allocates`, `Arena.of_allocate`: what allocating does.
* `Arena.Reachable`: the arenas there can be.
* `Arena.Reachable.wellFormed`: all of them are well-formed. -/

namespace HeapImage

namespace Arena

variable {h h' : Arena} {a : Nat}

/-- A page is made of heap words. -/
theorem wordSize_dvd_pageSize : wordSize ∣ pageSize := ⟨512, rfl⟩

/-! ## Ways to end -/

/-- Changing the last element. -/
theorem modify_length {α : Type} (f : α → α) (xs : List α) (x : α) :
    (xs ++ [x]).modify xs.length f = xs ++ [f x] := by
  induction xs with
  | nil => rfl
  | cons y xs ih =>
    rw [List.cons_append, List.length_cons, List.modify_succ_cons, ih]
    rfl

/-- If there is room, there is a last chunk, and it is the one with the room. -/
theorem exists_concat_of_hasRoom {size : Nat} (hroom : h.hasRoom size = true) :
    ∃ front c, h.chunks.toList = front ++ [c] ∧ c.top + size ≤ c.size := by
  rw [hasRoom] at hroom
  cases hback : h.chunks.back? with
  | none =>
    rw [hback] at hroom
    cases hroom
  | some c =>
    rw [hback] at hroom
    rw [← Array.getLast?_toList] at hback
    obtain ⟨front, hfront⟩ := List.getLast?_eq_some_iff.mp hback
    exact ⟨front, c, hfront, of_decide_eq_true hroom⟩

/-- Taking memory only moves the top of the last chunk. -/
theorem bump_eq {front : List Chunk} {c : Chunk} (hchunks : h.chunks.toList = front ++ [c])
    (size : Nat) : h.bump size = (some (c.base + c.top),
      { h with
        chunks := (front ++ [{ c with top := c.top + size }]).toArray
        allocations := h.allocations + 1
        allocatedBytes := h.allocatedBytes + size }) := by
  have hback : h.chunks.back? = some c := by
    rw [← Array.getLast?_toList, hchunks, List.getLast?_concat]
  have hsize : h.chunks.size = front.length + 1 := by
    rw [← Array.length_toList, hchunks, List.length_append, List.length_singleton]
  have hmodify : h.chunks.modify (h.chunks.size - 1) (fun c => { c with top := c.top + size }) =
      (front ++ [{ c with top := c.top + size }]).toArray := by
    apply Array.toList_inj.mp
    rw [Array.toList_modify, hchunks, hsize, Nat.add_sub_cancel, modify_length]
  rw [bump, hback, hmodify]

/-- The ways in which an allocation of `size` bytes can end: its result, and the arena
afterwards. -/
inductive AllocationEnds (h : Arena) (size : Nat) : Except AllocationError Nat → Arena → Prop
  /-- The limit refuses it. -/
  | exhausted : h.maxBytes ≠ 0 ∧ h.maxBytes < h.allocatedBytes + size →
    h.AllocationEnds size (.error (.heapExhausted size h.maxBytes)) h
  /-- No chunk can be as large as it takes. Its addresses are used up. -/
  | tooLarge (capacity : Nat) : capacity = alignUp (max size h.chunkSize) pageSize →
    maxBuffer < capacity → h.AllocationEnds size (.error .tooLarge)
      { h with nextBase := h.nextBase + (capacity + pageSize) }
  /-- The last chunk has room and gives the memory. -/
  | last {front : List Chunk} {c : Chunk} :
    ¬ (h.maxBytes ≠ 0 ∧ h.maxBytes < h.allocatedBytes + size) → h.splitDue = false →
    h.chunks.toList = front ++ [c] → c.top + size ≤ c.size →
    h.AllocationEnds size (.ok (c.base + c.top))
      { h with
        chunks := (front ++ [{ c with top := c.top + size }]).toArray
        allocations := h.allocations + 1
        allocatedBytes := h.allocatedBytes + size }
  /-- A new chunk gives the memory, which the last one has no room for or must not give. -/
  | next (capacity : Nat) : ¬ (h.maxBytes ≠ 0 ∧ h.maxBytes < h.allocatedBytes + size) →
    h.splitDue = true ∨ h.hasRoom size = false →
    capacity = alignUp (max size h.chunkSize) pageSize → capacity ≤ maxBuffer →
    h.AllocationEnds size (.ok h.nextBase)
      { h with
        chunks := (h.chunks.toList ++ [Chunk.mk h.nextBase capacity ByteArray.empty size]).toArray
        nextBase := h.nextBase + (capacity + pageSize)
        allocations := h.allocations + 1
        allocatedBytes := h.allocatedBytes + size }

/-- **Every allocation** ends in one of these ways. -/
theorem ends_of_allocate {request : AllocationRequest} {result : Except AllocationError Nat}
    (hrun : h.allocate request = (result, h')) : h.AllocationEnds request.size result h' := by
  rw [allocate] at hrun
  by_cases hlimit : h.maxBytes ≠ 0 ∧ h.maxBytes < h.allocatedBytes + request.size
  · rw [if_pos hlimit] at hrun
    cases hrun
    exact .exhausted hlimit
  rw [if_neg hlimit] at hrun
  cases hdue : h.splitDue || !h.hasRoom request.size with
  | false =>
    obtain ⟨hsplit, hroom⟩ := Bool.or_eq_false_iff.mp hdue
    obtain ⟨front, c, hchunks, hfits⟩ := exists_concat_of_hasRoom (by simpa using hroom)
    rw [hdue, if_neg Bool.false_ne_true] at hrun
    dsimp only at hrun
    rw [bump_eq hchunks] at hrun
    cases hrun
    exact .last hlimit hsplit hchunks hfits
  | true =>
    rw [hdue, if_pos rfl, addChunk] at hrun
    by_cases hlarge : maxBuffer < alignUp (max request.size h.chunkSize) pageSize
    · rw [if_pos hlarge] at hrun
      cases hrun
      exact .tooLarge _ rfl hlarge
    · rw [if_neg hlarge] at hrun
      dsimp only at hrun
      -- The chunk that has just been added is the last one, and nothing of it has been given yet.
      rw [bump_eq (Array.toList_push ..)] at hrun
      dsimp only at hrun
      rw [Nat.zero_add, Nat.add_zero] at hrun
      cases hrun
      exact .next _ hlimit (by simpa using hdue) rfl (Nat.le_of_not_lt hlarge)

/-! ## Well-formed arenas -/

/-- An arena is well-formed if its last chunk lies behind well-formed ones. -/
theorem wellFormed_of_concat {front : List Chunk} {d : Chunk}
    (hchunks : h.chunks.toList = front ++ [d])
    (hordered : front.Pairwise fun c d => c.stop ≤ d.base)
    (hfront : ∀ c ∈ front, c.stop ≤ d.base ∧ c.top ≤ c.size) (htop : d.top ≤ d.size)
    (hnext : d.stop ≤ h.nextBase) : h.WellFormed where
  ordered := by
    rw [hchunks]
    refine List.pairwise_append.mpr ⟨hordered, List.pairwise_singleton .., fun c hc e he => ?_⟩
    rw [List.mem_singleton.mp he]
    exact (hfront c hc).1
  below := by
    rw [hchunks]
    refine List.forall_mem_append.mpr ⟨fun c hc => ?_, List.forall_mem_singleton.mpr hnext⟩
    have hstop : d.stop = d.base + d.size := rfl
    have hbefore := (hfront c hc).1
    omega
  top_le := by
    rw [hchunks]
    exact List.forall_mem_append.mpr
      ⟨fun c hc => (hfront c hc).2, List.forall_mem_singleton.mpr htop⟩

/-- What lies before the last chunk of a well-formed arena. -/
theorem WellFormed.of_concat (hw : h.WellFormed) {front : List Chunk} {d : Chunk}
    (hchunks : h.chunks.toList = front ++ [d]) :
    (front.Pairwise fun c d => c.stop ≤ d.base) ∧ (∀ c ∈ front, c.stop ≤ d.base ∧ c.top ≤ c.size) ∧
      d.stop ≤ h.nextBase := by
  obtain ⟨hordered, hbelow, htop⟩ := hw
  rw [hchunks] at hordered hbelow htop
  obtain ⟨hfront, -, hbefore⟩ := List.pairwise_append.mp hordered
  have hself : d ∈ [d] := List.mem_singleton_self d
  exact ⟨hfront, fun c hc => ⟨hbefore c hc d hself, htop c (List.mem_append_left _ hc)⟩,
    hbelow d (List.mem_append_right _ hself)⟩

/-- An allocation keeps an arena well-formed, whether it succeeds or not. -/
theorem WellFormed.allocate (hw : h.WellFormed) (request : AllocationRequest) :
    (h.allocate request).2.WellFormed := by
  rcases hrun : h.allocate request with ⟨result, h'⟩
  cases ends_of_allocate hrun with
  | exhausted => exact hw
  | tooLarge =>
    exact ⟨hw.ordered, fun c hc => Nat.le_trans (hw.below c hc) (Nat.le_add_right ..), hw.top_le⟩
  | last _ _ hchunks hfits =>
    obtain ⟨hordered, hfront, hnext⟩ := hw.of_concat hchunks
    exact wellFormed_of_concat rfl hordered hfront hfits hnext
  | next capacity _ _ hcapacity =>
    have hle := le_alignUp (max request.size h.chunkSize) pageSize
    refine wellFormed_of_concat rfl hw.ordered (fun c hc => ⟨hw.below c hc, hw.top_le c hc⟩) ?_ ?_
    · change request.size ≤ capacity
      omega
    · change h.nextBase + capacity ≤ h.nextBase + (capacity + pageSize)
      omega

/-! ## The frontier -/

/-- The end of the memory that was allocated last. -/
def frontier (h : Arena) : Nat :=
  match h.chunks.toList.getLast? with
  | some c => c.base + c.top
  | none => 0

/-- The frontier is the top of the last chunk. -/
theorem frontier_concat {front : List Chunk} {c : Chunk}
    (hchunks : h.chunks.toList = front ++ [c]) : h.frontier = c.base + c.top := by
  rw [frontier, hchunks, List.getLast?_concat]

/-- A new chunk lies behind all memory that has been allocated. -/
theorem WellFormed.frontier_le_nextBase (hw : h.WellFormed) : h.frontier ≤ h.nextBase := by
  rw [frontier]
  split
  · rename_i c hlast
    have hmem := List.mem_of_getLast? hlast
    have htop := hw.top_le c hmem
    have hbelow := hw.below c hmem
    rw [Chunk.stop] at hbelow
    omega
  · exact Nat.zero_le _

/-- All memory that has been allocated lies below the frontier. -/
theorem Holds.le_frontier (hw : h.WellFormed) {n : Nat} (hh : h.Holds a n) :
    a + n ≤ h.frontier := by
  obtain ⟨c, hc, -, htop⟩ := hh
  obtain ⟨front, last, hchunks⟩ : ∃ front last, h.chunks.toList = front ++ [last] :=
    ⟨_, _, (List.dropLast_concat_getLast (List.ne_nil_of_mem hc)).symm⟩
  rw [frontier_concat hchunks]
  rw [hchunks, List.mem_append, List.mem_singleton] at hc
  rcases hc with hc | rfl
  · obtain ⟨hstop, hsize⟩ := (hw.of_concat hchunks).2.1 c hc
    rw [Chunk.stop] at hstop
    omega
  · exact htop

/-- Writing does not move the frontier. -/
theorem frontier_write (hw : h.WellFormed) (a : Nat) (bytes : ByteArray) :
    (h.write a bytes).frontier = h.frontier := by
  unfold frontier
  rw [toList_write hw, List.getLast?_map]
  cases h.chunks.toList.getLast? with
  | none => rfl
  | some c =>
    dsimp only [Option.map_some]
    split
    · rw [Chunk.write_base, Chunk.write_top]
    · rfl

/-- **Allocating** gives memory behind the frontier and moves the frontier to the end of it. -/
theorem frontier_of_allocate {request : AllocationRequest} (hw : h.WellFormed)
    (hok : h.allocate request = (.ok a, h')) :
    h.frontier ≤ a ∧ h'.frontier = a + request.size ∧
      h'.allocatedBytes = h.allocatedBytes + request.size := by
  cases ends_of_allocate hok with
  | last _ _ hchunks _ =>
    exact ⟨Nat.le_of_eq (frontier_concat hchunks),
      (frontier_concat rfl).trans (Nat.add_assoc ..).symm, rfl⟩
  | next capacity =>
    refine ⟨hw.frontier_le_nextBase, ?_, rfl⟩
    exact frontier_concat (c := ⟨h.nextBase, capacity, ByteArray.empty, request.size⟩) rfl

/-! ## Allocating -/

/-- Arenas whose chunks have the same bytes, but for new chunks, have the same bytes. -/
theorem byte_congr (hw : h.WellFormed) (hw' : h'.WellFormed)
    (hforth : ∀ c ∈ h.chunks.toList, ∃ d ∈ h'.chunks.toList,
      d.base = c.base ∧ d.size = c.size ∧ d.bytes = c.bytes)
    (hback : ∀ d ∈ h'.chunks.toList, d.bytes.size = 0 ∨ ∃ c ∈ h.chunks.toList,
      d.base = c.base ∧ d.size = c.size ∧ d.bytes = c.bytes) (x : Nat) : h'.byte x = h.byte x := by
  -- A place outside all chunks may come to lie in a new one, but that one has no bytes yet.
  cases hx : h.chunkAt? x with
  | some c =>
    obtain ⟨hc, hcx⟩ := (chunkAt?_eq_some hw).mp hx
    obtain ⟨d, hd, hbase, hsize, hbytes⟩ := hforth c hc
    have hdx : d.contains x = true := by
      rw [Chunk.contains_iff, hbase, hsize]
      exact Chunk.contains_iff.mp hcx
    rw [byte_eq hw hc hcx, byte_eq hw' hd hdx, Chunk.byte, Chunk.byte, hbase, hbytes]
  | none =>
    have hzero : h.byte x = 0 := by
      rw [byte, hx]
    rw [hzero]
    cases hx' : h'.chunkAt? x with
    | none => rw [byte, hx']
    | some d =>
      obtain ⟨hd, hdx⟩ := (chunkAt?_eq_some hw').mp hx'
      rcases hback d hd with hempty | ⟨c, hc, hbase, hsize, -⟩
      · rw [byte_eq hw' hd hdx, Chunk.byte]
        exact Bytes.get_of_size_le (hempty ▸ Nat.zero_le _)
      · have hcx : c.contains x = true := by
          rw [Chunk.contains_iff, ← hbase, ← hsize]
          exact Chunk.contains_iff.mp hdx
        rw [(chunkAt?_eq_some hw).mpr ⟨hc, hcx⟩] at hx
        cases hx

/-- Memory has been allocated that had not been allocated before, and all bytes are as they were. -/
structure Allocates (h : Arena) (a n : Nat) (h' : Arena) : Prop where
  wellFormed : h'.WellFormed
  byte : ∀ x, h'.byte x = h.byte x
  holds : h'.Holds a n
  keeps : ∀ b m, h.Holds b m → h'.Holds b m
  fresh : ∀ b m, h.Holds b m → b + m ≤ a ∨ a + n ≤ b

/-- **Allocating** gives memory that nobody has got before. -/
theorem of_allocate {request : AllocationRequest} (hw : h.WellFormed)
    (hok : h.allocate request = (.ok a, h')) : h.Allocates a request.size h' := by
  have hw' : h'.WellFormed := by
    have := hw.allocate request
    rwa [hok] at this
  obtain ⟨hbehind, -, -⟩ := frontier_of_allocate hw hok
  have hfresh : ∀ b m, h.Holds b m → b + m ≤ a ∨ a + request.size ≤ b :=
    fun b m hh => .inl (Nat.le_trans (hh.le_frontier hw) hbehind)
  cases ends_of_allocate hok with
  -- The last chunk is in use a bit further; all others are the same.
  | @last front c _ _ hchunks =>
    have hc : c ∈ h.chunks.toList := hchunks ▸ List.mem_append_right _ (List.mem_singleton_self c)
    have hlast : { c with top := c.top + request.size } ∈
        front ++ [{ c with top := c.top + request.size }] :=
      List.mem_append_right _ (List.mem_singleton_self _)
    have hforth : ∀ d ∈ h.chunks.toList, d ∈ front ∨ d = c := by
      intro d hd
      rwa [hchunks, List.mem_append, List.mem_singleton] at hd
    refine ⟨hw', byte_congr hw hw' ?_ ?_, ?_, ?_, hfresh⟩
    · intro d hd
      rcases hforth d hd with hd | rfl
      · exact ⟨d, List.mem_append_left _ hd, rfl, rfl, rfl⟩
      · exact ⟨_, hlast, rfl, rfl, rfl⟩
    · intro d hd
      rcases List.mem_append.mp hd with hd | hd
      · exact .inr ⟨d, hchunks ▸ List.mem_append_left _ hd, rfl, rfl, rfl⟩
      · rw [List.mem_singleton.mp hd]
        exact .inr ⟨c, hc, rfl, rfl, rfl⟩
    · exact ⟨_, hlast, Nat.le_add_right .., Nat.le_of_eq (Nat.add_assoc ..)⟩
    · rintro b m ⟨d, hd, hbase, htop⟩
      rcases hforth d hd with hd | rfl
      · exact ⟨d, List.mem_append_left _ hd, hbase, htop⟩
      · refine ⟨_, hlast, hbase, ?_⟩
        change b + m ≤ d.base + (d.top + request.size)
        omega
  -- There is one more chunk, of which no byte is written yet.
  | next capacity =>
    have hmem : ∀ d ∈ h.chunks.toList,
        d ∈ h.chunks.toList ++ [⟨h.nextBase, capacity, ByteArray.empty, request.size⟩] :=
      fun d hd => List.mem_append_left _ hd
    refine ⟨hw', byte_congr hw hw' ?_ ?_, ?_, ?_, hfresh⟩
    · exact fun d hd => ⟨d, hmem d hd, rfl, rfl, rfl⟩
    · intro d hd
      rcases List.mem_append.mp hd with hd | hd
      · exact .inr ⟨d, hd, rfl, rfl, rfl⟩
      · rw [List.mem_singleton.mp hd]
        exact .inl rfl
    · exact ⟨_, List.mem_append_right _ (List.mem_singleton_self _), Nat.le_refl _, Nat.le_refl _⟩
    · exact fun b m ⟨d, hd, hin⟩ => ⟨d, hmem d hd, hin⟩

/-- An allocation that fails leaves the chunks alone. Only addresses can have been used up. -/
theorem of_allocate_error {request : AllocationRequest} {e : AllocationError}
    (herror : (h.allocate request).1 = .error e) :
    (h.allocate request).2.chunks = h.chunks ∧ h.nextBase ≤ (h.allocate request).2.nextBase := by
  rcases hrun : h.allocate request with ⟨result, k⟩
  rw [hrun] at herror
  subst herror
  cases ends_of_allocate hrun with
  | exhausted => exact ⟨rfl, Nat.le_refl _⟩
  | tooLarge => exact ⟨rfl, Nat.le_add_right ..⟩

/-! ## Reachable arenas -/

/-- The arenas that a program can come to: a fresh one, with a place for its first chunk and other
settings, after any number of operations. -/
inductive Reachable : Arena → Prop
  | standard : Reachable standard
  | withBase {h : Arena} (base : Nat) : Reachable h → h.chunks = #[] → Reachable (h.withBase base)
  | withChunkSize {h : Arena} (bytes : Nat) : Reachable h → Reachable (h.withChunkSize bytes)
  | withSplitEvery {h : Arena} (n : Nat) : Reachable h → Reachable (h.withSplitEvery n)
  | withMaxBytes {h : Arena} (bytes : Nat) : Reachable h → Reachable (h.withMaxBytes bytes)
  | withMapping {h : Arena} (policy : MappingPolicy) : Reachable h →
    Reachable (h.withMapping policy)
  | allocate {h : Arena} (request : AllocationRequest) : Reachable h →
    Reachable (h.allocate request).2
  | write {h : Arena} (a : Nat) (bytes : ByteArray) : Reachable h → Reachable (h.write a bytes)
  | reserve {h : Arena} (base len : Nat) : Reachable h → Reachable (h.reserve base len).2
  | release {h : Arena} (base len : Nat) : Reachable h → Reachable (h.release base len)
  | completeLoaded {h : Arena} (e : Extent) : Reachable h →
    Reachable (Destination.completeLoaded h e)
  | completeMapped {h : Arena} (e : Extent) : Reachable h →
    Reachable (MappingHost.completeMapped h e)

/-- Only the chunks and the place of the next one matter. -/
theorem WellFormed.congr (hw : h.WellFormed) (hchunks : h'.chunks = h.chunks)
    (hnext : h'.nextBase = h.nextBase) : h'.WellFormed where
  ordered := hchunks ▸ hw.ordered
  below := by
    rw [hchunks, hnext]
    exact hw.below
  top_le := hchunks ▸ hw.top_le

/-- An arena without chunks is well formed. -/
theorem wellFormed_of_isEmpty (hempty : h.chunks = #[]) : h.WellFormed where
  ordered := by
    rw [hempty]
    exact .nil
  below := by
    rw [hempty]
    exact fun c hc => nomatch hc
  top_le := by
    rw [hempty]
    exact fun c hc => nomatch hc

/-- **All arenas there can be** are well-formed. -/
theorem Reachable.wellFormed (hr : h.Reachable) : h.WellFormed := by
  induction hr with
  | standard => exact wellFormed_of_isEmpty rfl
  | withBase base _ hempty _ => exact wellFormed_of_isEmpty hempty
  | withChunkSize bytes _ ih => exact ih.congr rfl rfl
  | withSplitEvery n _ ih => exact ih.congr rfl rfl
  | withMaxBytes bytes _ ih => exact ih.congr rfl rfl
  | withMapping policy _ ih => exact ih.congr rfl rfl
  | allocate request _ ih => exact ih.allocate request
  | write a bytes _ ih => exact ih.write a bytes
  | @reserve h base len _ ih =>
    obtain ⟨rs, hrs⟩ := h.reserve_eq base len
    rw [hrs]
    exact ih.congr rfl rfl
  | @release h base len _ ih =>
    obtain ⟨rs, hrs⟩ := h.release_eq base len
    rw [hrs]
    exact ih.congr rfl rfl
  | completeLoaded e _ ih => exact ih.congr rfl rfl
  | completeMapped e _ ih => exact ih.congr rfl rfl

end Arena

end HeapImage
