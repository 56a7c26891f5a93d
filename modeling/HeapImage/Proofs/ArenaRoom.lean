import HeapImage.Proofs.ArenaSums

/-! # Room in an arena

An arena leaves the rest of a chunk unused when an object does not fit there. But then the chunk is
filled up to less than the size of the object, so the objects pay for what is left unused: the place
of the next chunk is at most four bytes farther for every byte allocated, beyond the room of two
chunks. So an arena without limits gives memory within an address range that is known beforehand,
whatever the sizes of the objects are.

* `Arena.used`, `Arena.Paced`: the last chunk, and arenas that keep pace with their objects.
* `Arena.Paced.allocate`: an object gets memory, and the arena keeps pace.
* `Arena.Paced.bounds`: where allocated memory is. -/

namespace HeapImage.Arena

variable {h h' : Arena} {base debt n : Nat}

/-- How far the last chunk is filled. Where there is none, nothing is left of it. -/
def used (h : Arena) : Nat :=
  match h.chunks.back? with
  | some c => c.top
  | none => h.chunkSize

/-- An arena without limits, with chunks from `base` on. For each byte that has been allocated, the
place of the next chunk and twice the bytes of the last one take up at most four, beyond two chunks
and a debt. -/
structure Paced (h : Arena) (base debt : Nat) : Prop where
  wellFormed : h.WellFormed
  maxBytes : h.maxBytes = 0
  splitEvery : h.splitEvery = 0
  chunkSize : 2 * pageSize ≤ h.chunkSize
  next : base ≤ h.nextBase ∧ wordSize ∣ h.nextBase
  chunks : ∀ c ∈ h.chunks.toList,
    base ≤ c.base ∧ h.chunkSize ≤ c.size ∧ wordSize ∣ c.base ∧ wordSize ∣ c.top
  pace : h.nextBase + 2 * h.used ≤ base + 2 * h.chunkSize + 4 * h.allocatedBytes + debt

/-- The used part of the last chunk ends at its top. -/
theorem used_of_back {c : Chunk} (hback : h.chunks.back? = some c) : h.used = c.top := by
  rw [used, hback]

/-- An arena without chunks has nothing to pay for. -/
theorem paced_of_isEmpty (hempty : h.chunks = #[]) (hmax : h.maxBytes = 0)
    (hsplit : h.splitEvery = 0) (hsize : 2 * pageSize ≤ h.chunkSize)
    (hnext : wordSize ∣ h.nextBase) : h.Paced h.nextBase 0 where
  wellFormed := wellFormed_of_isEmpty hempty
  maxBytes := hmax
  splitEvery := hsplit
  chunkSize := hsize
  next := ⟨Nat.le_refl _, hnext⟩
  chunks := by
    rw [hempty]
    exact fun c hc => nomatch hc
  pace := by
    have hused : h.used = h.chunkSize := by
      rw [used, hempty]
      rfl
    omega

namespace Paced

/-! ## Allocating -/

/-- If an object does not fit the last chunk, then that chunk and the object take up a whole one. -/
theorem chunkSize_le (hp : h.Paced base debt) (hroom : h.hasRoom n = false) :
    h.chunkSize ≤ h.used + n := by
  cases hback : h.chunks.back? with
  | none =>
    rw [used, hback]
    exact Nat.le_add_right ..
  | some c =>
    have hmem : c ∈ h.chunks.toList := by
      rw [← Array.getLast?_toList] at hback
      exact List.mem_of_getLast? hback
    have hsize := (hp.chunks c hmem).2.1
    rw [hasRoom, hback] at hroom
    have hfull : ¬ c.top + n ≤ c.size := of_decide_eq_false hroom
    rw [used_of_back hback]
    omega

/-- The addresses of a new chunk are paid for by the last chunk and the object. -/
theorem chunkExtent_le (hp : h.Paced base debt) (hroom : h.hasRoom n = false) :
    h.chunkExtent n ≤ 2 * (h.used + n) := by
  have hfull := hp.chunkSize_le hroom
  have hchunk := hp.chunkSize
  have hup : alignUp (max n h.chunkSize) pageSize < max n h.chunkSize + pageSize :=
    alignUp_lt ⟨12, rfl⟩ _
  rw [chunkExtent]
  omega

/-- **An object gets memory** at a heap word, and the arena keeps pace. -/
theorem allocate (hp : h.Paced base 0) (request : AllocationRequest)
    (hdvd : wordSize ∣ request.size)
    (hfits : request.size + h.chunkSize + pageSize ≤ maxBuffer) :
    ∃ a h', h.allocate request = (.ok a, h') ∧ h'.Paced base 0 ∧
      h'.allocatedBytes = h.allocatedBytes + request.size ∧ h'.chunkSize = h.chunkSize ∧
      wordSize ∣ a := by
  have hup : alignUp (max request.size h.chunkSize) pageSize <
      max request.size h.chunkSize + pageSize := alignUp_lt ⟨12, rfl⟩ _
  have hpace := hp.pace
  have hwell := hp.wellFormed.allocate request
  rcases hrun : h.allocate request with ⟨result, h'⟩
  rw [hrun] at hwell
  dsimp only at hwell
  cases ends_of_allocate hrun with
  | exhausted hlimit => exact absurd hp.maxBytes hlimit.1
  | tooLarge capacity hcapacity hlarge => omega
  -- The object goes behind the others in the last chunk.
  | @last front c _ _ hchunks hfits' =>
    obtain ⟨hbase, hsize, hcbase, hctop⟩ :=
      hp.chunks c (hchunks ▸ List.mem_append_right _ (List.mem_singleton_self c))
    have hused : h.used = c.top := used_of_back (by
      rw [← Array.getLast?_toList, hchunks, List.getLast?_concat])
    refine ⟨_, _, rfl, ⟨hwell, hp.maxBytes, hp.splitEvery, hp.chunkSize, hp.next, ?_, ?_⟩, rfl, rfl,
      Nat.dvd_add hcbase hctop⟩
    · refine List.forall_mem_append.mpr ⟨fun d hd => ?_, List.forall_mem_singleton.mpr
        ⟨hbase, hsize, hcbase, Nat.dvd_add hctop hdvd⟩⟩
      exact hp.chunks d (hchunks ▸ List.mem_append_left _ hd)
    · rw [used_of_back (c := { c with top := c.top + request.size }) (by simp)]
      dsimp only
      omega
  | next capacity _ hdue hcapacity hfits' =>
    -- A new chunk is only taken when the last one is too full, and then that one pays for it.
    have hroom : h.hasRoom request.size = false := by
      rcases hdue with hsplit | hroom
      · simp [splitDue, hp.splitEvery] at hsplit
      · exact hroom
    have hextent := hp.chunkExtent_le hroom
    rw [chunkExtent, ← hcapacity] at hextent
    have hle : max request.size h.chunkSize ≤ capacity := hcapacity ▸ le_alignUp ..
    have hword : wordSize ∣ capacity + pageSize := by
      rw [hcapacity]
      exact Nat.dvd_trans wordSize_dvd_pageSize
        (Nat.dvd_add (dvd_alignUp ⟨12, rfl⟩ _) (Nat.dvd_refl pageSize))
    obtain ⟨hbase, hdvd'⟩ := hp.next
    refine ⟨_, _, rfl, ⟨hwell, hp.maxBytes, hp.splitEvery, hp.chunkSize,
      ⟨Nat.le_trans hbase (Nat.le_add_right ..), Nat.dvd_add hdvd' hword⟩, ?_, ?_⟩, rfl, rfl, hdvd'⟩
    · refine List.forall_mem_append.mpr ⟨hp.chunks, List.forall_mem_singleton.mpr
        ⟨hbase, ?_, hdvd', hdvd⟩⟩
      dsimp only
      omega
    · rw [used_of_back (c := ⟨h.nextBase, capacity, ByteArray.empty, request.size⟩) (by simp)]
      dsimp only
      omega

end Paced

/-! ## Writing -/

/-- Writing keeps the settings and the counters of an arena. -/
theorem settings_write (h : Arena) (a : Nat) (bytes : ByteArray) :
    (h.write a bytes).maxBytes = h.maxBytes ∧ (h.write a bytes).splitEvery = h.splitEvery ∧
      (h.write a bytes).chunkSize = h.chunkSize ∧
      (h.write a bytes).allocatedBytes = h.allocatedBytes := by
  rw [write_eq]
  exact ⟨rfl, rfl, rfl, rfl⟩

/-- Writing uses no more of a chunk. -/
theorem used_write (hw : h.WellFormed) (a : Nat) (bytes : ByteArray) :
    (h.write a bytes).used = h.used := by
  obtain ⟨-, -, hsize, -⟩ := h.settings_write a bytes
  rw [used, used, ← Array.getLast?_toList, ← Array.getLast?_toList, toList_write hw,
    List.getLast?_map, hsize]
  cases h.chunks.toList.getLast? with
  | none => rfl
  | some c =>
    dsimp only [Option.map_some]
    split
    · exact Chunk.write_top ..
    · rfl

namespace Paced

/-- Writing keeps the pace. -/
theorem write (hp : h.Paced base debt) (a : Nat) (bytes : ByteArray) :
    (h.write a bytes).Paced base debt := by
  obtain ⟨hmax, hsplit, hsize, hbytes⟩ := h.settings_write a bytes
  have hnext := h.write_fields a bytes
  refine ⟨hp.wellFormed.write a bytes, hmax.trans hp.maxBytes, hsplit.trans hp.splitEvery,
    hsize ▸ hp.chunkSize, hnext ▸ hp.next, ?_, ?_⟩
  · intro d hd
    obtain ⟨c, hc, hbase, hcsize, htop⟩ := mem_write hp.wellFormed hd
    rw [hbase, hcsize, htop, hsize]
    exact hp.chunks c hc
  · rw [used_write hp.wellFormed, hnext, hsize, hbytes]
    exact hp.pace

/-! ## Where memory is -/

/-- **Allocated memory** lies between the first chunk and the place of the next one. -/
theorem bounds (hp : h.Paced base debt) {a : Nat} (hh : h.Holds a n) :
    base ≤ a ∧ a + n ≤ base + 2 * h.chunkSize + 4 * h.allocatedBytes + debt := by
  obtain ⟨c, hc, hlow, hhigh⟩ := hh
  have hbase := (hp.chunks c hc).1
  have htop := hp.wellFormed.top_le c hc
  have hstop := hp.wellFormed.below c hc
  have hpace := hp.pace
  rw [Chunk.stop] at hstop
  omega

/-- The addresses of the memory are heap words if the place of the next chunk is one. -/
theorem addressable (hp : h.Paced base debt) (hbase : base ≠ 0)
    (hlt : base + 2 * h.chunkSize + 4 * h.allocatedBytes + debt ≤ 2 ^ 64) : h.Addressable := by
  intro c hc
  have hlow := (hp.chunks c hc).1
  have hstop := hp.wellFormed.below c hc
  have hpace := hp.pace
  exact ⟨by omega, by omega⟩

end Paced

/-- A fresh arena keeps pace from 16 GiB on. -/
theorem paced_standard : standard.Paced 0x400000000 0 :=
  paced_of_isEmpty rfl rfl rfl (by decide) ⟨0x80000000, rfl⟩

end HeapImage.Arena
