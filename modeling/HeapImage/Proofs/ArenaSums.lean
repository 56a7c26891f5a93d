import HeapImage.Proofs.ArenaAllocation
import HeapImage.Proofs.CopyFrames

/-! # Sums of an arena

An arena works out where its next chunk goes before it adds one, and never goes back. So all sums
that it has ever come to lie below the place of the next chunk, and one look at it in the end says
whether all of them were addresses.

* `Arena.nextBase_allocate`: where the next chunk goes after an allocation.
* `Arena.sumsFit`: the sums of an arena are addresses if the place of the next chunk is one. -/

namespace HeapImage.Arena

variable {h h' : Arena} {a : Nat}

/-- The addresses that a new chunk with room for `size` bytes takes, the page behind it included. -/
def chunkExtent (h : Arena) (size : Nat) : Nat :=
  alignUp (max size h.chunkSize) pageSize + pageSize

/-- A new chunk has room for the object and its guard page. -/
theorem le_chunkExtent (h : Arena) (size : Nat) :
    max size h.chunkSize + pageSize ≤ h.chunkExtent size :=
  Nat.add_le_add_right (le_alignUp ..) _

/-- A new chunk moves the place of the next one behind itself. -/
theorem nextBase_addChunk (h : Arena) (size : Nat) :
    (h.addChunk size).2.nextBase = h.nextBase + h.chunkExtent size := by
  rw [addChunk]
  split <;> rfl

/-- Allocating in the last chunk keeps the place of the next one. -/
theorem nextBase_bump (h : Arena) (size : Nat) : (h.bump size).2.nextBase = h.nextBase := by
  rw [bump]
  split <;> rfl

/-- However the memory of the last chunk is taken, the next chunk goes where it went before. -/
theorem nextBase_of_bump (h : Arena) (size : Nat) (e : AllocationError) :
    (match h.bump size with
      | (some address, h) => ((.ok address : Except AllocationError Nat), h)
      | (none, h) => (.error e, h)).2.nextBase = h.nextBase := by
  rw [← h.nextBase_bump size]
  rcases h.bump size with ⟨_ | address, k⟩ <;> rfl

/-- The next chunk goes behind the one that an allocation adds, if it adds one. -/
theorem nextBase_allocate (h : Arena) (request : AllocationRequest) :
    (h.allocate request).2.nextBase =
      if h.maxBytes ≠ 0 ∧ h.maxBytes < h.allocatedBytes + request.size then h.nextBase
      else if h.splitDue || !h.hasRoom request.size then
        h.nextBase + h.chunkExtent request.size
      else h.nextBase := by
  rw [allocate]
  split
  · rfl
  · cases hdue : h.splitDue || !h.hasRoom request.size with
    | false => exact h.nextBase_of_bump ..
    | true =>
      rw [if_pos rfl, if_pos rfl, ← nextBase_addChunk]
      rcases h.addChunk request.size with ⟨e | u, k⟩
      · rfl
      · exact k.nextBase_of_bump ..

/-- An allocation never moves the place of the next chunk down. -/
theorem nextBase_le_allocate (h : Arena) (request : AllocationRequest) :
    h.nextBase ≤ (h.allocate request).2.nextBase := by
  rw [nextBase_allocate]
  split
  · exact Nat.le_refl _
  · split
    · exact Nat.le_add_right ..
    · exact Nat.le_refl _

/-- The last chunk lies below the next one, and its allocated bytes lie in it. -/
theorem WellFormed.last_le_nextBase (hw : h.WellFormed) {c : Chunk} (hc : h.chunks.back? = some c) :
    c.base + c.size ≤ h.nextBase ∧ c.top ≤ c.size := by
  rw [← Array.getLast?_toList] at hc
  have hmem := List.mem_of_getLast? hc
  exact ⟨hw.below c hmem, hw.top_le c hmem⟩

/-- **The sums of an allocation** do not pass the place of the chunk that comes next. -/
theorem WellFormed.allocationSums_le (hw : h.WellFormed) (request : AllocationRequest) :
    ∀ n ∈ h.allocationSums request.size, n ≤ (h.allocate request).2.nextBase := by
  have hextent := h.le_chunkExtent request.size
  intro n hn
  rw [nextBase_allocate]
  rw [allocationSums] at hn
  by_cases hlimit : h.maxBytes ≠ 0 ∧ h.maxBytes < h.allocatedBytes + request.size
  · rw [if_pos hlimit] at hn
    cases hn
  · rw [if_neg hlimit] at hn ⊢
    cases hdue : h.splitDue || !h.hasRoom request.size with
    | true =>
      -- The new chunk has room for the object, so it reaches as far as the object would have
      -- reached from the last chunk.
      rw [hdue, if_pos rfl] at hn
      rw [if_pos rfl]
      rcases List.mem_append.mp hn with hn | hn
      · obtain ⟨c, hc, rfl⟩ := List.mem_map.mp hn
        obtain ⟨hsize, htop⟩ := hw.last_le_nextBase (Option.mem_toList.mp hc)
        omega
      · have hcapacity : alignUp (max request.size h.chunkSize) pageSize + pageSize =
            h.chunkExtent request.size := rfl
        simp only [List.mem_cons, List.not_mem_nil, or_false, hcapacity] at hn
        omega
    | false =>
      rw [hdue] at hn
      rw [if_neg Bool.false_ne_true]
      rcases List.mem_append.mp hn with hn | hn
      · obtain ⟨c, hc, rfl⟩ := List.mem_map.mp hn
        have hback := Option.mem_toList.mp hc
        obtain ⟨-, hroom⟩ := Bool.or_eq_false_iff.mp hdue
        rw [hasRoom, hback, Bool.not_eq_false', decide_eq_true_eq] at hroom
        obtain ⟨hsize, -⟩ := hw.last_le_nextBase hback
        omega
      · obtain ⟨c, hc, rfl⟩ := List.mem_map.mp hn
        obtain ⟨hsize, htop⟩ := hw.last_le_nextBase (Option.mem_toList.mp hc)
        omega

/-- **An object** that has got memory ends below the next chunk. -/
theorem WellFormed.stop_le_nextBase (hw : h.WellFormed) {request : AllocationRequest}
    (hok : h.allocate request = (.ok a, h')) : a + request.size ≤ h'.nextBase := by
  cases ends_of_allocate hok with
  | @last front c _ _ hchunks hfits =>
    have hstop : c.base + c.size ≤ h.nextBase := (hw.of_concat hchunks).2.2
    change c.base + c.top + request.size ≤ h.nextBase
    omega
  | next capacity _ _ hcapacity =>
    have hle := le_alignUp (max request.size h.chunkSize) pageSize
    change h.nextBase + request.size ≤ h.nextBase + (capacity + pageSize)
    omega

/-- **The sums of an arena** are addresses as long as the place of its next chunk is one. -/
theorem sumsFit : SumsFit .words WellFormed fun h : Arena => h.nextBase < 2 ^ 64 where
  valid_allocate request hw := hw.allocate request
  valid_write a bytes hw := hw.write a bytes
  fits_allocate request _ hfits := Nat.lt_of_le_of_lt (nextBase_le_allocate _ request) hfits
  fits_write a bytes hfits := by
    rw [← write_fields _ a bytes]
    exact hfits
  fits_completeLoaded _ hfits := hfits
  sums request hw hfits n hn := Nat.lt_of_le_of_lt (hw.allocationSums_le request n hn) hfits
  stop hw hfits hok := Nat.lt_of_le_of_lt (hw.stop_le_nextBase (Prod.ext hok rfl)) hfits

end HeapImage.Arena
