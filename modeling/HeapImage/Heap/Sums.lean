import HeapImage.Heap.Arena

/-!
# Sums of a heap

Heap words hold addresses and sizes, so a heap that answers a request must not come to a sum that
is too large for one.

* `HeapSums`: the sums that a heap works out.
* `Arena.allocationSums`, `Arena.reservationSums`: those of an arena.
-/

namespace HeapImage

/-- The sums of addresses and sizes that a heap works out to answer a request. Counters are left
out: they stay below the number of bytes that are there to be counted. -/
class HeapSums (μ : Type) where
  /-- The sums of an allocation. -/
  allocation : μ → AllocationRequest → List Nat
  /-- The sums of setting a range of addresses aside. -/
  reservation : μ → (requested : Nat) → (len : Nat) → List Nat

namespace Arena

/-- The sums of an allocation: the end of the object in the last chunk, and what it takes to add a
chunk or the address in the last one. -/
def allocationSums (h : Arena) (size : Nat) : List Nat :=
  if h.maxBytes ≠ 0 ∧ h.maxBytes < h.allocatedBytes + size then []
  else
    let last := h.chunks.back?.toList
    let top := last.map fun c => c.top + size
    if h.splitDue || !h.hasRoom size then
      let capacity := alignUp (max size h.chunkSize) pageSize
      top ++ [max size h.chunkSize + pageSize, capacity + pageSize,
        h.nextBase + (capacity + pageSize)]
    else top ++ last.map fun c => c.base + c.top

/-- The end of the range that a reservation asks for. The ends of the chunks that it is compared
with lie below the place of the next one, which has been worked out before. -/
def reservationSums (h : Arena) (requested len : Nat) : List Nat :=
  (h.grant? requested).toList.map fun base => base + len

instance : HeapSums Arena where
  allocation h request := h.allocationSums request.size
  reservation := reservationSums

end Arena

end HeapImage
