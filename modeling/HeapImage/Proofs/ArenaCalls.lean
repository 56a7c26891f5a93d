import HeapImage.Proofs.ArenaAllocation

/-! # Calls of an arena

A runtime uses an arena by one call after another. What it has been given by then, and what it has
written there, can be read off the calls.

* `ArenaCall`, `Arena.performAll`: calls and the arena after them.
* `Arena.givenAll`, `ArenaCall.lastWritten`: the memory that calls have been given, and the bytes
  left in it.
* `Arena.Configured`: the arenas that a runtime can start with.
* `Arena.Admits`: calls that ask for whole words and only write to what has been given before. -/

namespace HeapImage

/-- A request to an arena. -/
inductive ArenaCall where
  | allocate (request : AllocationRequest)
  /-- Bytes that are to replace those at an address. -/
  | write (address : Nat) (bytes : ByteArray)
  | reserve (requested len : Nat)
  | release (base len : Nat)

namespace ArenaCall

/-- The byte at the address `x` after a call, where it was `v` before. -/
def leaves (x : Nat) (v : UInt8) : ArenaCall → UInt8
  | write a bytes => if a ≤ x ∧ x < a + bytes.size then Bytes.get bytes (x - a) else v
  | _ => v

/-- Memory is asked for in whole words, and written to only inside the extents `es`. -/
def Allowed (es : List Extent) : ArenaCall → Prop
  | allocate request => wordSize ∣ request.size
  | write a bytes => ∀ i < bytes.size, ∃ e ∈ es, e.contains (a + i) = true
  | _ => True

instance (es : List Extent) : (call : ArenaCall) → Decidable (call.Allowed es)
  | allocate request => inferInstanceAs (Decidable (wordSize ∣ request.size))
  | write a bytes =>
    inferInstanceAs (Decidable (∀ i < bytes.size, ∃ e ∈ es, e.contains (a + i) = true))
  | reserve .. => inferInstanceAs (Decidable True)
  | release .. => inferInstanceAs (Decidable True)

/-- The byte that calls have left at an address of fresh memory. -/
def lastWritten (calls : List ArenaCall) (x : Nat) : UInt8 :=
  calls.foldl (fun v call => call.leaves x v) 0

end ArenaCall

namespace Arena

variable {h : Arena}

/-- The arena after a call. -/
def perform (h : Arena) : ArenaCall → Arena
  | .allocate request => (h.allocate request).2
  | .write a bytes => (Memory.tryWrite h a bytes).2
  | .reserve requested len => (h.reserve requested len).2
  | .release base len => h.release base len

/-- The arena after one call after the other. -/
def performAll (h : Arena) (calls : List ArenaCall) : Arena := calls.foldl perform h

/-- The memory that a call is given. -/
def given (h : Arena) : ArenaCall → List Extent
  | .allocate request =>
    match (h.allocate request).1 with
    | .ok a => [⟨a, a + request.size⟩]
    | .error _ => []
  | _ => []

/-- The memory that calls are given, one after the other. -/
def givenAll (h : Arena) : List ArenaCall → List Extent
  | [] => []
  | call :: calls => h.given call ++ (h.perform call).givenAll calls

/-- All calls are allowed, where the extents `es` have been given before. -/
def Admits (h : Arena) (es : List Extent) : List ArenaCall → Prop
  | [] => True
  | call :: calls => call.Allowed es ∧ (h.perform call).Admits (es ++ h.given call) calls

instance decidableAdmits :
    (h : Arena) → (es : List Extent) → (calls : List ArenaCall) → Decidable (h.Admits es calls)
  | _, _, [] => inferInstanceAs (Decidable True)
  | h, es, call :: calls =>
    have := decidableAdmits (h.perform call) (es ++ h.given call) calls
    inferInstanceAs
      (Decidable (call.Allowed es ∧ (h.perform call).Admits (es ++ h.given call) calls))

/-- The arenas that a runtime can start with: a fresh one with any settings. -/
inductive Configured : Arena → Prop
  | standard : Configured standard
  | withBase {h : Arena} (base : Nat) : Configured h → Configured (h.withBase base)
  | withChunkSize {h : Arena} (bytes : Nat) : Configured h → Configured (h.withChunkSize bytes)
  | withSplitEvery {h : Arena} (n : Nat) : Configured h → Configured (h.withSplitEvery n)
  | withMaxBytes {h : Arena} (bytes : Nat) : Configured h → Configured (h.withMaxBytes bytes)
  | withMapping {h : Arena} (policy : MappingPolicy) : Configured h →
    Configured (h.withMapping policy)

/-- Whatever its settings are, a fresh arena has given nothing, and its first chunk starts a
page. -/
theorem Configured.fresh (hc : h.Configured) : h.chunks = #[] ∧ h.reservations = #[] ∧
    h.allocations = 0 ∧ h.allocatedBytes = 0 ∧ pageSize ∣ h.nextBase := by
  induction hc with
  | standard => exact ⟨rfl, rfl, rfl, rfl, ⟨0x400000, rfl⟩⟩
  | withBase base _ ih =>
    exact ⟨ih.1, ih.2.1, ih.2.2.1, ih.2.2.2.1, dvd_alignUp ⟨12, rfl⟩ base⟩
  | withChunkSize _ _ ih => exact ih
  | withSplitEvery _ _ ih => exact ih
  | withMaxBytes _ _ ih => exact ih
  | withMapping _ _ ih => exact ih

/-- An allocation that succeeds gives the caller its bytes. -/
theorem given_of_ok {k : Arena} {request : AllocationRequest} {a : Nat}
    (hok : h.allocate request = (.ok a, k)) :
    h.given (.allocate request) = [⟨a, a + request.size⟩] := by
  simp only [given, hok]

/-- An allocation that fails gives the caller nothing. -/
theorem given_of_error {k : Arena} {request : AllocationRequest} {e : AllocationError}
    (herror : h.allocate request = (.error e, k)) : h.given (.allocate request) = [] := by
  simp only [given, herror]

/-! ## What becomes of the chunks -/

theorem perform_allocate (h : Arena) (request : AllocationRequest) :
    h.perform (.allocate request) = (h.allocate request).2 := rfl

theorem perform_reserve (h : Arena) (requested len : Nat) :
    h.perform (.reserve requested len) = (h.reserve requested len).2 := rfl

theorem perform_release (h : Arena) (base len : Nat) :
    h.perform (.release base len) = h.release base len := rfl

theorem perform_write (h : Arena) (a : Nat) (bytes : ByteArray) :
    h.perform (.write a bytes) = if h.canWrite a bytes.size then h.write a bytes else h := by
  exact apply_ite Prod.snd ..

/-- **A call** keeps an arena well-formed. -/
theorem WellFormed.perform (hw : h.WellFormed) (call : ArenaCall) :
    (h.perform call).WellFormed := by
  cases call with
  | allocate request => exact hw.allocate request
  | write a bytes =>
    rw [perform_write]
    split
    · exact hw.write a bytes
    · exact hw
  | reserve requested len =>
    obtain ⟨rs, hrs⟩ := h.reserve_eq requested len
    rw [perform_reserve, hrs]
    exact hw.congr rfl rfl
  | release base len =>
    obtain ⟨rs, hrs⟩ := h.release_eq base len
    rw [perform_release, hrs]
    exact hw.congr rfl rfl

/-- Calls keep an arena well formed. -/
theorem WellFormed.performAll (hw : h.WellFormed) (calls : List ArenaCall) :
    (h.performAll calls).WellFormed := by
  induction calls generalizing h with
  | nil => exact hw
  | cons call calls ih => exact ih (hw.perform call)

/-- The address ranges of the chunks. -/
def chunkRanges (h : Arena) : List Extent := h.chunks.toList.map fun c => ⟨c.base, c.stop⟩

/-- Writing leaves the chunks where they are. -/
theorem chunkRanges_write (hw : h.WellFormed) (a : Nat) (bytes : ByteArray) :
    (h.write a bytes).chunkRanges = h.chunkRanges := by
  unfold chunkRanges
  rw [toList_write hw, List.map_map]
  refine List.map_congr_left fun c _ => ?_
  dsimp only [Function.comp]
  unfold Chunk.stop
  split
  · rw [Chunk.write_base, Chunk.write_size]
  · rfl

/-- **A call** adds one chunk at most, at the place of the next one, which moves on by whole
pages. -/
theorem chunkRanges_perform (hw : h.WellFormed) (call : ArenaCall) :
    ∃ n, pageSize ∣ n ∧ (h.perform call).nextBase = h.nextBase + n ∧
      ((h.perform call).chunkRanges = h.chunkRanges ∨ ∃ capacity, n = capacity + pageSize ∧
        (h.perform call).chunkRanges = h.chunkRanges ++ [⟨h.nextBase, h.nextBase + capacity⟩]) := by
  cases call with
  | allocate request =>
    rw [perform_allocate]
    have hdvd : pageSize ∣ alignUp (max request.size h.chunkSize) pageSize + pageSize :=
      Nat.dvd_add (dvd_alignUp ⟨12, rfl⟩ _) (Nat.dvd_refl _)
    rcases hrun : h.allocate request with ⟨result, h'⟩
    cases ends_of_allocate hrun with
    | exhausted => exact ⟨0, Nat.dvd_zero _, rfl, .inl rfl⟩
    -- A chunk that is too large is given up, but its addresses are used up.
    | tooLarge capacity hcapacity => exact ⟨_, hcapacity ▸ hdvd, rfl, .inl rfl⟩
    | last _ _ hchunks =>
      refine ⟨0, Nat.dvd_zero _, rfl, .inl ?_⟩
      unfold chunkRanges
      rw [hchunks, List.map_append, List.map_append]
      rfl
    | next capacity _ _ hcapacity =>
      refine ⟨_, hcapacity ▸ hdvd, rfl, .inr ⟨capacity, rfl, ?_⟩⟩
      unfold chunkRanges
      rw [List.map_append]
      rfl
  | write a bytes =>
    refine ⟨0, Nat.dvd_zero _, ?_, .inl ?_⟩ <;> rw [perform_write] <;> split
    · exact h.write_fields a bytes
    · rfl
    · exact chunkRanges_write hw a bytes
    · rfl
  | reserve requested len =>
    obtain ⟨rs, hrs⟩ := h.reserve_eq requested len
    rw [perform_reserve, hrs]
    exact ⟨0, Nat.dvd_zero _, rfl, .inl rfl⟩
  | release base len =>
    obtain ⟨rs, hrs⟩ := h.release_eq base len
    rw [perform_release, hrs]
    exact ⟨0, Nat.dvd_zero _, rfl, .inl rfl⟩

end Arena

end HeapImage
