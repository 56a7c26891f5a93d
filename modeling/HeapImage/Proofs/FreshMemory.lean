import HeapImage.Proofs.ArenaCalls
import Mathlib.Algebra.GroupWithZero.Nat

/-! # Fresh memory

Whatever an arena is asked for, and in whatever order, the memory that it gives lies behind all the
memory that it has given before and is zero. From then on it holds what its owner writes there,
because chunks lie a page apart and a write never leaves the chunk that it starts in.

* `Arena.Spaced`: chunks lie a page apart.
* `Arena.Tenanted`: what holds between calls, with one lemma for each kind of call.
* `Arena.Serves`, `Arena.Configured.serves`: what an arena does for those who use it. -/

namespace HeapImage

/-- An extent lies in the allocated part of a chunk. -/
def Chunk.Holds (c : Chunk) (e : Extent) : Prop := c.base ≤ e.bottom ∧ e.top ≤ c.base + c.top

namespace Arena

variable {h k : Arena} {a n limit : Nat} {es : List Extent} {contents : Nat → UInt8}

/-! ## Chunks a page apart -/

/-- The chunks lie a page apart and below the place of the next one, and start at heap words. -/
structure Spaced (h : Arena) : Prop where
  apart : h.chunkRanges.Pairwise fun e f => e.top + pageSize ≤ f.bottom
  below : ∀ e ∈ h.chunkRanges, e.top + pageSize ≤ h.nextBase
  words : wordSize ∣ h.nextBase ∧ ∀ e ∈ h.chunkRanges, wordSize ∣ e.bottom

/-- **A call** leaves a page between the chunks. -/
theorem Spaced.perform (hs : h.Spaced) (hw : h.WellFormed) (call : ArenaCall) :
    (h.perform call).Spaced := by
  obtain ⟨n, hdvd, hnext, hranges⟩ := chunkRanges_perform hw call
  have hword : wordSize ∣ n := Nat.dvd_trans wordSize_dvd_pageSize hdvd
  have hbelow : ∀ e ∈ h.chunkRanges, e.top + pageSize ≤ (h.perform call).nextBase :=
    fun e he => hnext ▸ Nat.le_trans (hs.below e he) (Nat.le_add_right ..)
  have hwords : wordSize ∣ (h.perform call).nextBase := hnext ▸ Nat.dvd_add hs.words.1 hword
  rcases hranges with hsame | ⟨capacity, hn, hadded⟩
  · refine ⟨?_, ?_, hwords, ?_⟩ <;> rw [hsame]
    · exact hs.apart
    · exact hbelow
    · exact hs.words.2
  · refine ⟨?_, ?_, hwords, ?_⟩ <;> rw [hadded]
    · refine List.pairwise_append.mpr ⟨hs.apart, List.pairwise_singleton .., fun e he f hf => ?_⟩
      rw [List.mem_singleton.mp hf]
      exact hs.below e he
    · refine List.forall_mem_append.mpr ⟨hbelow, List.forall_mem_singleton.mpr ?_⟩
      rw [hnext, hn]
      exact Nat.le_of_eq (Nat.add_assoc ..)
    · exact List.forall_mem_append.mpr ⟨hs.words.2, List.forall_mem_singleton.mpr hs.words.1⟩

/-- Two chunks are one, or a page lies between them. -/
theorem Spaced.eq_or_apart (hs : h.Spaced) {c d : Chunk} (hc : c ∈ h.chunks.toList)
    (hd : d ∈ h.chunks.toList) :
    c = d ∨ c.stop + pageSize ≤ d.base ∨ d.stop + pageSize ≤ c.base := by
  have hsymm : Std.Symm fun c d : Chunk =>
      c.stop + pageSize ≤ d.base ∨ d.stop + pageSize ≤ c.base := ⟨fun _ _ => Or.symm⟩
  have hapart : h.chunks.toList.Pairwise fun c d =>
      c.stop + pageSize ≤ d.base ∨ d.stop + pageSize ≤ c.base :=
    (List.pairwise_map.mp hs.apart).imp Or.inl
  by_cases hne : c = d
  · exact .inl hne
  · exact .inr (hapart.forall hc hd hne)

/-- Memory whose bytes have all been allocated lies in one chunk. -/
theorem Spaced.holds_of_bytes (hs : h.Spaced) (hw : h.WellFormed) (hn : 0 < n)
    (hbytes : ∀ i < n, h.Holds (a + i) 1) : h.Holds a n := by
  obtain ⟨c, hc, hbase, htop⟩ := hbytes 0 hn
  refine ⟨c, hc, hbase, ?_⟩
  by_contra hlt
  -- The first byte behind the allocated part of the chunk would lie in another one, but there is a
  -- page in between.
  obtain ⟨d, hd, hdbase, hdtop⟩ := hbytes (c.base + c.top - a) (by omega)
  have hpage : 0 < pageSize := by decide
  have hctop := hw.top_le c hc
  have hdtop' := hw.top_le d hd
  rcases hs.eq_or_apart hc hd with rfl | hcd | hdc
  · omega
  · rw [Chunk.stop] at hcd
    omega
  · rw [Chunk.stop] at hdc
    omega

/-! ## Between calls -/

/-- An arena that has given the extents `es`, in which `contents` has been left, and can give as
many as `limit` bytes in all unless that is zero. -/
structure Tenanted (h : Arena) (limit : Nat) (es : List Extent) (contents : Nat → UInt8) :
    Prop where
  wellFormed : h.WellFormed
  spaced : h.Spaced
  frontier : wordSize ∣ h.frontier
  aligned : ∀ e ∈ es, wordSize ∣ e.bottom ∧ wordSize ∣ e.top ∧ e.bottom ≤ e.top
  holds : ∀ e ∈ es, h.Holds e.bottom e.length
  ascending : es.Pairwise fun e f => e.top ≤ f.bottom
  byte : ∀ x, h.byte x = contents x
  untouched : ∀ x, h.frontier ≤ x → contents x = 0
  allocations : h.allocations = es.length
  allocatedBytes : h.allocatedBytes = (es.map Extent.length).sum
  maxBytes : h.maxBytes = limit
  limited : limit ≠ 0 → h.allocatedBytes ≤ limit

/-- A fresh arena has given nothing. -/
theorem Configured.tenanted (hc : h.Configured) : h.Tenanted h.maxBytes [] fun _ => 0 := by
  obtain ⟨hchunks, -, hallocations, hbytes, hpage⟩ := hc.fresh
  have hranges : h.chunkRanges = [] := by
    unfold chunkRanges
    rw [hchunks]
    rfl
  have hfrontier : h.frontier = 0 := by
    unfold frontier
    rw [hchunks]
    rfl
  constructor
  case wellFormed => exact wellFormed_of_isEmpty hchunks
  case spaced =>
    refine ⟨?_, ?_, Nat.dvd_trans wordSize_dvd_pageSize hpage, ?_⟩ <;> rw [hranges]
    · exact .nil
    · exact List.forall_mem_nil _
    · exact List.forall_mem_nil _
  case byte =>
    intro x
    unfold Arena.byte chunkAt?
    rw [hchunks]
    rfl
  all_goals simp [hfrontier, hallocations, hbytes]

namespace Tenanted

/-- All that was given out ends below the frontier. -/
theorem top_le_frontier (ht : h.Tenanted limit es contents) {e : Extent} (he : e ∈ es) :
    e.top ≤ h.frontier := by
  have hle := (ht.aligned e he).2.2
  have hin := (ht.holds e he).le_frontier ht.wellFormed
  unfold Extent.length at hin
  omega

/-- Bytes of what has been given have been allocated. -/
theorem holds_of_contains (ht : h.Tenanted limit es contents) {x : Nat}
    (hx : ∃ e ∈ es, e.contains x = true) : h.Holds x 1 := by
  obtain ⟨e, he, hin⟩ := hx
  rw [Extent.contains_iff] at hin
  refine (ht.holds e he).part hin.1 ?_
  unfold Extent.length
  omega

/-- Only the ranges set aside differ. -/
theorem reservations (ht : h.Tenanted limit es contents) (rs : Array Extent) :
    Tenanted { h with reservations := rs } limit es contents :=
  ⟨ht.wellFormed.congr rfl rfl, ⟨ht.spaced.1, ht.spaced.2, ht.spaced.3⟩, ht.frontier, ht.aligned,
    ht.holds, ht.ascending, ht.byte, ht.untouched, ht.allocations, ht.allocatedBytes, ht.maxBytes,
    ht.limited⟩

/-- **An allocation** that succeeds gives one more extent, in whole words and behind all others. -/
theorem allocate_ok (ht : h.Tenanted limit es contents) {request : AllocationRequest}
    (hdvd : wordSize ∣ request.size) (hok : h.allocate request = (.ok a, k)) :
    k.Tenanted limit (es ++ [⟨a, a + request.size⟩]) contents := by
  have hw := ht.wellFormed
  have hallocates := of_allocate hw hok
  have hperform : h.perform (.allocate request) = k := congrArg Prod.snd hok
  have hspaced := ht.spaced.perform hw (.allocate request)
  rw [hperform] at hspaced
  obtain ⟨hbehind, hfrontier, hbytes⟩ := frontier_of_allocate hw hok
  have hlength : Extent.length ⟨a, a + request.size⟩ = request.size := Nat.add_sub_cancel_left ..
  obtain ⟨ha, hallocations, hmax, hlimit⟩ : wordSize ∣ a ∧ k.allocations = h.allocations + 1 ∧
      k.maxBytes = h.maxBytes ∧
      ¬ (h.maxBytes ≠ 0 ∧ h.maxBytes < h.allocatedBytes + request.size) := by
    -- Both ends say this of their own: one fills the last chunk, the other adds a new one.
    cases ends_of_allocate hok with
    | last hlimit _ hchunks =>
      exact ⟨frontier_concat hchunks ▸ ht.frontier, rfl, rfl, hlimit⟩
    | next _ hlimit => exact ⟨ht.spaced.words.1, rfl, rfl, hlimit⟩
  constructor
  case wellFormed => exact hallocates.wellFormed
  case spaced => exact hspaced
  case frontier =>
    rw [hfrontier]
    exact Nat.dvd_add ha hdvd
  case aligned =>
    exact List.forall_mem_append.mpr ⟨ht.aligned, List.forall_mem_singleton.mpr
      ⟨ha, Nat.dvd_add ha hdvd, Nat.le_add_right ..⟩⟩
  case holds =>
    refine List.forall_mem_append.mpr ⟨fun e he => hallocates.keeps _ _ (ht.holds e he),
      List.forall_mem_singleton.mpr ?_⟩
    rw [hlength]
    exact hallocates.holds
  case ascending =>
    refine List.pairwise_append.mpr ⟨ht.ascending, List.pairwise_singleton .., fun e he f hf => ?_⟩
    rw [List.mem_singleton.mp hf]
    exact Nat.le_trans (ht.top_le_frontier he) hbehind
  case byte => exact fun x => (hallocates.byte x).trans (ht.byte x)
  -- The frontier moves behind the extent, so less is left untouched.
  case untouched =>
    intro x hx
    exact ht.untouched x (by omega)
  case allocations => rw [hallocations, ht.allocations, List.length_append, List.length_singleton]
  case allocatedBytes =>
    rw [hbytes, ht.allocatedBytes, List.map_append, List.sum_append, List.map_singleton,
      List.sum_singleton, hlength]
  case maxBytes => exact hmax.trans ht.maxBytes
  case limited =>
    intro hne
    rw [ht.maxBytes] at hlimit
    omega

/-- **An allocation** that fails gives nothing. -/
theorem allocate_error (ht : h.Tenanted limit es contents) {request : AllocationRequest}
    {e : AllocationError} (herror : h.allocate request = (.error e, k)) :
    k.Tenanted limit es contents := by
  have hw := ht.wellFormed.perform (.allocate request)
  have hspaced := ht.spaced.perform ht.wellFormed (.allocate request)
  rw [perform_allocate, herror] at hw hspaced
  cases ends_of_allocate herror with
  | exhausted => exact ht
  | tooLarge =>
    exact ⟨hw, hspaced, ht.frontier, ht.aligned, ht.holds, ht.ascending, ht.byte, ht.untouched,
      ht.allocations, ht.allocatedBytes, ht.maxBytes, ht.limited⟩

/-- A write to what has been given can be done, unless there is nothing to write. -/
theorem size_eq_zero (ht : h.Tenanted limit es contents) {bytes : ByteArray}
    (hallowed : (ArenaCall.write a bytes).Allowed es) (hcan : ¬ h.canWrite a bytes.size = true) :
    bytes.size = 0 := by
  by_contra hne
  have hpos : 0 < bytes.size := Nat.pos_of_ne_zero hne
  have hbytes : ∀ i < bytes.size, h.Holds (a + i) 1 :=
    fun i hi => ht.holds_of_contains (hallowed i hi)
  exact hcan ((ht.spaced.holds_of_bytes ht.wellFormed hpos hbytes).canWrite ht.wellFormed hpos)

/-- Nothing is written behind the frontier, where all that has been given ends. -/
theorem lt_frontier_of_write (ht : h.Tenanted limit es contents) {bytes : ByteArray}
    (hallowed : (ArenaCall.write a bytes).Allowed es) {x : Nat} (hlow : a ≤ x)
    (hhigh : x < a + bytes.size) : x < h.frontier := by
  obtain ⟨e, he, hin⟩ := hallowed (x - a) (by omega)
  have htop := ht.top_le_frontier he
  rw [Extent.contains_iff] at hin
  omega

/-- **A write** to what has been given is found there, and changes nothing else. -/
theorem write (ht : h.Tenanted limit es contents) {bytes : ByteArray}
    (hallowed : (ArenaCall.write a bytes).Allowed es) :
    (h.perform (.write a bytes)).Tenanted limit es
      fun x => (ArenaCall.write a bytes).leaves x (contents x) := by
  have hw := ht.wellFormed
  have hspaced := ht.spaced.perform hw (.write a bytes)
  have hfields := h.write_eq a bytes
  rw [perform_write] at hspaced ⊢
  split
  · rename_i hcan
    rw [if_pos hcan] at hspaced
    constructor
    case wellFormed => exact hw.write a bytes
    case spaced => exact hspaced
    case frontier => exact (frontier_write hw a bytes).symm ▸ ht.frontier
    case aligned => exact ht.aligned
    case holds => exact fun e he => (ht.holds e he).write hw a bytes
    case ascending => exact ht.ascending
    case byte =>
      intro x
      rw [byte_write hw hcan, ht.byte]
      rfl
    case untouched =>
      intro x hx
      rw [frontier_write hw] at hx
      show (if a ≤ x ∧ x < a + bytes.size then Bytes.get bytes (x - a) else contents x) = 0
      rw [if_neg fun hin => absurd (ht.lt_frontier_of_write hallowed hin.1 hin.2) (by omega)]
      exact ht.untouched x hx
    case allocations => exact (congrArg Arena.allocations hfields).trans ht.allocations
    case allocatedBytes => exact (congrArg Arena.allocatedBytes hfields).trans ht.allocatedBytes
    case maxBytes => exact (congrArg Arena.maxBytes hfields).trans ht.maxBytes
    case limited =>
      rw [hfields]
      exact ht.limited
  · rename_i hcan
    -- A write that is not done has no bytes to leave.
    have hsize := ht.size_eq_zero hallowed hcan
    have hsame : (fun x => (ArenaCall.write a bytes).leaves x (contents x)) = contents := by
      funext x
      show (if a ≤ x ∧ x < a + bytes.size then Bytes.get bytes (x - a) else contents x) = _
      rw [if_neg (by omega)]
    rw [hsame]
    exact ht

/-- **Each call** leaves an arena as it has to be. -/
theorem perform (ht : h.Tenanted limit es contents) {call : ArenaCall}
    (hallowed : call.Allowed es) : (h.perform call).Tenanted limit (es ++ h.given call)
      fun x => call.leaves x (contents x) := by
  cases call with
  | allocate request =>
    rw [perform_allocate]
    rcases hrun : h.allocate request with ⟨e | a, k⟩
    · rw [given_of_error hrun, List.append_nil]
      exact ht.allocate_error hrun
    · rw [given_of_ok hrun]
      exact ht.allocate_ok hallowed hrun
  | write a bytes => exact (List.append_nil es).symm ▸ ht.write hallowed
  | reserve requested len =>
    obtain ⟨rs, hrs⟩ := h.reserve_eq requested len
    rw [perform_reserve, hrs]
    exact (List.append_nil es).symm ▸ ht.reservations rs
  | release base len =>
    obtain ⟨rs, hrs⟩ := h.release_eq base len
    rw [perform_release, hrs]
    exact (List.append_nil es).symm ▸ ht.reservations rs

/-- **All calls** leave an arena as it has to be. -/
theorem performAll (ht : h.Tenanted limit es contents) {calls : List ArenaCall}
    (hadmits : h.Admits es calls) : (h.performAll calls).Tenanted limit (es ++ h.givenAll calls)
      fun x => calls.foldl (fun v call => call.leaves x v) (contents x) := by
  induction calls generalizing h es contents with
  | nil =>
    unfold givenAll
    rw [List.append_nil]
    exact ht
  | cons call calls ih =>
    unfold givenAll
    rw [← List.append_assoc]
    exact ih (ht.perform hadmits.1) hadmits.2

end Tenanted

/-! ## What an arena does for its users -/

/-- What an arena owes those it has given the extents `es`, in which they have left `contents`,
if it can give `limit` bytes in all or has no limit, which is zero. -/
structure Serves (h : Arena) (limit : Nat) (es : List Extent) (contents : Nat → UInt8) : Prop where
  /-- What has been given is whole words. -/
  aligned : ∀ e ∈ es, wordSize ∣ e.bottom ∧ wordSize ∣ e.top ∧ e.bottom ≤ e.top
  /-- Nothing has been given twice: each extent lies behind all that were given before it. -/
  ascending : es.Pairwise fun e f => e.top ≤ f.bottom
  /-- Each extent has been allocated in one chunk. -/
  inside : ∀ e ∈ es, ∃ c ∈ h.chunks.toList, c.Holds e
  /-- A page lies between what different chunks hold. -/
  apart : ∀ c ∈ h.chunks.toList, ∀ d ∈ h.chunks.toList, c ≠ d → ∀ e f, c.Holds e → d.Holds f →
    e.top + pageSize ≤ f.bottom ∨ f.top + pageSize ≤ e.bottom
  /-- Every part of an extent can be read and holds what has been left there. -/
  reads : ∀ e ∈ es, ∀ a n, e.bottom ≤ a → a + n ≤ e.top → 0 < n →
    ∃ bytes, h.read? a n = some bytes ∧ bytes.size = n ∧
      ∀ i < n, Bytes.get bytes i = contents (a + i)
  /-- The search finds the chunk with an address, and finds none if there is none. -/
  lookup : ∀ a, h.chunkIndex? a = h.chunks.toList.findIdx? fun c => c.contains a
  allocations : h.allocations = es.length
  allocatedBytes : h.allocatedBytes = (es.map Extent.length).sum
  limited : limit ≠ 0 → h.allocatedBytes ≤ limit ∧ es.countP (fun e => !e.isEmpty) ≤ limit

/-- Extents that are not empty have a byte each. -/
theorem countP_le_sum (es : List Extent) :
    es.countP (fun e => !e.isEmpty) ≤ (es.map Extent.length).sum := by
  induction es with
  | nil => exact Nat.le_refl _
  | cons e es ih =>
    have hlength : e.length = e.top - e.bottom := rfl
    rw [List.countP_cons, List.map_cons, List.sum_cons]
    split
    · rename_i hne
      have hlt : ¬ e.top ≤ e.bottom := by simpa [Extent.isEmpty] using hne
      omega
    · omega

/-- The invariant gives all that an arena serves its callers. -/
theorem serves_of_tenanted (ht : h.Tenanted limit es contents) : h.Serves limit es contents where
  aligned := ht.aligned
  ascending := ht.ascending
  inside e he := by
    obtain ⟨c, hc, hbase, htop⟩ := ht.holds e he
    have hle := (ht.aligned e he).2.2
    unfold Extent.length at htop
    exact ⟨c, hc, hbase, by omega⟩
  apart c hc d hd hne e f hce hdf := by
    obtain ⟨hebottom, hetop⟩ := hce
    obtain ⟨hfbottom, hftop⟩ := hdf
    have hctop := ht.wellFormed.top_le c hc
    have hdtop := ht.wellFormed.top_le d hd
    -- Chunks have a page between them, so extents of different chunks never touch.
    have hgap := (ht.spaced.eq_or_apart hc hd).resolve_left hne
    unfold Chunk.stop at hgap
    omega
  reads e he a n hlow hhigh hn := by
    have hholds := (ht.holds e he).part hlow (b := a) (n := n) (by unfold Extent.length; omega)
    obtain ⟨bytes, hread, hsize, hbytes⟩ := hholds.read? ht.wellFormed hn
    exact ⟨bytes, hread, hsize, fun i hi => (hbytes i hi).trans (ht.byte _)⟩
  lookup := ht.wellFormed.chunkIndex?_eq
  allocations := ht.allocations
  allocatedBytes := ht.allocatedBytes
  limited hne := by
    have hle := ht.limited hne
    exact ⟨hle, Nat.le_trans (ht.allocatedBytes ▸ countP_le_sum es) hle⟩

/-- Memory of `n` bytes at an address that nobody had before, all of them zero. -/
structure Gives (k : Arena) (es : List Extent) (a n : Nat) : Prop where
  aligned : wordSize ∣ a
  apart : ∀ e ∈ es, e.Apart ⟨a, a + n⟩
  zero : 0 < n → k.read? a n = some (Bytes.zeros n)

/-- What an arena that has given the extents `es` makes of one more call. -/
def Answers (h : Arena) (limit : Nat) (es : List Extent) : ArenaCall → Prop
  | .allocate request =>
    match h.allocate request with
    | (.ok a, k) => k.Gives es a request.size
    -- Where no chunk can be as large as it takes, addresses are used up, and nothing else.
    | (.error e, k) => (e = .heapExhausted request.size limit ∧ k = h) ∨
        (e = .tooLarge ∧ k = { h with nextBase := k.nextBase })
  | .write a bytes => ∀ x, (h.perform (.write a bytes)).read? x 1 =
      if a ≤ x ∧ x < a + bytes.size then some (Bytes.ofList [Bytes.get bytes (x - a)])
      else h.read? x 1
  | .reserve requested len =>
    ∃ rs, h.perform (.reserve requested len) = { h with reservations := rs }
  | .release base len => ∃ rs, h.perform (.release base len) = { h with reservations := rs }

namespace Tenanted

/-- Memory that is given is zero, as nothing has been left behind the frontier. -/
theorem gives (ht : h.Tenanted limit es contents) {request : AllocationRequest}
    (hdvd : wordSize ∣ request.size) (hok : h.allocate request = (.ok a, k)) :
    k.Gives es a request.size := by
  have hk := ht.allocate_ok hdvd hok
  have hself : (⟨a, a + request.size⟩ : Extent) ∈ es ++ [⟨a, a + request.size⟩] :=
    List.mem_append_right _ (List.mem_singleton_self _)
  obtain ⟨hbehind, -, -⟩ := frontier_of_allocate ht.wellFormed hok
  refine ⟨(hk.aligned _ hself).1, ?_, ?_⟩
  · intro e he
    have htop := ht.top_le_frontier he
    exact Extent.apart_iff.mpr (.inr (.inr (.inl (Nat.le_trans htop hbehind))))
  · intro hsize
    have hholds := (of_allocate ht.wellFormed hok).holds
    obtain ⟨bytes, hread, hlen, hbytes⟩ := hholds.read? hk.wellFormed hsize
    rw [hread]
    refine congrArg some (Bytes.ext_get (by rw [hlen, Bytes.size_zeros]) fun i hi => ?_)
    rw [hbytes i (hlen ▸ hi), hk.byte, Bytes.get_zeros]
    exact ht.untouched _ (by omega)

/-- A byte reads as it was written, and any other as before. -/
theorem read?_write (ht : h.Tenanted limit es contents) {bytes : ByteArray}
    (hallowed : (ArenaCall.write a bytes).Allowed es) (x : Nat) :
    (h.perform (.write a bytes)).read? x 1 =
      if a ≤ x ∧ x < a + bytes.size then some (Bytes.ofList [Bytes.get bytes (x - a)])
      else h.read? x 1 := by
  have hw := ht.wellFormed
  rw [perform_write]
  split
  · rename_i hcan
    rw [read?_one (hw.write a bytes), read?_one hw, chunkAt?_write hw, Option.map_map,
      byte_write hw hcan]
    by_cases hin : a ≤ x ∧ x < a + bytes.size
    · obtain ⟨hlow, hhigh⟩ := hin
      -- What is written to has been given, so there is a chunk.
      have hgiven := hallowed (x - a) (by omega)
      rw [Nat.add_sub_cancel' hlow] at hgiven
      obtain ⟨c, hc, hbase, htop⟩ := ht.holds_of_contains hgiven
      have hctop := hw.top_le c hc
      rw [(chunkAt?_eq_some hw).mpr ⟨hc, Chunk.contains_iff.mpr (by omega)⟩]
      simp [hlow, hhigh]
    · simp only [if_neg hin]
      rfl
  · rename_i hcan
    have hsize := ht.size_eq_zero hallowed hcan
    rw [if_neg (by omega)]

/-- The invariant gives the answer to the next call, too. -/
theorem answers (ht : h.Tenanted limit es contents) {call : ArenaCall}
    (hallowed : call.Allowed es) : h.Answers limit es call := by
  cases call with
  | allocate request =>
    rcases hrun : h.allocate request with ⟨e | a, k⟩ <;> simp only [Answers, hrun]
    · cases ends_of_allocate hrun with
      | exhausted => exact .inl ⟨ht.maxBytes ▸ rfl, rfl⟩
      | tooLarge => exact .inr ⟨rfl, rfl⟩
    · exact ht.gives hallowed hrun
  | write a bytes => exact ht.read?_write hallowed
  | reserve requested len => exact h.reserve_eq requested len
  | release base len => exact h.release_eq base len

end Tenanted

/-- **Fresh and stable memory.** Whatever settings an arena starts with, and whatever is asked of it
after that, as long as memory is asked for in whole words and written to only where it has been
given: everything that has been given is apart from everything else, can be read and holds what was
left there last, and one more call finds new memory zero, fails without a trace, or changes the
bytes that it writes and no other. -/
theorem Configured.serves (hc : h.Configured) {calls : List ArenaCall}
    (hadmits : h.Admits [] calls) :
    (h.performAll calls).Serves h.maxBytes (h.givenAll calls) (ArenaCall.lastWritten calls) ∧
      ∀ call : ArenaCall, call.Allowed (h.givenAll calls) →
        (h.performAll calls).Answers h.maxBytes (h.givenAll calls) call := by
  have ht : (h.performAll calls).Tenanted h.maxBytes (h.givenAll calls)
      (ArenaCall.lastWritten calls) := hc.tenanted.performAll hadmits
  exact ⟨serves_of_tenanted ht, fun _ hallowed => ht.answers hallowed⟩

/-- An arena with chunks of a page, a new one after every second object, and a limit. -/
def paged : Arena := ((standard.withChunkSize 4096).withSplitEvery 2).withMaxBytes 10000

/-- Two objects that share a chunk and a write to both, then one that fills a chunk of its own and
one that is refused. -/
def pagedCalls : List ArenaCall :=
  [.allocate ⟨.scalarArray, 1, 0, 16⟩, .allocate ⟨.scalarArray, 1, 2, 32⟩,
    .write 0x40000000c (Bytes.ofList [1, 2, 3, 4, 5, 6, 7, 8]),
    .allocate ⟨.scalarArray, 1, 510, 4096⟩, .allocate ⟨.scalarArray, 1, 1022, 8192⟩]

/-- These calls are admitted. Three objects come of them, the last one in a chunk of its own. -/
theorem Configured.serves_paged : paged.Configured ∧ paged.Admits [] pagedCalls ∧
    paged.givenAll pagedCalls = [⟨0x400000000, 0x400000010⟩, ⟨0x400000010, 0x400000030⟩,
      ⟨0x400002000, 0x400003000⟩] ∧
    (paged.performAll pagedCalls).Serves 10000 (paged.givenAll pagedCalls)
      (ArenaCall.lastWritten pagedCalls) :=
  have hc : paged.Configured := .withMaxBytes _ (.withSplitEvery _ (.withChunkSize _ .standard))
  have hadmits : paged.Admits [] pagedCalls := by decide +kernel
  ⟨hc, hadmits, by decide +kernel, (hc.serves hadmits).1⟩

/-- An arena with chunks of a page. -/
def onePage : Arena := standard.withChunkSize 4096

/-- An object that fills a chunk, then one without any bytes. -/
def fullCalls : List ArenaCall :=
  [.allocate ⟨.scalarArray, 1, 510, 4096⟩, .allocate ⟨.scalarArray, 1, 0, 0⟩]

/-- What is given without any bytes may lie where nothing can be read. -/
theorem exists_given_unreadable : onePage.Configured ∧ onePage.Admits [] fullCalls ∧
    ∃ e ∈ onePage.givenAll fullCalls,
      (onePage.performAll fullCalls).read? e.bottom e.length = none :=
  ⟨.withChunkSize _ .standard, by decide +kernel, ⟨0x400001000, 0x400001000⟩, by decide +kernel,
    by decide +kernel⟩

end Arena

end HeapImage
