import HeapImage.Load.Copy
import HeapImage.Proofs.ArenaAllocation
import HeapImage.Proofs.LoadCounts
import HeapImage.Proofs.Spans

/-! # Steps of a copy

What each step of a copy into an arena does when it succeeds: which tests it has passed and which
state it leaves.

* `CopyStep.of_runs_copyObject`, `of_runs_rebaseNative`: the first pass.
* `Block.Meets`, `CopyStep.extendBlocks_cases`: what becomes of the blocks.
* `CopyStep.of_runs_relocateSlot`: the second pass.
* `CopyStep.of_runs_load`: both passes and what follows them. -/

namespace HeapImage

/-- The first block ends where the second one starts, in the heap and in the image, and both come
from one region. -/
def Block.Meets (b b' : Block) : Prop :=
  b.region = b'.region ∧ b.dest.top = b'.dest.bottom ∧ b.streamTop = b'.streamOffset

namespace CopyStep

variable {s t : CopyState Arena} {p : CopyPlan} {u : Unit}

/-! ## Memory -/

/-- An allocation that runs was granted by the arena. -/
theorem of_runs_allocate {request : AllocationRequest} {a : Nat}
    (h : Runs (allocate request) s a t) :
    ∃ heap, s.heap.allocate request = (.ok a, heap) ∧ t = { s with heap := heap } := by
  rw [allocate, runs_modifyGet_bind] at h
  cases hresult : Destination.allocate s.heap request with
  | mk result heap =>
    rw [hresult] at h
    cases result with
    | error e => exact absurd h not_runs_throw
    | ok a' =>
      obtain ⟨rfl, rfl⟩ := runs_pure.mp h
      exact ⟨heap, hresult, rfl⟩

/-- A write that runs was taken by the arena. -/
theorem of_runs_write {a : Nat} {bytes : ByteArray} (h : Runs (write a bytes) s true t) :
    s.heap.canWrite a bytes.size = true ∧ t = { s with heap := s.heap.write a bytes } := by
  rw [write, runs_modifyGet, Memory.tryWrite] at h
  cases hcan : Memory.canWrite s.heap a bytes.size with
  | false =>
    rw [hcan] at h
    cases h.1
  | true =>
    rw [hcan] at h
    exact ⟨hcan, h.2⟩

/-- A step that goes on behind a write only if the heap takes it. -/
theorem of_runs_write_bind {a : Nat} {bytes : ByteArray} {e : ArchiveError}
    {k : CopyStep Arena Unit}
    (h : Runs (write a bytes >>= fun done => if done = true then k else throw e) s u t) :
    s.heap.canWrite a bytes.size = true ∧
      Runs k { s with heap := s.heap.write a bytes } u t := by
  obtain ⟨done, s', hwrite, h⟩ := runs_bind.mp h
  rw [runs_ite] at h
  rcases h with ⟨rfl, hk⟩ | ⟨-, hthrow⟩
  · obtain ⟨hcan, rfl⟩ := of_runs_write hwrite
    exact ⟨hcan, hk⟩
  · exact absurd hthrow not_runs_throw

/-! ## The first pass -/

/-- A native pointer is replaced by itself plus the distance. -/
theorem of_runs_rebaseNative {delta : UInt64} {a : Nat} (hw : s.heap.WellFormed)
    (h : Runs (rebaseNative delta a) s u t) :
    s.heap.canWrite a wordSize = true ∧ t = { s with
      heap := s.heap.write a (Arena.numeral wordSize
        (UInt64.ofNat (Bytes.number s.heap.byte a wordSize) + delta).toNat)
      counts := s.counts.addNatives 1 } := by
  rw [rebaseNative, runs_get_bind] at h
  split at h
  · exact absurd h not_runs_throw
  · rename_i value hvalue
    obtain ⟨n, hn, rfl⟩ := Option.map_eq_some_iff.mp hvalue
    obtain rfl := Arena.readValue?_eq hw hn
    obtain ⟨hcan, h⟩ := of_runs_write_bind h
    rw [runs_modify] at h
    have hsize : (Bytes.ofList (Bytes.ofNat wordSize
        (UInt64.ofNat (Bytes.number s.heap.byte a wordSize) + delta).toNat)).size = wordSize :=
      Arena.size_numeral ..
    rw [hsize] at hcan
    exact ⟨hcan, h⟩

/-- What copying one object asks of the heap. -/
def requestFor (o : ObjectSpan) : AllocationRequest :=
  ⟨o.type.kind.shape, o.header.typeIndex, o.header.length, o.size⟩

/-- The bytes of an object are written to new memory and its native pointers are rebased there; its
new address goes to where its mark word was in the image. -/
theorem of_runs_copyObject {region : Region} {o : ObjectSpan}
    (h : Runs (copyObject p region o) s u t) :
    ∃ dest heap s₁, s.heap.allocate (requestFor o) = (.ok dest, heap) ∧
      heap.canWrite dest (s.image.extract o.offset o.stop).size = true ∧
      ((p.delta = 0 ∧ s₁ = { s with heap := heap.write dest (s.image.extract o.offset o.stop) }) ∨
        p.delta ≠ 0 ∧ Runs (rebaseNatives p region o dest)
          { s with heap := heap.write dest (s.image.extract o.offset o.stop) } ⟨⟩ s₁) ∧
      t = { s₁ with
        blocks := extendBlocks s₁.blocks region o dest
        starts := s₁.starts.insert (o.offset / wordSize)
        image := Bytes.setWord s₁.image o.offset (UInt64.ofNat dest)
        objects := s₁.objects + 1 } := by
  rw [copyObject, runs_bind] at h
  obtain ⟨dest, s', hallocate, h⟩ := h
  obtain ⟨heap, hheap, rfl⟩ := of_runs_allocate hallocate
  rw [runs_get_bind, runs_bind] at h
  obtain ⟨done, s'', hwrite, h⟩ := h
  rw [runs_guard] at h
  obtain ⟨hdone, h⟩ := h
  rw [Bool.not_eq_true', Bool.not_eq_false] at hdone
  subst hdone
  obtain ⟨hcan, rfl⟩ := of_runs_write hwrite
  rw [runs_ite] at h
  refine ⟨dest, heap, ?_⟩
  rcases h with ⟨hdelta, h⟩ | ⟨hdelta, h⟩
  · obtain ⟨⟨⟩, s₁, hrebase, h⟩ := runs_bind.mp h
    rw [runs_modify] at h
    exact ⟨s₁, hheap, hcan, .inr ⟨hdelta, hrebase⟩, h⟩
  · rw [runs_modify] at h
    exact ⟨_, hheap, hcan, .inl ⟨Decidable.not_not.mp hdelta, rfl⟩, h⟩

/-- The objects of a region are copied one after the other. -/
theorem of_runs_materializeRegion {region : Region}
    (hrange : (p.header.range region).bottom ≤ (p.header.range region).top)
    (h : Runs (materializeRegion p region) s u t) :
    ∃ xs, ObjectSpan.Row s.image p.types p.slotSize (p.header.range region).bottom xs
        (p.header.range region).top ∧
      Runs (xs.forM (copyObject p region)) s ⟨⟩ t := by
  rw [materializeRegion, runs_get_bind] at h
  cases hscan : ObjectSpan.scan s.image p.types p.slotSize (p.header.range region).bottom
      (p.header.range region).top with
  | mk xs fault =>
    rw [hscan] at h
    obtain ⟨⟨⟩, s', hcopy, h⟩ := runs_bind.mp h
    cases fault with
    | some fault => exact absurd h not_runs_throw
    | none =>
      obtain ⟨-, rfl⟩ := runs_pure.mp h
      exact ⟨xs, (ObjectSpan.scan_eq hrange).mp hscan, hcopy⟩

/-! ## Blocks -/

/-- **One more object** extends the last block if the two meet, and is a block of its own if they do
not. -/
theorem extendBlocks_cases (blocks : Array Block) (region : Region) (o : ObjectSpan) (dest : Nat) :
    (∃ front last, blocks.toList = front ++ [last] ∧
      last.Meets ⟨⟨dest, dest + o.size⟩, region, o.offset⟩ ∧
      (extendBlocks blocks region o dest).toList =
        front ++ [{ last with dest := ⟨last.dest.bottom, dest + o.size⟩ }]) ∨
    (∀ last ∈ blocks.toList.getLast?, ¬ last.Meets ⟨⟨dest, dest + o.size⟩, region, o.offset⟩) ∧
      (extendBlocks blocks region o dest).toList =
        blocks.toList ++ [⟨⟨dest, dest + o.size⟩, region, o.offset⟩] := by
  rw [extendBlocks, Array.getLast?_toList]
  cases hback : blocks.back? with
  | none => exact .inr ⟨nofun, Array.toList_push⟩
  | some last =>
    dsimp only
    split
    · rename_i hmeets
      rw [← Array.getLast?_toList] at hback
      obtain ⟨front, hfront⟩ := List.getLast?_eq_some_iff.mp hback
      refine .inl ⟨front, last, hfront, hmeets, ?_⟩
      rw [Array.toList_push, Array.toList_pop, hfront, List.dropLast_concat]
    · rename_i hapart
      refine .inr ⟨?_, Array.toList_push⟩
      rintro _ ⟨⟩
      exact hapart

/-! ## The second pass -/

/-- Null stays null, and any other reference is replaced by one to the new address. -/
theorem of_runs_relocateSlot {a : Nat} (hw : s.heap.WellFormed)
    (h : Runs (relocateSlot p a) s u t) :
    (Bytes.number s.heap.byte a p.slotSize = 0 ∧ t = { s with
      counts := s.counts.addSlot (Bytes.number s.heap.byte a p.slotSize) }) ∨
      (Bytes.number s.heap.byte a p.slotSize ≠ 0 ∧ ∃ value,
        rebased p s a (Bytes.number s.heap.byte a p.slotSize) = .ok value ∧
        s.heap.canWrite a p.slotSize = true ∧ t = { s with
          heap := s.heap.write a (Arena.numeral p.slotSize value)
          counts := s.counts.addSlot (Bytes.number s.heap.byte a p.slotSize) }) := by
  rw [relocateSlot, runs_get_bind] at h
  split at h
  · exact absurd h not_runs_throw
  · rename_i old hold
    obtain rfl := Arena.readValue?_eq hw hold
    rw [runs_ite] at h
    rcases h with ⟨hzero, h⟩ | ⟨hne, h⟩
    · rw [runs_modify] at h
      -- Null is counted and left alone.
      rw [LoadCounts.addSlot, if_pos hzero]
      exact .inl ⟨hzero, h⟩
    · rw [runs_ofExcept_bind] at h
      obtain ⟨value, hvalue, h⟩ := h
      obtain ⟨hcan, h⟩ := of_runs_write_bind h
      rw [runs_modify] at h
      have hsize : (Bytes.ofList (Bytes.ofNat p.slotSize value)).size = p.slotSize :=
        Arena.size_numeral ..
      rw [hsize] at hcan
      rw [LoadCounts.addSlot, if_neg hne]
      exact .inr ⟨hne, value, hvalue, hcan, h⟩

/-- Handing blocks over does not touch the memory of an arena. -/
theorem chunks_completeLoaded (blocks : Array Block) (h : Arena) :
    (blocks.foldl (fun h b => Destination.completeLoaded h b.dest) h).chunks = h.chunks ∧
      (blocks.foldl (fun h b => Destination.completeLoaded h b.dest) h).nextBase = h.nextBase := by
  rw [← Array.foldl_toList]
  induction blocks.toList generalizing h with
  | nil => exact ⟨rfl, rfl⟩
  | cons b bs ih => exact ih _

/-- Both passes; then the root array is looked up. -/
theorem of_runs_load {root : Nat} (h : Runs (load p) s root t) :
    ∃ s₁ s₂, Runs (materialize p) s ⟨⟩ s₁ ∧ Runs (relocate p) s₁ ⟨⟩ s₂ ∧
      t = { s₂ with
        heap := s₂.blocks.foldl (fun h b => Destination.completeLoaded h b.dest) s₂.heap } ∧
      resolve? s₂.image s₂.starts p.header.rootOffset.toNat = some root := by
  rw [load, runs_bind] at h
  obtain ⟨⟨⟩, s₁, hmaterialize, h⟩ := h
  obtain ⟨⟨⟩, s₂, hrelocate, h⟩ := runs_bind.mp h
  obtain ⟨⟨⟩, s₃, hcomplete, h⟩ := runs_bind.mp h
  rw [complete, runs_modify] at hcomplete
  subst hcomplete
  rw [runs_get_bind] at h
  dsimp only at h
  split at h
  · rename_i root' hroot
    obtain ⟨rfl, rfl⟩ := runs_pure.mp h
    exact ⟨s₁, s₂, hmaterialize, hrelocate, rfl, hroot⟩
  · exact absurd h not_runs_throw

end CopyStep

end HeapImage
