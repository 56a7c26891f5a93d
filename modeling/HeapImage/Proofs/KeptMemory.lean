import HeapImage.Proofs.CopiedReferences
import HeapImage.Proofs.CopyFrames

/-! # Memory that a copy keeps

A copy writes into memory that it has been given, and nowhere else, whatever image it is made from
and wherever it stops: the bytes of an object, its native pointers and the reference slots of a
block all lie in memory that had not been allocated before. So what an arena had allocated before
the copy is still there afterwards, byte for byte.

* `Arena.Keeps`: an arena that has kept the memory of another one.
* `CopyStep.Stays`: steps that keep an invariant, also where they fail.
* `CopyState.Spares`: a copy that has kept memory, and whose blocks are elsewhere.
* `CopyStep.stays_load`: both passes keep memory. -/

namespace HeapImage

/-! ## Arenas -/

namespace Arena

variable {h k l : Arena} {a : Nat}

/-- All memory that an arena has allocated is still allocated in another one, with the same
bytes. -/
structure Keeps (h k : Arena) : Prop where
  wellFormed : k.WellFormed
  holds : ∀ a n, h.Holds a n → k.Holds a n
  byte : ∀ a, h.Holds a 1 → k.byte a = h.byte a

/-- No byte of an extent has been allocated. -/
def Spares (h : Arena) (e : Extent) : Prop := ∀ x, e.bottom ≤ x → x < e.top → ¬ h.Holds x 1

/-- An arena keeps its own memory. -/
theorem Keeps.refl (hw : h.WellFormed) : h.Keeps h := ⟨hw, fun _ _ => id, fun _ _ => rfl⟩

/-- Memory that is kept twice is kept. -/
theorem Keeps.trans (h₁ : h.Keeps k) (h₂ : k.Keeps l) : h.Keeps l where
  wellFormed := h₂.wellFormed
  holds a n hh := h₂.holds a n (h₁.holds a n hh)
  byte a hh := (h₂.byte a (h₁.holds a 1 hh)).trans (h₁.byte a hh)

/-- Only the chunks and the place of the next one matter. -/
theorem Keeps.congr (hk : h.Keeps k) (hchunks : l.chunks = k.chunks)
    (hnext : l.nextBase = k.nextBase) : h.Keeps l where
  wellFormed := hk.wellFormed.congr hchunks hnext
  holds a n hh := by
    rw [Holds, hchunks]
    exact hk.holds a n hh
  byte a hh := by
    rw [Arena.byte, chunkAt?, hchunks]
    exact hk.byte a hh

/-- An arena with the same chunks keeps all memory. -/
theorem keeps_of_chunks (hw : k.WellFormed) (hchunks : k.chunks = h.chunks) : h.Keeps k where
  wellFormed := hw
  holds a n hh := by
    rw [Holds, hchunks]
    exact hh
  byte a _ := by
    rw [Arena.byte, Arena.byte, chunkAt?, chunkAt?, hchunks]

/-- **An allocation** keeps all memory, whether it succeeds or not. -/
theorem keeps_allocate (hw : h.WellFormed) (request : AllocationRequest) :
    h.Keeps (h.allocate request).2 := by
  cases hresult : (h.allocate request).1 with
  | ok a =>
    have hallocates := of_allocate hw (Prod.ext hresult rfl)
    exact ⟨hallocates.wellFormed, hallocates.keeps, fun x _ => hallocates.byte x⟩
  | error e => exact keeps_of_chunks (hw.allocate request) (of_allocate_error hresult).1

/-- **A write** outside the memory of an arena keeps that memory. -/
theorem Keeps.tryWrite (hk : h.Keeps k) {bytes : ByteArray}
    (hspares : h.Spares ⟨a, a + bytes.size⟩) : h.Keeps (Memory.tryWrite k a bytes).2 := by
  rw [Memory.tryWrite]
  split
  · rename_i hcan
    refine ⟨hk.wellFormed.write a bytes, ?_, ?_⟩
    · exact fun b n hh => (hk.holds b n hh).write hk.wellFormed a bytes
    · intro x hh
      refine (byte_write hk.wellFormed hcan x).trans ?_
      rw [if_neg fun hx => hspares x hx.1 hx.2 hh]
      exact hk.byte x hh
  · exact hk

/-- Memory that is given has not been allocated before, be it long ago or just now. -/
theorem Keeps.spares_of_allocate (hk : h.Keeps k) {request : AllocationRequest} {l : Arena}
    (hok : k.allocate request = (.ok a, l)) : h.Spares ⟨a, a + request.size⟩ := by
  intro x hlow hhigh hh
  dsimp only at hlow hhigh
  have hfresh := (of_allocate hk.wellFormed hok).fresh x 1 (hk.holds x 1 hh)
  omega

/-- A part of what is spared is spared. -/
theorem Spares.part {e e' : Extent} (hs : h.Spares e) (hlow : e.bottom ≤ e'.bottom)
    (hhigh : e'.top ≤ e.top) : h.Spares e' :=
  fun x hx hx' => hs x (Nat.le_trans hlow hx) (Nat.lt_of_lt_of_le hx' hhigh)

end Arena

/-! ## Steps that keep an invariant -/

/-- A copy under way that has kept the memory of an arena, and whose blocks are elsewhere. -/
structure CopyState.Spares (s : CopyState Arena) (h : Arena) (p : CopyPlan) : Prop where
  keeps : h.Keeps s.heap
  inRegion : ∀ b ∈ s.blocks.toList, b.InRegion p
  spares : ∀ b ∈ s.blocks.toList, h.Spares b.dest

namespace CopyStep

section

variable {α β : Type} {I : CopyState Arena → Prop} {f : CopyStep Arena α}

/-- A step that keeps an invariant, whether it succeeds or not. -/
def Stays (I : CopyState Arena → Prop) (f : CopyStep Arena α) : Prop := ∀ s, I s → I (after f s)

/-- Two steps that keep an invariant keep it one after the other. -/
theorem stays_bind {g : α → CopyStep Arena β} (hf : Stays I f) (hg : ∀ x, Stays I (g x)) :
    Stays I (f >>= g) := by
  intro s hs
  have hafter := hf s hs
  rw [after] at hafter
  rw [after_bind]
  rcases hrun : f.run s with ⟨e | x, t⟩ <;> rw [hrun] at hafter
  · exact hafter
  · exact hg x t hafter

/-- A value keeps every invariant. -/
theorem stays_pure (x : α) : Stays I (pure x : CopyStep Arena α) := fun _ => id

/-- An error keeps every invariant. -/
theorem stays_throw (e : ArchiveError) : Stays I (throw e : CopyStep Arena α) := fun _ => id

/-- A result from elsewhere keeps every invariant. -/
theorem stays_ofExcept (r : Except ArchiveError α) :
    Stays I (MonadExcept.ofExcept r : CopyStep Arena α) := by
  cases r with
  | error e => exact stays_throw e
  | ok x => exact stays_pure x

/-- A change keeps an invariant if it does so in every state. -/
theorem stays_modify {g : CopyState Arena → CopyState Arena} (h : ∀ s, I s → I (g s)) :
    Stays I (modify g : CopyStep Arena PUnit) := h

/-- A look at the state. -/
theorem stays_get_bind {g : CopyState Arena → CopyStep Arena α} (h : ∀ s, I s → Stays I (g s)) :
    Stays I (get >>= g) := fun s hs => h s hs s hs

/-- A decision keeps an invariant if both branches do. -/
theorem stays_ite {c : Prop} [Decidable c] {g : CopyStep Arena α} (hf : Stays I f)
    (hg : Stays I g) : Stays I (if c then f else g) := by
  split
  · exact hf
  · exact hg

/-- **A loop** keeps what each of its steps keeps. -/
theorem stays_forM {xs : List β} {g : β → CopyStep Arena PUnit} (h : ∀ x ∈ xs, Stays I (g x)) :
    Stays I (xs.forM g) := by
  induction xs with
  | nil => exact stays_pure _
  | cons x xs ih =>
    obtain ⟨hx, hxs⟩ := List.forall_mem_cons.mp h
    exact stays_bind hx fun _ => ih hxs

end

variable {h : Arena} {p : CopyPlan} {n : Nat}

/-! ## Memory -/

/-- Memory that is given has not been allocated before. -/
theorem stays_allocate_bind {α : Type} {request : AllocationRequest} {g : Nat → CopyStep Arena α}
    (hg : ∀ dest, h.Spares ⟨dest, dest + request.size⟩ → Stays (·.Spares h p) (g dest)) :
    Stays (·.Spares h p) (allocate request >>= g) := by
  intro s hs
  have hkept := hs.keeps.trans (Arena.keeps_allocate hs.keeps.wellFormed request)
  rw [after_bind, run_allocate]
  cases hresult : s.heap.allocate request with
  | mk result heap =>
    rw [hresult] at hkept
    rw [show Destination.allocate s.heap request = _ from hresult]
    cases result with
    | error e => exact ⟨hkept, hs.inRegion, hs.spares⟩
    | ok dest =>
      exact hg dest (hs.keeps.spares_of_allocate hresult) _ ⟨hkept, hs.inRegion, hs.spares⟩

/-- A write to spared memory spares what was there. -/
theorem stays_write {a : Nat} {bytes : ByteArray} (hspares : h.Spares ⟨a, a + bytes.size⟩) :
    Stays (·.Spares h p) (write a bytes) :=
  fun _ hs => ⟨hs.keeps.tryWrite hspares, hs.inRegion, hs.spares⟩

/-- Counting writes nothing. -/
theorem stays_counts (count : LoadCounts → LoadCounts) :
    Stays (·.Spares h p) (modify fun s => { s with counts := count s.counts }) :=
  stays_modify fun _ hs => ⟨hs.keeps, hs.inRegion, hs.spares⟩

/-- A write that is counted if the heap takes it. -/
theorem stays_writeValue_bind {a len value : Nat} (hspares : h.Spares ⟨a, a + len⟩)
    (count : LoadCounts → LoadCounts) (e : ArchiveError) :
    Stays (·.Spares h p) (writeValue a len value >>= fun done =>
      if done = true then modify fun s => { s with counts := count s.counts } else throw e) := by
  rw [← Arena.size_numeral len value] at hspares
  exact stays_bind (stays_write hspares) fun _ => stays_ite (stays_counts count) (stays_throw e)

/-! ## The first pass -/

/-- Moving a native pointer in spared memory spares what was there. -/
theorem stays_rebaseNative {delta : UInt64} {a : Nat} (hspares : h.Spares ⟨a, a + wordSize⟩) :
    Stays (·.Spares h p) (rebaseNative delta a) := by
  rw [rebaseNative]
  refine stays_get_bind fun s _ => ?_
  cases Memory.readWord? s.heap a with
  | none => exact stays_throw _
  | some value =>
    exact stays_writeValue_bind hspares (fun c => { c with natives := c.natives + 1 }) _

/-- **An object** and its native pointers are written to memory of its own. -/
theorem stays_copyObject {region : Region} {o : ObjectSpan} (ho : o.InRegion p region n) :
    Stays (·.Spares h p) (copyObject p region o) := by
  rw [copyObject]
  refine stays_allocate_bind fun dest hdest => stays_get_bind fun s _ => ?_
  have hbytes : h.Spares ⟨dest, dest + (s.image.extract o.offset o.stop).size⟩ := by
    refine hdest.part (Nat.le_refl _) ?_
    have hstop : o.stop = o.offset + o.size := rfl
    rw [ByteArray.size_extract]
    change dest + _ ≤ dest + o.size
    omega
  have hnatives : Stays (·.Spares h p) (rebaseNatives p region o dest) := by
    refine stays_forM fun bit hbit => stays_rebaseNative ?_
    obtain ⟨hlow, hin⟩ := ObjectSpan.word_le_of_mem_ones hbit
    refine hdest.part (Nat.le_add_right ..) ?_
    rw [Nat.add_assoc]
    exact Nat.add_le_add_left hin _
  -- The block that the object becomes part of lies in memory of the copy as well.
  have hnoted : Stays (·.Spares h p) (modify fun s => { s with
      blocks := extendBlocks s.blocks region o dest
      starts := s.starts.insert (o.offset / wordSize)
      image := Bytes.setWord s.image o.offset (UInt64.ofNat dest)
      objects := s.objects + 1 }) := by
    refine stays_modify fun s hs => ⟨hs.keeps, inRegion_extendBlocks hs.inRegion ho dest, ?_⟩
    intro b hb
    rcases of_mem_extendBlocks hb with hb | rfl | ⟨last, hlast, htop, rfl⟩
    · exact hs.spares b hb
    · exact hdest
    · intro x hlow hhigh
      by_cases hx : x < dest
      · exact hs.spares last hlast x hlow (htop ▸ hx)
      · exact hdest x (Nat.not_lt.mp hx) hhigh
  have hrest : Stays (·.Spares h p)
      (if p.delta ≠ 0 then rebaseNatives p region o dest >>= fun _ => _ else _) :=
    stays_ite (stays_bind hnatives fun _ => hnoted) hnoted
  refine stays_bind (stays_write hbytes) fun done => ?_
  cases done with
  | false => exact stays_bind (stays_throw (α := PUnit) _) fun _ => hrest
  | true => exact hrest

/-- **The first pass** keeps memory. -/
theorem stays_materialize (hp : p.Inside n) : Stays (·.Spares h p) (materialize p) := by
  refine stays_forM fun region _ => ?_
  rw [materializeRegion]
  refine stays_get_bind fun s _ => ?_
  dsimp only
  refine stays_bind (stays_forM fun o ho => stays_copyObject (hp.inRegion s.image region o ho))
    fun _ => ?_
  split
  · exact stays_pure _
  · exact stays_throw _

/-! ## The second pass -/

/-- Relocating a slot in spared memory spares what was there. -/
theorem stays_relocateSlot {a : Nat} (hspares : h.Spares ⟨a, a + p.slotSize⟩) :
    Stays (·.Spares h p) (relocateSlot p a) := by
  rw [relocateSlot]
  refine stays_get_bind fun s _ => ?_
  split
  · exact stays_throw _
  · refine stays_ite (stays_counts fun c => { c with nulls := c.nulls + 1 }) ?_
    refine stays_bind (stays_ofExcept _) fun value => ?_
    exact stays_writeValue_bind hspares (fun c => { c with references := c.references + 1 }) _

/-- **The second pass** writes to slots of blocks. -/
theorem stays_relocate : Stays (·.Spares h p) (relocate p) := by
  rw [relocate]
  refine stays_get_bind fun s hs => stays_forM fun b hb => ?_
  rw [relocateBlock]
  refine stays_forM fun bit hbit => stays_relocateSlot ?_
  have hin := hs.inRegion b hb
  obtain ⟨hfirst, hlast⟩ := hin.slot_le_of_mem_ones hbit
  have htop : b.streamTop = b.streamOffset + (b.dest.top - b.dest.bottom) := rfl
  have hle := hin.dest_le
  refine (hs.spares b hb).part (Nat.le_add_right ..) ?_
  dsimp only
  omega

/-- **Both passes** keep memory. -/
theorem stays_load (hp : p.Inside n) : Stays (·.Spares h p) (load p) := by
  rw [load]
  refine stays_bind (stays_materialize hp) fun _ => stays_bind stays_relocate fun _ => ?_
  refine stays_bind (stays_modify fun s hs => ?_) fun _ => stays_get_bind fun s _ => ?_
  · obtain ⟨hchunks, hnext⟩ := chunks_completeLoaded s.blocks s.heap
    exact ⟨hs.keeps.congr hchunks hnext, hs.inRegion, hs.spares⟩
  · dsimp only
    split
    · exact stays_pure _
    · exact stays_throw _

end CopyStep

/-! ## Archives -/

/-- **Copying an image** keeps memory, whether it succeeds or not. -/
theorem Archive.Sound.keeps_copyImage {a : Archive} (ha : a.Sound) {h : Arena} (hw : h.WellFormed)
    (runtime : ReferenceEncoding) (delta : UInt64) :
    h.Keeps (copyImage a h runtime delta).2 := by
  rw [copyImage]
  cases hcheck : checkEncodings a.encoding runtime with
  | error e => exact .refl hw
  | ok u =>
    dsimp only
    have hinside : (a.plan runtime delta).Inside a.image.size :=
      ⟨(checkEncodings_eq_ok hcheck).1, ha.bounds⟩
    have hspares := CopyStep.stays_load (h := h) hinside
      ⟨h, a.image, BitMap.empty (a.image.size / wordSize), #[], 0, .zero⟩
      ⟨.refl hw, by simp, by simp⟩
    have hkeeps := hspares.keeps
    rw [CopyStep.after, plan] at hkeeps
    split <;> rename_i hrun <;> rw [hrun] at hkeeps <;> exact hkeeps

end HeapImage
