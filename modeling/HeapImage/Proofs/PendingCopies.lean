import HeapImage.Heap.Arena
import HeapImage.Proofs.CopiedReferences
import HeapImage.Proofs.FailedMappings

/-! # Copies that are under way

While objects are copied nothing is handed over, and everything that goes wrong stops the program.
Only a copy whose encoding does not fit fails before its first step. The regions are handed over
behind both passes, and then one step is left: the root array is looked up.

* `CopyStep.Pending`: steps of a copy that hand nothing over, and fail for good.
* `CopyStep.of_fails_load`, `fails_of_copyImage`: a failure to copy an image. -/

namespace HeapImage

namespace Arena

/-- Memory that is asked for is not handed over, whether it is granted or not. -/
theorem loadedRegions_allocate (h : Arena) (request : AllocationRequest) :
    (h.allocate request).2.loadedRegions = h.loadedRegions := by
  have hadd : ∀ size, (h.addChunk size).2.loadedRegions = h.loadedRegions := by
    intro size
    rw [addChunk]
    dsimp only
    split <;> rfl
  have hbump : ∀ (k : Arena) size, (k.bump size).2.loadedRegions = k.loadedRegions := by
    intro k size
    rw [bump]
    split <;> rfl
  rw [allocate]
  split
  · rfl
  · -- The heap behind the decision whether to start a new chunk.
    generalize hadded : (if (h.splitDue || !h.hasRoom request.size) = true then
      h.addChunk request.size else (.ok (), h)) = added
    have hkept : added.2.loadedRegions = h.loadedRegions := by
      rw [← hadded]
      split
      · exact hadd _
      · rfl
    obtain ⟨result, k⟩ := added
    have hkept' := (hbump k request.size).trans hkept
    cases result with
    | error e => exact hkept
    | ok u =>
      dsimp only
      split
      · rename_i hrun
        rwa [hrun] at hkept'
      · rename_i hrun
        rwa [hrun] at hkept'

/-- Writing hands nothing over. -/
theorem loadedRegions_write (h : Arena) (a : Nat) (bytes : ByteArray) :
    (h.write a bytes).loadedRegions = h.loadedRegions := by
  rw [write]
  split <;> rfl

end Arena

namespace CopyStep

variable {α β : Type} {f : CopyStep Arena α}

/-- A step of a copy that is under way: it hands nothing over, and if it fails then for good. -/
def Pending (f : CopyStep Arena α) : Prop :=
  ∀ s, (f.run s).2.heap.loadedRegions = s.heap.loadedRegions ∧
    ∀ e, (f.run s).1 = .error e → e.severity = .fatal

/-- A pending step that runs hands nothing over. -/
theorem Pending.kept {s t : CopyState Arena} {x : α} (hf : Pending f) (h : Runs f s x t) :
    t.heap.loadedRegions = s.heap.loadedRegions := by
  have hkept := (hf s).1
  rwa [show f.run s = _ from h] at hkept

/-- A pending step that fails hands nothing over, and its error is fatal. -/
theorem Pending.of_fails {s t : CopyState Arena} {e : ArchiveError} (hf : Pending f)
    (h : Fails f s e t) : e.severity = .fatal ∧ t.heap.loadedRegions = s.heap.loadedRegions := by
  obtain ⟨hkept, hfatal⟩ := hf s
  rw [show f.run s = _ from h] at hkept hfatal
  exact ⟨hfatal e rfl, hkept⟩

/-! ## Sequences -/

/-- Two pending steps are pending one after the other. -/
theorem pending_bind {g : α → CopyStep Arena β} (hf : Pending f) (hg : ∀ x, Pending (g x)) :
    Pending (f >>= g) := by
  intro s
  obtain ⟨hregions, hfatal⟩ := hf s
  rw [run_bind]
  rcases hrun : f.run s with ⟨e | x, t⟩
  · rw [hrun] at hregions hfatal
    refine ⟨hregions, ?_⟩
    rintro _ ⟨⟩
    exact hfatal e rfl
  · rw [hrun] at hregions
    obtain ⟨hregions', hfatal'⟩ := hg x t
    exact ⟨hregions'.trans hregions, hfatal'⟩

/-- A value is pending. -/
theorem pending_pure (x : α) : Pending (pure x : CopyStep Arena α) := fun _ => ⟨rfl, nofun⟩

/-- Reading the state is pending. -/
theorem pending_get : Pending (get : CopyStep Arena (CopyState Arena)) := fun _ => ⟨rfl, nofun⟩

/-- A change with a result is pending if it hands nothing over. -/
theorem pending_modifyGet {g : CopyState Arena → α × CopyState Arena}
    (h : ∀ s, (g s).2.heap.loadedRegions = s.heap.loadedRegions) :
    Pending (modifyGet g : CopyStep Arena α) :=
  fun s => ⟨h s, nofun⟩

/-- A change is pending if it hands nothing over. -/
theorem pending_modify {g : CopyState Arena → CopyState Arena}
    (h : ∀ s, (g s).heap.loadedRegions = s.heap.loadedRegions) :
    Pending (modify g : CopyStep Arena PUnit) :=
  fun s => ⟨h s, nofun⟩

/-- A fatal error is pending. -/
theorem pending_throw {e : ArchiveError} (h : e.severity = .fatal) :
    Pending (throw e : CopyStep Arena α) := by
  refine fun _ => ⟨rfl, ?_⟩
  rintro _ ⟨⟩
  exact h

/-- A result from elsewhere is pending if its errors are fatal. -/
theorem pending_ofExcept {r : Except ArchiveError α}
    (h : ∀ e, r = .error e → e.severity = .fatal) :
    Pending (MonadExcept.ofExcept r : CopyStep Arena α) := by
  cases r with
  | error e => exact pending_throw (h e rfl)
  | ok x => exact pending_pure x

/-- A decision is pending if both branches are. -/
theorem pending_ite {c : Prop} [Decidable c] {g : CopyStep Arena α} (hf : Pending f)
    (hg : Pending g) : Pending (if c then f else g) := by
  split
  · exact hf
  · exact hg

/-- **A loop** of steps that hand nothing over. -/
theorem pending_forM {xs : List β} {g : β → CopyStep Arena PUnit} (h : ∀ x, Pending (g x)) :
    Pending (xs.forM g) := by
  induction xs with
  | nil => exact pending_pure _
  | cons x xs ih => exact pending_bind (h x) fun _ => ih

/-! ## Both passes -/

/-- An allocation that fails is fatal. -/
theorem severity_ofAllocation (e : AllocationError) :
    (ArchiveError.ofAllocation e).severity = .fatal := by
  cases e <;> rfl

/-- Allocating is pending. -/
theorem pending_allocate (request : AllocationRequest) :
    Pending (allocate request : CopyStep Arena Nat) := by
  rw [allocate]
  refine pending_bind (pending_modifyGet fun s => s.heap.loadedRegions_allocate request) ?_
  intro result
  cases result with
  | ok a => exact pending_pure a
  | error e => exact pending_throw (severity_ofAllocation e)

/-- Writing is pending. -/
theorem pending_write (a : Nat) (bytes : ByteArray) :
    Pending (write a bytes : CopyStep Arena Bool) := by
  rw [write]
  refine pending_modifyGet fun s => ?_
  change (Memory.tryWrite s.heap a bytes).2.loadedRegions = _
  rw [Memory.tryWrite]
  split
  · exact Arena.loadedRegions_write ..
  · rfl

/-- A write that is counted if the heap takes it. -/
theorem pending_write_bind (a : Nat) (bytes : ByteArray) (count : LoadCounts → LoadCounts)
    {e : ArchiveError} (he : e.severity = .fatal) :
    Pending (write a bytes >>= fun done =>
      if done = true then modify fun s => { s with counts := count s.counts } else throw e :
        CopyStep Arena PUnit) := by
  refine pending_bind (pending_write a bytes) fun done => ?_
  cases done with
  | true => exact pending_modify fun _ => rfl
  | false => exact pending_throw he

/-- Moving a native pointer is pending. -/
theorem pending_rebaseNative (delta : UInt64) (a : Nat) :
    Pending (rebaseNative delta a : CopyStep Arena Unit) := by
  rw [rebaseNative]
  refine pending_bind pending_get fun s => ?_
  cases Memory.readWord? s.heap a with
  | none => exact pending_throw rfl
  | some value => exact pending_write_bind a _ (fun c => { c with natives := c.natives + 1 }) rfl

/-- Copying an object is pending. -/
theorem pending_copyObject (p : CopyPlan) (region : Region) (o : ObjectSpan) :
    Pending (copyObject p region o : CopyStep Arena Unit) := by
  rw [copyObject]
  refine pending_bind (pending_allocate _) fun dest => pending_bind pending_get fun s =>
    pending_bind (pending_write _ _) fun done => ?_
  -- The state is noted down last, on each way through the step.
  have hnoted : Pending (modify fun s : CopyState Arena => { s with
      blocks := extendBlocks s.blocks region o dest
      starts := s.starts.insert (o.offset / wordSize)
      image := Bytes.setWord s.image o.offset (UInt64.ofNat dest)
      objects := s.objects + 1 }) := pending_modify fun _ => rfl
  have hrest : Pending (if p.delta ≠ 0 then rebaseNatives p region o dest >>= fun _ => _ else _) :=
    pending_ite (pending_bind (pending_forM fun bit => pending_rebaseNative p.delta _) fun _ =>
      hnoted) hnoted
  cases done with
  | false => exact pending_bind (pending_throw (α := PUnit) rfl) fun _ => hrest
  | true => exact hrest

/-- The first pass is pending. -/
theorem pending_materialize (p : CopyPlan) : Pending (materialize p : CopyStep Arena Unit) := by
  rw [materialize]
  refine pending_forM fun region => ?_
  rw [materializeRegion]
  refine pending_bind pending_get fun s => ?_
  dsimp only
  refine pending_bind (pending_forM (pending_copyObject p region)) fun _ => ?_
  split
  · exact pending_pure _
  · exact pending_throw rfl

/-- A reference that cannot be moved is fatal. -/
theorem severity_of_rebased {p : CopyPlan} {s : CopyState Arena} {a value : Nat} {e : ArchiveError}
    (h : rebased p s a value = .error e) : e.severity = .fatal := by
  rw [rebased] at h
  split at h
  · cases h
    rfl
  · split at h
    · cases h
      rfl
    · split at h
      · cases h
      · cases h
        rfl

/-- Relocating a slot is pending. -/
theorem pending_relocateSlot (p : CopyPlan) (a : Nat) :
    Pending (relocateSlot p a : CopyStep Arena Unit) := by
  rw [relocateSlot]
  refine pending_bind pending_get fun s => ?_
  split
  · exact pending_throw rfl
  · split
    · exact pending_modify fun _ => rfl
    · refine pending_bind (pending_ofExcept fun e => severity_of_rebased) fun value => ?_
      exact pending_write_bind a _ (fun c => { c with references := c.references + 1 }) rfl

/-- The second pass is pending. -/
theorem pending_relocate (p : CopyPlan) : Pending (relocate p : CopyStep Arena Unit) := by
  rw [relocate]
  refine pending_bind pending_get fun s => pending_forM fun b => ?_
  rw [relocateBlock]
  exact pending_forM fun bit => pending_relocateSlot p _

/-- **A copy that fails** has handed nothing over, unless both passes are behind it and no object
starts at the offset of the root array. -/
theorem of_fails_load {p : CopyPlan} {s t : CopyState Arena} {e : ArchiveError}
    (h : Fails (load p) s e t) : e.severity = .fatal ∧
      (t.heap.loadedRegions = s.heap.loadedRegions ∨ ∃ s₁ s₂,
        Runs (materialize p) s ⟨⟩ s₁ ∧ Runs (relocate p) s₁ ⟨⟩ s₂ ∧
        resolve? s₂.image s₂.starts p.header.rootOffset.toNat = none ∧
        e = .load (.noObjectStart p.header.rootOffset.toNat) ∧
        t = { s₂ with
          heap := s₂.blocks.foldl (fun h b => Destination.completeLoaded h b.dest) s₂.heap }) := by
  rw [load, fails_bind] at h
  rcases h with hfails | ⟨⟨⟩, s₁, hmaterialize, h⟩
  · obtain ⟨hfatal, hkept⟩ := (pending_materialize p).of_fails hfails
    exact ⟨hfatal, .inl hkept⟩
  · rcases fails_bind.mp h with hfails | ⟨⟨⟩, s₂, hrelocate, h⟩
    · obtain ⟨hfatal, hkept⟩ := (pending_relocate p).of_fails hfails
      exact ⟨hfatal, .inl (hkept.trans ((pending_materialize p).kept hmaterialize))⟩
    · rw [complete, fails_modify_bind, fails_get_bind] at h
      dsimp only at h
      split at h
      · exact absurd h not_fails_pure
      · rename_i hnone
        obtain ⟨rfl, rfl⟩ := fails_throw.mp h
        exact ⟨rfl, .inr ⟨s₁, s₂, hmaterialize, hrelocate, hnone, rfl, rfl⟩⟩

end CopyStep

/-- A copy fails because of its encoding, or in one of its steps. -/
theorem fails_of_copyImage {a : Archive} {heap heap' : Arena} {runtime : ReferenceEncoding}
    {delta : UInt64} {e : ArchiveError}
    (hcopy : copyImage a heap runtime delta = (.error e, heap')) :
    (checkEncodings a.encoding runtime = .error e ∧ heap' = heap) ∨
      checkEncodings a.encoding runtime = .ok () ∧ ∃ t, t.heap = heap' ∧
        Fails (CopyStep.load (a.plan runtime delta))
          ⟨heap, a.image, BitMap.empty (a.image.size / wordSize), #[], 0, .zero⟩ e t := by
  rw [copyImage] at hcopy
  split at hcopy
  · rename_i hcheck
    cases hcopy
    exact .inl ⟨hcheck, rfl⟩
  · rename_i hcheck
    dsimp only at hcopy
    split at hcopy
    · rename_i t hfails
      cases hcopy
      exact .inr ⟨hcheck, t, rfl, hfails⟩
    · cases hcopy

/-- An image that cannot be copied can be done without if its encoding is the reason. Everything
else stops the program. -/
theorem of_copyImage_error {a : Archive} {heap heap' : Arena} {runtime : ReferenceEncoding}
    {delta : UInt64} {e : ArchiveError}
    (hcopy : copyImage a heap runtime delta = (.error e, heap')) :
    (heap' = heap ∧ e.isRecoverable = true) ∨ e.severity = .fatal := by
  rcases fails_of_copyImage hcopy with ⟨hcheck, rfl⟩ | ⟨-, t, -, hfails⟩
  · exact .inl ⟨rfl, isRecoverable_of_checkEncodings hcheck⟩
  · exact .inr (CopyStep.of_fails_load hfails).1

end HeapImage
