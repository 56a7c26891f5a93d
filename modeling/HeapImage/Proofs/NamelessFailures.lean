import HeapImage.Archive.Basic
import HeapImage.Proofs.ComparedSteps
import HeapImage.Proofs.RenumberedGraphs

/-! # Failures that name no object

Behind linking, a dump knows its objects by their places only. Its decisions do not name an object
of the graph when they fail, so that a failure stays the same under other numbers.

* `Nameless`: a decision whose failures name no object, with one rule for each way to decide.
* `DumpSession.nameless_plan`, …, `Archive.nameless_ofSession`: the decisions of a dump.
* `DumpSession.alike_relocateObject`: relocation of an object. -/

namespace HeapImage

variable {α β ε : Type}

/-- If the decision fails, the failure names no object. -/
def Nameless (r : Except ArchiveError α) : Prop := ∀ f, r.mapError (.rename f) = r

/-! ## Decisions in general -/

/-- A result names no object. -/
theorem nameless_ok {a : α} : Nameless (.ok a) := fun _ => rfl

/-- An error that does not change with the numbers names no object. -/
theorem nameless_error {e : ArchiveError} (he : ∀ f, e.rename f = e) :
    Nameless (.error e : Except ArchiveError α) :=
  fun f => congrArg Except.error (he f)

/-- Failures of another kind are wrapped in an error without a name. -/
theorem nameless_mapError {k : ε → ArchiveError} (hk : ∀ e f, (k e).rename f = k e)
    (r : Except ε α) : Nameless (r.mapError k) := by
  cases r with
  | error e => exact nameless_error (hk e)
  | ok a => exact nameless_ok

/-- Two computations that name no object name none one after the other. -/
theorem nameless_bind {r : Except ArchiveError α} {k : α → Except ArchiveError β}
    (hr : Nameless r) (hk : ∀ a, Nameless (k a)) : Nameless (r >>= k) := by
  intro f
  rw [Except.mapError_bind, hr f]
  exact congrArg _ (funext fun a => hk a f)

/-- A guard with a nameless error names no object. -/
theorem nameless_guard {c : Prop} [Decidable c] {e : ArchiveError} {k : β → Except ArchiveError α}
    {r : Except ArchiveError α} (he : ∀ f, e.rename f = e) (hr : Nameless r) :
    Nameless (if c then throw e >>= k else r) := by
  split
  · exact nameless_error he
  · exact hr

/-- A loop names no object if its body does not. -/
theorem nameless_forM {xs : List β} {k : β → Except ArchiveError PUnit}
    (hk : ∀ x, Nameless (k x)) : Nameless (xs.forM k) := by
  induction xs with
  | nil => exact nameless_ok
  | cons x xs ih => exact nameless_bind (hk x) fun _ => ih

/-! ## Decisions of a dump -/

/-- Looking up a type names no object. -/
theorem TypeRegistry.nameless_require (r : TypeRegistry) (i : TypeIndex) :
    Nameless (r.require i) := by
  rw [require]
  split
  · exact nameless_ok
  · exact nameless_error fun _ => rfl

/-- Checking an encoding names no object. -/
theorem ReferenceEncoding.nameless_check (e : ReferenceEncoding) : Nameless e.check := by
  rw [check]
  split
  · exact nameless_ok
  · exact nameless_error fun _ => rfl

/-- Storing an address names no object. -/
theorem ReferenceEncoding.nameless_require (e : ReferenceEncoding) (a : Nat) :
    Nameless (e.require a) := by
  rw [require]
  split
  · exact nameless_ok
  · exact nameless_error fun _ => rfl

/-- Checking the options names no object. -/
theorem DumpOptions.nameless_check (o : DumpOptions) : Nameless o.check := by
  rw [check]
  refine nameless_guard (fun _ => rfl) (nameless_guard (fun _ => rfl) ?_)
  exact nameless_guard (fun _ => rfl) (nameless_guard (fun _ => rfl) o.encoding.nameless_check)

/-- Comparing bits names no object. -/
theorem nameless_crossCheck (derived recorded : BitMap) (first : Nat) (region : Region) :
    Nameless (crossCheck derived recorded first region) := by
  rw [crossCheck]
  split
  · exact nameless_error fun _ => rfl
  · split
    · exact nameless_error fun _ => rfl
    · exact nameless_ok

/-- Deriving maps names no object. -/
theorem RegionMaps.nameless_derive (b : ByteArray) (r : TypeRegistry) (slot : Nat)
    (native : Extent) : Nameless (derive b r slot native) := by
  rw [derive]
  refine nameless_guard (fun _ => rfl) ?_
  split
  refine nameless_bind (nameless_mapError (fun _ _ => rfl) _) fun maps => ?_
  split
  · rename_i fault _
    obtain ⟨offset, _ | _ | _ | _⟩ := fault
    all_goals exact nameless_error fun _ => rfl
  · exact nameless_ok

/-- Checking for room names no object. -/
theorem StagingBuffer.nameless_checkRoom (b : StagingBuffer) (size : Nat) :
    Nameless (b.checkRoom size) := by
  rw [checkRoom]
  split
  · exact nameless_error fun _ => rfl
  · exact nameless_ok

/-- Staging the root array looks at the number of its elements only. -/
theorem StagingBuffer.nameless_prepareRoots (b : StagingBuffer) (roots : List ObjectId) :
    Nameless (b.prepareRoots roots) := by
  rw [prepareRoots]
  refine nameless_guard (fun _ => rfl) (nameless_guard (fun _ => rfl) ?_)
  refine nameless_guard (fun _ => rfl) (nameless_bind (b.nameless_checkRoom _) fun _ => ?_)
  exact nameless_ok

namespace DumpSession

variable {s : DumpSession} {requested : RequestedRegions}

/-- Checking for boundaries names no object. -/
theorem nameless_checkBoundary (alignment offset size : Nat) :
    Nameless (checkBoundary alignment offset size) := by
  rw [checkBoundary]
  split
  · exact nameless_error fun _ => rfl
  · exact nameless_ok

/-- Planning names no object. -/
theorem nameless_plan (s : DumpSession) : Nameless s.plan := by
  rw [plan]
  refine nameless_guard (fun _ => rfl) (nameless_guard (fun _ => rfl) ?_)
  exact nameless_guard (fun _ => rfl) nameless_ok

/-- Checking addresses names no object. -/
theorem nameless_checkAddresses (s : DumpSession) (requested : RequestedRegions) :
    Nameless (s.checkAddresses requested) :=
  nameless_forM fun _ =>
    nameless_bind (s.options.encoding.nameless_require _) fun _ => nameless_ok

/-- Building the maps names no object. -/
theorem nameless_maps (s : DumpSession) : Nameless s.maps := by
  have hmaps (recorded : BitMap) (region : Region) : Nameless (s.regionMaps recorded region) :=
    nameless_bind (RegionMaps.nameless_derive _ _ _ _) fun maps =>
      nameless_bind (nameless_crossCheck _ _ _ _) fun _ => nameless_ok
  rw [maps]
  refine nameless_guard (fun _ => rfl) ?_
  split
  · exact nameless_error fun _ => rfl
  · exact nameless_bind (hmaps _ _) fun _ => nameless_bind (hmaps _ _) fun _ => nameless_ok

/-! ## Relocation -/

/-- What an identity stands for is named by its place. -/
theorem nameless_encodeIdentity (offset identity : Nat) :
    Nameless (s.encodeIdentity requested offset identity) := by
  rw [encodeIdentity]
  split
  · exact nameless_error fun _ => rfl
  · split
    · exact nameless_error fun _ => rfl
    · exact s.options.encoding.nameless_require _

variable (f : ObjectId → ObjectId) (t : Relocation)

/-- Recording a slot is alike under other numbers. -/
theorem alike_recordSlot (slot offset : Nat) :
    Alike (.rename f) (· = ·) (recordSlot slot offset) (recordSlot slot offset) t t :=
  alike_get_bind (alike_guard rfl rfl fun _ => alike_modify rfl)

/-- So is relocating a slot. -/
theorem alike_relocateSlot (offset : Nat) :
    Alike (.rename f) (· = ·) (s.relocateSlot requested offset) (s.relocateSlot requested offset)
      t t := by
  refine alike_bind (alike_recordSlot f t _ _) ?_
  rintro _ t _ rfl
  refine alike_get_bind (alike_ite (fun _ => ?_) fun _ => alike_pure rfl rfl)
  refine alike_ofExcept_bind rfl (nameless_encodeIdentity _ _ f).symm fun _ _ => ?_
  exact alike_modify rfl

/-- **Relocation names no object** when it fails. -/
theorem alike_relocateObject (p : Placement) :
    Alike (.rename f) (· = ·) (s.relocateObject requested p) (s.relocateObject requested p)
      t t := by
  refine alike_get_bind ?_
  split
  · exact alike_throw rfl rfl
  · refine alike_ofExcept_bind rfl (s.registry.nameless_require _ f).symm fun type _ => ?_
    refine alike_forM rfl ?_
    rintro field - t _ rfl
    exact alike_relocateSlot f t _

end DumpSession

/-- Making an archive of a session names no object. -/
theorem Archive.nameless_ofSession (s : DumpSession) : Nameless (ofSession s) := by
  refine nameless_bind s.nameless_maps fun maps => ?_
  obtain ⟨opened, closed⟩ := maps
  dsimp only
  split
  · exact nameless_error fun _ => rfl
  · exact nameless_ok

end HeapImage
