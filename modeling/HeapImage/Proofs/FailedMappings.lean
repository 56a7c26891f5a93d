import HeapImage.Proofs.AddressRanges
import HeapImage.Proofs.MappingSteps

/-! # Mappings that fail

Whatever makes an image unusable for this run is found before anything has been handed over. Then
the address range that was set aside for the image is given back, so the heap is as it was, and the
program can do without the archive.

* `of_mapImage_error`: a failure to map an image. -/

namespace HeapImage

/-! ## Mapping -/

section

variable {e : ArchiveError}

/-- An encoding that cannot be used can be recovered from. -/
theorem isRecoverable_of_check {encoding : ReferenceEncoding} (h : encoding.check = .error e) :
    e.isRecoverable = true := by
  rw [ReferenceEncoding.check] at h
  split at h
  · cases h
  · cases h
    rfl

/-- Encodings that do not go together can be done without. -/
theorem isRecoverable_of_checkEncodings {dump runtime : ReferenceEncoding}
    (h : checkEncodings dump runtime = .error e) : e.isRecoverable = true := by
  rw [checkEncodings] at h
  split at h
  · cases h
    rfl
  · cases hdump : dump.check with
    | error e' =>
      rw [hdump] at h
      cases h
      exact isRecoverable_of_check hdump
    | ok u =>
      rw [hdump] at h
      exact isRecoverable_of_check h

namespace Rebasing

variable {m : Rebasing} {offset value : Nat}

/-- A reference that cannot be patched can be recovered from. -/
theorem isRecoverable_of_value (h : m.value offset value = .error e) : e.isRecoverable = true := by
  rw [Rebasing.value] at h
  split at h
  · cases h
  · rw [general] at h
    split at h
    · cases h
      rfl
    · split at h
      · cases h
      · cases h
        rfl

/-- An edge that cannot be stored can be recovered from. -/
theorem isRecoverable_of_checkEdges (h : m.checkEdges = .error e) : e.isRecoverable = true := by
  obtain ⟨edge, -, hfail⟩ := Except.exists_of_forM_error h
  split at hfail
  · cases hfail
  · cases hfail
    rfl

end Rebasing

namespace Patching

variable {m : Rebasing} {p : Patching}

/-- So can references that cannot be patched. -/
theorem isRecoverable_of_references {offsets : List Nat} (h : references m offsets p = .error e) :
    e.isRecoverable = true := by
  induction offsets generalizing p with
  | nil => cases h
  | cons offset rest ih =>
    rw [references] at h
    split at h
    · exact ih h
    · split at h
      · rename_i hvalue
        cases h
        exact Rebasing.isRecoverable_of_value hvalue
      · exact ih h

/-- So can a region that cannot be patched. -/
theorem isRecoverable_of_region {delta : UInt64} {start : Nat} {maps : RegionMaps}
    (h : region m delta start maps p = .error e) : e.isRecoverable = true := by
  rw [region] at h
  rcases Except.bind_eq_error.mp h with hreferences | ⟨q, -, hrest⟩
  · exact isRecoverable_of_references hreferences
  · split at hrest <;> cases hrest

end Patching

/-- An image that cannot be patched can be done without. -/
theorem isRecoverable_of_patchImage {a : Archive} {m : Rebasing} {delta : UInt64}
    (h : patchImage a m delta = .error e) : e.isRecoverable = true := by
  rw [patchImage] at h
  split at h
  · cases h
    rfl
  · rcases Except.bind_eq_error.mp h with hedges | ⟨_, -, h⟩
    · exact Rebasing.isRecoverable_of_checkEdges hedges
    · rcases Except.bind_eq_error.mp h with hopened | ⟨p, -, hclosed⟩
      · exact Patching.isRecoverable_of_region hopened
      · exact Patching.isRecoverable_of_region hclosed

/-- **An image that cannot be mapped** can be done without, and leaves the heap as it was. -/
theorem of_mapImage_error {a : Archive} {heap heap' : Arena} {runtime : ReferenceEncoding}
    {delta : UInt64} (hmap : mapImage a heap runtime delta = (.error e, heap')) :
    heap' = heap ∧ e.isRecoverable = true := by
  rw [mapImage] at hmap
  split at hmap
  · rename_i hcheck
    cases hmap
    exact ⟨rfl, isRecoverable_of_checkEncodings hcheck⟩
  · dsimp only at hmap
    split at hmap
    · rename_i granted hreserve
      cases hmap
      exact ⟨Arena.eq_of_reserve_none hreserve, rfl⟩
    · rename_i actual granted hreserve
      split at hmap
      · rename_i hpatch
        cases hmap
        exact ⟨Arena.release_reserve hreserve, isRecoverable_of_patchImage hpatch⟩
      · cases hmap

end

end HeapImage
