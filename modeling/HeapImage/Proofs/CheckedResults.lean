import HeapImage.Checked.Patch
import HeapImage.Proofs.MappingSteps

/-! # Results of checked operations

Checks only ever turn a result into a fault. So whatever a checked operation gives is what the
operation gives without checks, and all sums that it worked out were addresses.

* `Checked.Gives`: what an operation gives unless it comes to a fault.
* `Checked.gives_general`, `Checked.gives_region`, `Checked.gives_patchImage`: patching an image.
* `Checked.gives_mapImage`, `Checked.edge_of_mapImage`: mapping an image. -/

namespace HeapImage.Checked

variable {ε α β : Type} {a : α} {b : β}

/-! ## Results -/

/-- The operation gives `a`, unless it comes to a fault. -/
def Gives (r : Except ε α) (a : α) : Prop := ∀ x, r = .ok x → x = a

/-- A result gives itself. -/
theorem gives_ok (a : α) : Gives (.ok a : Except ε α) a := fun _ h => (Except.ok.inj h).symm

/-- An operation that comes to a fault gives anything. -/
theorem gives_error (fault : ε) : Gives (.error fault) a := nofun

/-- What an operation gives does not depend on the state of the run that it is part of. -/
theorem Gives.inState {σ : Type} {r : Checked α} (hr : Gives r a) (s : σ) :
    Gives (r.inState s) a := by
  intro x h
  exact hr x (Except.mapError_eq_ok.mp h)

/-- Two computations one after the other give what the plain ones do. -/
theorem Gives.bind {r : Except ε α} {k : α → Except ε β} (hr : Gives r a) (hk : Gives (k a) b) :
    Gives (r >>= k) b := by
  intro y h
  obtain ⟨x, hx, h⟩ := Except.bind_eq_ok.mp h
  obtain rfl := hr x hx
  exact hk y h

/-- A step that only checks something is no part of the result. -/
theorem Gives.after {r : Except ε Unit} {k : Unit → Except ε β} (hk : Gives (k ()) b) :
    Gives (r >>= k) b :=
  Gives.bind (fun _ _ => rfl) hk

/-! ## Sums and bytes -/

variable {space : AddressSpace} {checks : Checks} {image : ByteArray} {i j n value : Nat}

/-- A sum with a result is in the range, and it is the plain one. -/
theorem has_of_add {s : Nat} (h : space.add i j = .ok s) : space.Has (i + j) ∧ s = i + j := by
  rw [AddressSpace.add] at h
  split at h
  · rename_i hin
    exact ⟨hin, (Except.ok.inj h).symm⟩
  · cases h

/-- A checked sum gives the plain one. -/
theorem gives_add : Gives (space.add i j) (i + j) := fun _ h => (has_of_add h).2

/-- A checked read gives the plain one. -/
theorem gives_valueAt : Gives (valueAt image i n) (Bytes.valueAt image i n) :=
  Gives.after (gives_ok _)

/-- A checked write of a number gives the plain one. -/
theorem gives_setValue : Gives (setValue image i n value) (Bytes.setValue image i n value) :=
  Gives.after (gives_ok _)

/-- A checked write of a word gives the plain one. -/
theorem gives_setWord {w : UInt64} : Gives (setWord image i w) (Bytes.setWord image i w) :=
  Gives.after (gives_ok _)

/-! ## References -/

variable {m : Rebasing} {delta : UInt64} {offset start : Nat} {offsets : List Nat} {p : Patching}
variable {maps : RegionMaps}

/-- Checked decoding gives the plain address. -/
theorem gives_decode {e : ReferenceEncoding} : Gives (decode space e value) (e.decode value) := by
  cases e with
  | wide => exact gives_ok value
  | narrow base shift =>
    rw [decode, ReferenceEncoding.decode]
    split
    · exact gives_ok 0
    · exact gives_add

/-- The general path gives the plain value. -/
theorem gives_general : Gives (general space m offset value) (m.general offset value) := by
  refine gives_decode.bind ?_
  rw [Rebasing.general]
  split
  · exact gives_ok _
  · refine gives_add.bind ?_
    cases m.runtime.encode (m.actual + (m.dump.decode value - m.requested)) <;> exact gives_ok _

/-- The address that a reference has been moved to is an address. -/
theorem sum_of_general {new : Nat} (h : general space m offset value = .ok (.ok new)) :
    space.Has (m.actual + (m.dump.decode value - m.requested)) := by
  obtain ⟨target, hdecode, h⟩ := Except.bind_eq_ok.mp h
  obtain rfl := gives_decode target hdecode
  split at h
  · cases h
  · obtain ⟨a, ha, -⟩ := Except.bind_eq_ok.mp h
    exact (has_of_add ha).1

/-- A checked patch gives the plain value, whichever path it takes. -/
theorem gives_value : Gives (Checked.value checks m offset value) (m.value offset value) := by
  rw [Checked.value, Rebasing.value]
  cases m.constant? with
  | none => exact gives_general
  | some c =>
    dsimp only
    split
    · -- An assertion that holds changes nothing.
      refine gives_general.bind ?_
      split
      · exact gives_ok _
      · exact gives_error _
    · exact gives_ok _

/-- The checked edges give the plain ones. -/
theorem gives_checkEdges : Gives (checkEdges space m) m.checkEdges := Gives.after (gives_ok _)

/-! ## Patching -/

/-- Checked patching of references gives the plain one. -/
theorem gives_references :
    Gives (references checks m offsets p) (Patching.references m offsets p) := by
  induction offsets generalizing p with
  | nil => exact gives_ok _
  | cons offset rest ih =>
    obtain ⟨image, counts⟩ := p
    rw [references, Patching.references]
    refine gives_valueAt.bind ?_
    split
    · exact ih
    · refine gives_value.bind ?_
      cases m.value offset (Bytes.valueAt image offset m.slotSize) with
      | error e => exact gives_ok _
      | ok new => exact gives_setValue.bind ih

/-- Checked patching of native pointers gives the plain one. -/
theorem gives_natives : Gives (natives delta offsets p) (Patching.natives delta offsets p) := by
  induction offsets generalizing p with
  | nil => exact gives_ok _
  | cons offset rest ih =>
    obtain ⟨image, counts⟩ := p
    rw [natives, Patching.natives]
    exact gives_valueAt.bind (gives_setWord.bind ih)

/-- Checked patching of a region gives the plain one. -/
theorem gives_region :
    Gives (region checks m delta start maps p) (Patching.region m delta start maps p) := by
  rw [region, ones_eq_ok, ones_eq_ok, Patching.region, BitMap.toList, BitMap.toList]
  refine gives_references.bind ?_
  cases Patching.references m
      ((maps.references.ones 0 maps.references.size).map fun bit => start + bit * m.slotSize)
      p with
  | error e => exact gives_ok _
  | ok q =>
    change Gives (if delta = 0 then _ else _) (if delta = 0 then _ else _)
    split
    · exact gives_ok _
    · exact gives_natives.bind (gives_ok _)

variable {a : Archive}

/-- Checked patching of an image gives the plain one. -/
theorem gives_patchImage :
    Gives (patchImage checks a m delta) (HeapImage.patchImage a m delta) := by
  rw [patchImage, HeapImage.patchImage]
  dsimp only
  cases isAligned m.actual a.header.regionAlignment.toNat with
  | false => exact gives_ok _
  | true =>
    refine gives_checkEdges.bind ?_
    cases m.checkEdges with
    | error e => exact gives_ok _
    | ok u =>
      refine gives_region.bind ?_
      cases Patching.region m delta (a.header.range .opened).bottom a.opened ⟨a.image, .zero⟩ with
      | error e => exact gives_ok _
      | ok q => exact gives_region

/-- The last word of a patched image has an address. -/
theorem edge_of_patchImage (h : patchImage checks a m delta = .ok (.ok p)) :
    checks.space.Has (m.actual + (m.length - wordSize)) := by
  rw [patchImage] at h
  split at h
  · cases h
  · obtain ⟨edges, hedges, -⟩ := Except.bind_eq_ok.mp h
    obtain ⟨u, hcheck, -⟩ := Except.bind_eq_ok.mp hedges
    rw [AddressSpace.check] at hcheck
    split at hcheck
    · rename_i hin
      exact hin _ (List.mem_singleton.mpr rfl)
    · cases hcheck

/-! ## Mapping -/

section

variable {μ : Type} [MappingHost μ] [HeapSums μ] {host host' : μ} {runtime : ReferenceEncoding}

omit [HeapSums μ] in
/-- A checked hand-over gives the plain one. -/
theorem gives_handOver {actual : Nat} {es : List Extent} :
    Gives (handOver space actual es host) (es.map fun e => e.shift actual,
      (es.map fun e => e.shift actual).foldl MappingHost.completeMapped host) := by
  induction es generalizing host with
  | nil => exact gives_ok _
  | cons e es ih =>
    have hshift : (⟨actual + e.bottom, actual + e.top⟩ : Extent) = e.shift actual := by
      rw [Extent.shift, Nat.add_comm actual, Nat.add_comm actual]
    rw [handOver]
    refine (gives_add.inState _).bind ((gives_add.inState _).bind ?_)
    rw [hshift]
    exact ih.bind (gives_ok _)

/-- **Mapping an image** gives what it gives without checks, unless it comes to a fault. -/
theorem gives_mapImage : Gives (mapImage checks a host runtime delta)
    (HeapImage.mapImage a host runtime delta) := by
  rw [mapImage, HeapImage.mapImage]
  cases checkEncodings a.encoding runtime with
  | error e => exact gives_ok _
  | ok u =>
    refine Gives.after ?_
    dsimp only
    rcases MappingHost.reserve host a.header.requestedBase.toNat a.image.size with
      ⟨_ | actual, granted⟩
    · exact gives_ok _
    · refine (gives_patchImage.inState _).bind ?_
      dsimp only
      cases HeapImage.patchImage a
          ⟨a.encoding, runtime, a.header.requestedBase.toNat, actual, a.image.size⟩ delta with
      | error e => exact gives_ok _
      | ok p => exact gives_handOver.bind ((gives_add.inState _).bind (gives_ok _))

/-- The last word of a mapped image has an address. -/
theorem edge_of_mapImage {image : MappedImage}
    (h : mapImage checks a host runtime delta = .ok (.ok image, host')) :
    checks.space.Has (image.heap.base + (a.image.size - wordSize)) := by
  rw [mapImage] at h
  split at h
  · cases h
  · obtain ⟨-, -, h⟩ := Except.bind_eq_ok.mp h
    dsimp only at h
    split at h
    · cases h
    · obtain ⟨patched, hpatch, h⟩ := Except.bind_eq_ok.mp h
      split at h
      · cases h
      · obtain ⟨⟨regions, granted⟩, -, h⟩ := Except.bind_eq_ok.mp h
        obtain ⟨root, -, h⟩ := Except.bind_eq_ok.mp h
        cases h
        exact edge_of_patchImage (Except.mapError_eq_ok.mp hpatch)

end

end HeapImage.Checked
