import HeapImage.Checked.Patch
import HeapImage.Proofs.Encoding
import HeapImage.Proofs.MappingSteps
import HeapImage.Proofs.Patching

/-! # Mapping without a fault

Every marked slot of an archive that was read lies in the image, so patching the image never reaches
outside it. The sums of addresses are all addresses if the granted range has an end and the dump's
encoding stands for addresses only. What remains are the assertions. One of them fails at the first
marked slot about which the two ways to adjust a reference disagree, and leaves the range set aside.

* `AddressSpace.Covers`: an encoding stands for addresses only.
* `Checks.unlessFails`: a result, unless an assertion fails.
* `Checked.references_eq`, `Checked.natives_eq_ok`, `Checked.region_eq`: patching a region.
* `Archive.Sound.mapImage_unlessFails`: mapping an archive.
* `Archive.Sound.mapImage_eq_ok`: mapping an archive without assertions. -/

namespace HeapImage

/-! ## Addresses of references -/

/-- Whatever is in a slot, it stands for an address. -/
def AddressSpace.Covers (space : AddressSpace) (e : ReferenceEncoding) : Prop :=
  ∀ value < 256 ^ e.slotSize, space.Has (e.decode value)

/-- Without a bound, every decoded address is in the range. -/
theorem AddressSpace.covers_unbounded (e : ReferenceEncoding) : unbounded.Covers e :=
  fun _ _ => trivial

/-- A narrow encoding whose largest value stands for an address stands for addresses only. -/
theorem AddressSpace.covers_narrow {space : AddressSpace} {base : UInt64} {shift : UInt32}
    (h : space.Has (base.toNat + ReferenceEncoding.maxNarrow <<< shift.toNat)) :
    space.Covers (.narrow base shift) := by
  intro value hvalue
  rw [ReferenceEncoding.decode]
  split
  · exact h.mono (Nat.zero_le _)
  · refine h.mono (Nat.add_le_add_left (Nat.le_trans (Nat.mod_le ..) ?_) _)
    rw [Nat.shiftLeft_eq, Nat.shiftLeft_eq]
    have hmax : value ≤ ReferenceEncoding.maxNarrow := Nat.le_of_lt_succ hvalue
    exact Nat.mul_le_mul_right _ hmax

/-! ## Assertions -/

namespace Checks

variable {α β : Type} {checks : Checks} {d f : Option Disagreement} {x : α} {y : β}

/-- A result, unless assertions are checked and there is one that fails. -/
def unlessFails (checks : Checks) (failed : Option Disagreement) (x : α) : Checked α :=
  match failed with
  | some d => if checks.assertions then .error (.assertion d) else .ok x
  | none => .ok x

/-- Without an assertion that fails there is a result. -/
@[simp] theorem unlessFails_none (checks : Checks) (x : α) :
    checks.unlessFails none x = .ok x := rfl

/-- A build without assertions always has the result. -/
theorem unlessFails_of_not (h : checks.assertions = false) (failed : Option Disagreement) (x : α) :
    checks.unlessFails failed x = .ok x := by
  cases failed with
  | none => rfl
  | some d => exact if_neg (h ▸ Bool.false_ne_true)

/-- **One step after another**: the first assertion that fails is the one that counts. -/
theorem unlessFails_bind {k : α → Checked β} (hk : k x = checks.unlessFails f y) :
    (checks.unlessFails d x >>= k) = checks.unlessFails (d.or f) y := by
  cases d with
  | none => exact hk
  | some d =>
    rw [Option.some_or]
    cases hassert : checks.assertions with
    | false =>
      have hy : checks.unlessFails f y = .ok y := unlessFails_of_not hassert f y
      rw [unlessFails_of_not hassert, unlessFails_of_not hassert, ← hy, ← hk]
      rfl
    | true => simp only [unlessFails, hassert]; rfl

/-- The state of a run is of no account to the steps behind an assertion. -/
theorem inState_unlessFails_bind {σ : Type} {s : σ} {k : α → CheckedRun σ β} (hk : k x = .ok y) :
    ((checks.unlessFails d x).inState s >>= k) = (checks.unlessFails d y).inState s := by
  cases d with
  | none => exact hk
  | some d =>
    cases hassert : checks.assertions with
    | false =>
      rw [unlessFails_of_not hassert, unlessFails_of_not hassert]
      exact hk
    | true =>
      simp only [unlessFails, hassert]
      rfl

end Checks

namespace Rebasing

variable {m : Rebasing}

/-- The first slot among some that holds a reference about which the two ways disagree. -/
def firstDisagreement? (m : Rebasing) (image : ByteArray) (offsets : List Nat) :
    Option Disagreement :=
  offsets.findSome? fun i =>
    let value := Bytes.valueAt image i m.slotSize
    if value = 0 then none else m.disagreement? i value

/-- Where no constant does for all references there is only one way to adjust them. -/
theorem disagreement?_of_constant (h : m.constant? = none) (offset value : Nat) :
    m.disagreement? offset value = none := by
  rw [disagreement?, h]

/-- A patch that has no constant has none that disagrees. -/
theorem firstDisagreement?_of_constant (h : m.constant? = none) (image : ByteArray)
    (offsets : List Nat) : m.firstDisagreement? image offsets = none := by
  refine List.findSome?_eq_none_iff.mpr fun i _ => ?_
  dsimp only
  rw [disagreement?_of_constant h, ite_self]

/-- Slots that hold the same in two images are told apart in neither of them. -/
theorem firstDisagreement?_congr {image image' : ByteArray} {offsets : List Nat}
    (h : ∀ i ∈ offsets, Bytes.valueAt image' i m.slotSize = Bytes.valueAt image i m.slotSize) :
    m.firstDisagreement? image' offsets = m.firstDisagreement? image offsets := by
  induction offsets with
  | nil => rfl
  | cons i offsets ih =>
    obtain ⟨hi, hrest⟩ := List.forall_mem_cons.mp h
    have hrest := ih hrest
    unfold firstDisagreement? at hrest ⊢
    rw [List.findSome?_cons, List.findSome?_cons, hi, hrest]

/-- Only the general way refuses to adjust a reference. -/
theorem constant?_of_value {offset value : Nat} {e : ArchiveError}
    (h : m.value offset value = .error e) : m.constant? = none := by
  rw [Rebasing.value] at h
  cases hc : m.constant? with
  | none => rfl
  | some c =>
    rw [hc] at h
    cases h

end Rebasing

namespace Checked

variable {space : AddressSpace} {checks : Checks} {m : Rebasing} {delta : UInt64}
variable {image : ByteArray}
variable {offset start : Nat} {offsets : List Nat} {p : Patching}

/-- A value that stands for an address is decoded. -/
theorem decode_eq_ok {e : ReferenceEncoding} {value : Nat} (h : space.Has (e.decode value)) :
    decode space e value = .ok (e.decode value) := by
  cases e with
  | wide => rfl
  | narrow base shift =>
    rw [ReferenceEncoding.decode] at h ⊢
    rw [decode]
    split
    · rfl
    · rename_i hzero
      rw [if_neg hzero] at h
      exact AddressSpace.add_eq_ok h

/-- What an address in the image calls for is in the granted range. -/
theorem general_eq_ok {value : Nat} (hvalue : space.Has (m.dump.decode value))
    (hrange : space.Has (m.actual + m.length)) :
    general space m offset value = .ok (m.general offset value) := by
  rw [general, decode_eq_ok hvalue, ok_bind, Rebasing.general]
  split
  · rfl
  · have hsum : space.Has (m.actual + (m.dump.decode value - m.requested)) :=
      hrange.mono (by omega)
    rw [AddressSpace.add_eq_ok hsum, ok_bind]
    cases m.runtime.encode (m.actual + (m.dump.decode value - m.requested)) <;> rfl

/-- The new value of a reference, unless the assertion about it fails. -/
theorem value_eq {old : Nat} (hvalue : checks.space.Has (m.dump.decode old))
    (hrange : checks.space.Has (m.actual + m.length)) :
    value checks m offset old =
      checks.unlessFails (m.disagreement? offset old) (m.value offset old) := by
  rw [value, general_eq_ok hvalue hrange, Rebasing.disagreement?, Rebasing.value]
  cases m.constant? with
  | none => rfl
  | some c =>
    dsimp only
    cases hassert : checks.assertions with
    | false =>
      rw [Checks.unlessFails_of_not hassert]
      rfl
    | true =>
      by_cases hagree : (m.general offset old).toOption = some (m.shifted c old)
      · simp only [hagree, ok_bind, if_true, Checks.unlessFails_none]
        rfl
      · simp only [hagree, ok_bind, if_true, if_false, Checks.unlessFails, hassert]
        rfl

/-- The edges of an image in a range with an end have addresses. -/
theorem checkEdges_eq_ok (hrange : space.Has (m.actual + m.length)) :
    checkEdges space m = .ok m.checkEdges := by
  have hedge : ∀ a ∈ [m.actual + (m.length - wordSize)], space.Has a := by
    intro a ha
    rw [List.mem_singleton.mp ha]
    exact hrange.mono (by omega)
  rw [checkEdges, AddressSpace.check_eq_ok hedge]
  rfl

/-! ## Patching -/

/-- Slots that lie in the image can be patched, unless an assertion fails. -/
theorem references_eq (hcovers : checks.space.Covers m.dump) (hslot : m.dump.slotSize = m.slotSize)
    (hrange : checks.space.Has (m.actual + m.length))
    (hapart : offsets.Pairwise (Apart m.slotSize))
    (hin : ∀ i ∈ offsets, i + m.slotSize ≤ p.image.size) :
    references checks m offsets p =
      checks.unlessFails (m.firstDisagreement? p.image offsets)
        (Patching.references m offsets p) := by
  induction offsets generalizing p with
  | nil => rfl
  | cons offset rest ih =>
    obtain ⟨image, counts⟩ := p
    obtain ⟨hoffset, hrest⟩ := List.forall_mem_cons.mp hin
    obtain ⟨hfirst, hapart⟩ := List.pairwise_cons.mp hapart
    have hvalue : checks.space.Has (m.dump.decode (Bytes.valueAt image offset m.slotSize)) :=
      hcovers _ (hslot ▸ Bytes.valueAt_lt ..)
    rw [references, valueAt_eq_ok hoffset, ok_bind, Patching.references]
    dsimp only
    split
    · rename_i hzero
      have hskip : m.firstDisagreement? image (offset :: rest) =
          m.firstDisagreement? image rest := by
        rw [Rebasing.firstDisagreement?, List.findSome?_cons]
        dsimp only
        rw [if_pos hzero]
        rfl
      rw [hskip]
      exact ih hapart hrest
    · rename_i hne
      rw [value_eq hvalue hrange]
      have hsplit : m.firstDisagreement? image (offset :: rest) =
          (m.disagreement? offset (Bytes.valueAt image offset m.slotSize)).or
            (m.firstDisagreement? image rest) := by
        rw [Rebasing.firstDisagreement?, List.findSome?_cons]
        dsimp only
        rw [if_neg hne]
        cases m.disagreement? offset (Bytes.valueAt image offset m.slotSize) <;> rfl
      rw [hsplit]
      refine Checks.unlessFails_bind ?_
      cases hnew : m.value offset (Bytes.valueAt image offset m.slotSize) with
      | error e =>
        rw [Rebasing.firstDisagreement?_of_constant (Rebasing.constant?_of_value hnew)]
        rfl
      | ok new =>
        dsimp only
        -- The slots that follow hold what they held before this one was written.
        have hkept : ∀ i ∈ rest, Bytes.valueAt (Bytes.setValue image offset m.slotSize new) i
            m.slotSize = Bytes.valueAt image i m.slotSize :=
          fun i hi => Bytes.valueAt_setValue_of_disjoint (hfirst i hi).symm new
        rw [setValue_eq_ok hoffset, ok_bind, ← Rebasing.firstDisagreement?_congr hkept]
        refine ih hapart fun i hi => ?_
        rw [Bytes.size_setValue]
        exact hrest i hi

/-- Heap words that lie in the image can be patched. -/
theorem natives_eq_ok (hin : ∀ i ∈ offsets, i + wordSize ≤ p.image.size) :
    natives delta offsets p = .ok (Patching.natives delta offsets p) := by
  induction offsets generalizing p with
  | nil => rfl
  | cons offset rest ih =>
    obtain ⟨image, counts⟩ := p
    obtain ⟨hoffset, hrest⟩ := List.forall_mem_cons.mp hin
    rw [natives, valueAt_eq_ok hoffset, ok_bind]
    dsimp only
    rw [setWord_eq_ok hoffset, ok_bind, Patching.natives]
    refine ih fun i hi => ?_
    rw [Bytes.size_setWord]
    exact hrest i hi

/-- **Patching a region** comes to no fault but a failed assertion, if what its maps mark lies in
the image. -/
theorem region_eq {maps : RegionMaps} (hcovers : checks.space.Covers m.dump)
    (hslot : m.dump.slotSize = m.slotSize) (hrange : checks.space.Has (m.actual + m.length))
    (hslots : ∀ i ∈ Patching.slots m start maps, i + m.slotSize ≤ p.image.size)
    (hwords : ∀ i ∈ Patching.words start maps, i + wordSize ≤ p.image.size) :
    region checks m delta start maps p =
      checks.unlessFails (m.firstDisagreement? p.image (Patching.slots m start maps))
        (Patching.region m delta start maps p) := by
  have hreferences : references checks m (Patching.slots m start maps) p = _ :=
    references_eq hcovers hslot hrange (Patching.places_pairwise ..) hslots
  rw [region, ones_eq_ok, ok_bind, ones_eq_ok, ← BitMap.toList, ← BitMap.toList, ← Patching.slots,
    hreferences]
  refine (Checks.unlessFails_bind (f := none) ?_).trans (by rw [Option.or_none])
  rw [Patching.region, ← Patching.slots]
  cases hpatched : Patching.references m (Patching.slots m start maps) p with
  | error e => rfl
  | ok q =>
    have hsize := (Patching.moves_of_references (Patching.places_pairwise ..) hslots hpatched).1
    have hnatives : natives delta (Patching.words start maps) q =
        .ok (Patching.natives delta (Patching.words start maps) q) :=
      natives_eq_ok fun i hi => hsize ▸ hwords i hi
    dsimp only
    rw [ok_bind, ← Patching.words, hnatives]
    by_cases hzero : delta = 0
    · rw [if_pos hzero]
      show _ = Except.ok (if delta = 0 then _ else _)
      rw [if_pos hzero]
      rfl
    · rw [if_neg hzero]
      show _ = Except.ok (if delta = 0 then _ else _)
      rw [if_neg hzero]
      rfl

/-- The regions of a mapped image are handed over where the sums are addresses. -/
theorem handOver_eq_ok {μ : Type} [MappingHost μ] {actual : Nat} {es : List Extent} {host : μ}
    (h : ∀ e ∈ es, space.Has (actual + e.bottom) ∧ space.Has (actual + e.top)) :
    handOver space actual es host = .ok (es.map fun e => e.shift actual,
      (es.map fun e => e.shift actual).foldl MappingHost.completeMapped host) := by
  induction es generalizing host with
  | nil => rfl
  | cons e es ih =>
    obtain ⟨⟨hbottom, htop⟩, hes⟩ := List.forall_mem_cons.mp h
    have hshift : (⟨actual + e.bottom, actual + e.top⟩ : Extent) = e.shift actual := by
      rw [Extent.shift, Nat.add_comm actual, Nat.add_comm actual]
    rw [handOver, AddressSpace.add_eq_ok hbottom, AddressSpace.add_eq_ok htop]
    show (handOver space actual es (MappingHost.completeMapped host ⟨_, _⟩) >>= fun _ => _) = _
    rw [ih hes, hshift]
    rfl

end Checked

/-! ## Mapping -/

namespace Archive.Sound

variable {a : Archive} {space : AddressSpace} {checks : Checks} {runtime : ReferenceEncoding}
variable {delta : UInt64} {actual : Nat}

/-- The slots and the words that the maps of a region mark lie in the image. -/
theorem marked_le (h : a.Sound) {m : Rebasing} (hslot : m.slotSize = a.slotSize) (region : Region) :
    (∀ i ∈ Patching.slots m (a.header.range region).bottom (a.maps region),
      i + m.slotSize ≤ a.image.size) ∧
    ∀ i ∈ Patching.words (a.header.range region).bottom (a.maps region),
      i + wordSize ≤ a.image.size := by
  have htop := (h.bounds region).2
  exact ⟨fun i hi => Nat.le_trans (h.bounds_of_mem_slots hslot region i hi).2 htop,
    fun i hi => Nat.le_trans (h.bounds_of_mem_words region i hi).2 htop⟩

/-- Marked slots of an image at which the two ways disagree are met region by region. -/
theorem disagreement?_eq {m : Rebasing} :
    a.disagreement? m =
      (m.firstDisagreement? a.image
        (Patching.slots m (a.header.range .opened).bottom a.opened)).or
      (m.firstDisagreement? a.image
        (Patching.slots m (a.header.range .closed).bottom a.closed)) := by
  have hregion : ∀ region, (m.firstDisagreement? a.image
      (Patching.slots m (a.header.range region).bottom (a.maps region))) =
      (a.maps region).references.toList.findSome? fun bit =>
        let offset := (a.header.range region).bottom + bit * m.slotSize
        let value := Bytes.valueAt a.image offset m.slotSize
        if value = 0 then none else m.disagreement? offset value := by
    intro region
    rw [Rebasing.firstDisagreement?, Patching.slots, List.findSome?_map]
    rfl
  have hall : a.disagreement? m = Region.all.findSome? fun region => m.firstDisagreement? a.image
      (Patching.slots m (a.header.range region).bottom (a.maps region)) := by
    simp only [hregion]
    rfl
  have hboth : ∀ f : Region → Option Disagreement,
      Region.all.findSome? f = (f .opened).or (f .closed) := by
    intro f
    rw [Region.all, List.findSome?_cons, List.findSome?_cons, List.findSome?_nil]
    cases f .opened <;> cases f .closed <;> rfl
  exact hall.trans (hboth _)

/-- **Patching the image** comes to no fault but an assertion that fails. -/
theorem patchImage_unlessFails (h : a.Sound) {m : Rebasing} (hdump : m.dump.slotSize = m.slotSize)
    (hslot : m.slotSize = a.slotSize) (hcovers : checks.space.Covers m.dump)
    (hrange : checks.space.Has (m.actual + m.length)) :
    Checked.patchImage checks a m delta = checks.unlessFails
      (if isAligned m.actual a.header.regionAlignment.toNat && m.checkEdges.isOk then
        a.disagreement? m else none) (HeapImage.patchImage a m delta) := by
  obtain ⟨hopenSlots, hopenWords⟩ := h.marked_le hslot .opened
  obtain ⟨hclosedSlots, hclosedWords⟩ := h.marked_le hslot .closed
  have hopen : Checked.region checks m delta (a.header.range .opened).bottom a.opened
      ⟨a.image, .zero⟩ = _ := Checked.region_eq hcovers hdump hrange hopenSlots hopenWords
  rw [Checked.patchImage, HeapImage.patchImage, Checked.checkEdges_eq_ok hrange]
  cases isAligned m.actual a.header.regionAlignment.toNat with
  | false => rfl
  | true =>
    cases m.checkEdges with
    | error e => rfl
    | ok u =>
      show (Checked.region checks m delta (a.header.range .opened).bottom a.opened
        ⟨a.image, .zero⟩ >>= _) = checks.unlessFails (a.disagreement? m) _
      rw [hopen, disagreement?_eq]
      refine Checks.unlessFails_bind ?_
      cases hp : Patching.region m delta (a.header.range .opened).bottom a.opened
        ⟨a.image, .zero⟩ with
      | error e =>
        -- A reference without a new value was looked up, so no assertion has been left out.
        obtain ⟨i, -, -, hvalue⟩ := Patching.error_of_region hp
        rw [Rebasing.firstDisagreement?_of_constant (Rebasing.constant?_of_value hvalue)]
        rfl
      | ok p =>
        -- The closed region is patched in what has become of the image, which is as large as
        -- before and holds the same references there.
        obtain ⟨hsize, hkept⟩ := h.closed_of_opened hslot hp
        rw [← Rebasing.firstDisagreement?_congr hkept]
        exact Checked.region_eq hcovers hdump hrange
          (fun i hi => hsize ▸ hclosedSlots i hi) fun i hi => hsize ▸ hclosedWords i hi

/-- The regions of a mapped image have addresses if the range that was granted has an end. -/
theorem has_range (h : a.Sound) {actual : Nat} (hrange : space.Has (actual + a.image.size))
    (region : Region) : space.Has (actual + (a.header.range region).bottom) ∧
      space.Has (actual + (a.header.range region).top) := by
  obtain ⟨hle, htop⟩ := h.bounds region
  exact ⟨hrange.mono (by omega), hrange.mono (by omega)⟩

/-- So does its root. -/
theorem has_root (h : a.Sound) {actual : Nat} (hrange : space.Has (actual + a.image.size)) :
    space.Has (actual + a.header.rootOffset.toNat) := by
  have hopen := (h.bounds .opened).2
  have hle := h.regions.root_le
  dsimp only [ArchiveHeader.range] at hopen
  rw [h.regions.openOffset, UInt64.toNat_zero, Nat.zero_add] at hopen
  exact hrange.mono (by omega)

/-- **Mapping** an archive that was read comes to no fault but a failed assertion, if the range that
is granted has an end and references stand for addresses only. The range is still set aside when an
assertion fails. -/
theorem mapImage_unlessFails {μ : Type} [MappingHost μ] [HeapSums μ] (h : a.Sound) {host : μ}
    (hsums : ∀ n ∈ HeapSums.reservation host a.header.requestedBase.toNat a.image.size,
      checks.space.Has n)
    (hgrant : ∀ actual granted, MappingHost.reserve host a.header.requestedBase.toNat a.image.size =
      (some actual, granted) → checks.space.Has (actual + a.image.size))
    (hcovers : checks.space.Covers a.encoding) :
    Checked.mapImage checks a host runtime delta =
      (checks.unlessFails (mappingAssertion? a host runtime)
        (HeapImage.mapImage a host runtime delta)).inState
          (MappingHost.reserve host a.header.requestedBase.toNat a.image.size).2 := by
  rw [Checked.mapImage, HeapImage.mapImage, mappingAssertion?]
  cases hcheck : checkEncodings a.encoding runtime with
  | error e => rfl
  | ok u =>
    dsimp only
    rw [AddressSpace.check_eq_ok hsums]
    rcases hreserve : MappingHost.reserve host a.header.requestedBase.toNat a.image.size with
      ⟨_ | actual, granted⟩
    · rfl
    · -- All sums with the granted base stay below its end, which has an address.
      have hrange := hgrant actual granted hreserve
      have hslot := (checkEncodings_eq_ok hcheck).1
      have hpatch : Checked.patchImage checks a
          ⟨a.encoding, runtime, a.header.requestedBase.toNat, actual, a.image.size⟩ delta = _ :=
        h.patchImage_unlessFails hslot hslot.symm hcovers hrange
      have hranges : ∀ e ∈ (Region.all.map a.header.range).filter fun e => !e.isEmpty,
          checks.space.Has (actual + e.bottom) ∧ checks.space.Has (actual + e.top) := by
        intro e he
        obtain ⟨region, -, rfl⟩ := List.mem_map.mp (List.mem_filter.mp he).1
        exact h.has_range hrange region
      dsimp only
      show ((Checked.patchImage checks a _ delta).inState granted >>= _) = _
      rw [hpatch]
      refine Checks.inState_unlessFails_bind ?_
      cases HeapImage.patchImage a
          ⟨a.encoding, runtime, a.header.requestedBase.toNat, actual, a.image.size⟩ delta with
      | error e => rfl
      | ok p =>
        dsimp only
        rw [Checked.handOver_eq_ok hranges, AddressSpace.add_eq_ok (h.has_root hrange)]
        rfl

/-- **Mapping** an archive that was read comes to no fault in a build without assertions. -/
theorem mapImage_eq_ok {μ : Type} [MappingHost μ] [HeapSums μ] (h : a.Sound) {host : μ}
    (hassert : checks.assertions = false)
    (hsums : ∀ n ∈ HeapSums.reservation host a.header.requestedBase.toNat a.image.size,
      checks.space.Has n)
    (hgrant : ∀ actual granted, MappingHost.reserve host a.header.requestedBase.toNat a.image.size =
      (some actual, granted) → checks.space.Has (actual + a.image.size))
    (hcovers : checks.space.Covers a.encoding) :
    Checked.mapImage checks a host runtime delta =
      .ok (HeapImage.mapImage a host runtime delta) := by
  rw [h.mapImage_unlessFails hsums hgrant hcovers, Checks.unlessFails_of_not hassert]
  rfl

end Archive.Sound

end HeapImage
