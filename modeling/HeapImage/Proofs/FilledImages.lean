import HeapImage.Proofs.Planning

/-! # Images before and after relocation

When both regions have been copied, the output is an image whose references are identities. Once
addresses have been planned for it, relocation goes through, and leaves an image whose references
are stored addresses.

* `DumpSession.Regions`: members that stand back to back in both regions.
* `DumpSession.Filled`: an output that is an image, apart from its references.
* `DumpSession.Planned`: addresses for it.
* `DumpSession.Filled.exists_runs`: relocation succeeds.
* `DumpSession.Standing`, `DumpSession.Filled.standing`: the image behind relocation. -/

namespace HeapImage.DumpSession

variable {s t : DumpSession} {q : RequestedRegions} {g : ObjectGraph} {roots : List ObjectId}
variable {os cs : List Placed} {ref : ObjectId → Nat}

/-- The members `os` of the open region and `cs` of the closed one stand back to back in the output,
and they are all that has been copied. -/
structure Regions (s : DumpSession) (os cs : List Placed) : Prop where
  openRow : Placed.Row s.slotSize 0 os s.openTop
  closedBottom_eq : s.closedBottom = alignUp s.openTop s.options.alignment
  closedRow : Placed.Row s.slotSize s.closedBottom cs s.closedTop
  boundary : ∀ y ∈ os ++ cs, alignDown y.offset s.options.alignment =
    alignDown (y.stop s.slotSize - 1) s.options.alignment
  zero : ∀ j, s.openTop ≤ j ∧ j < s.closedBottom ∨ s.closedTop ≤ j → Bytes.get s.output j = 0
  placements : s.placements.toList = (os ++ cs).map (Placed.placement s.slotSize)
  root : ∃ y ∈ os, y.member.id = none ∧ y.offset = s.rootOffset

/-- The members in the output have identities in place of references. Every identity leads to a
place in the staging buffer that has a note, and so on to one of the members. -/
structure Filled (s : DumpSession) (g : ObjectGraph) (roots : List ObjectId) (os cs : List Placed)
    (ref : ObjectId → Nat) : Prop extends s.Regions os cs where
  of : ∀ y ∈ os ++ cs, y.member.Of g s.registry roots
  held : ∀ y ∈ os ++ cs, y.Held s.slotSize ref id (Bytes.get s.output)
  targets : ∀ y ∈ os ++ cs, ∀ c ∈ y.member.cells s.slotSize, ∀ i, c.value = .reference (some i) →
    ∃ p, s.staging.slotOf? i = some p ∧ ref i = identityOf p ∧ wordSize ∣ p ∧
      ∃ z ∈ os ++ cs, s.offsets[p]? = some z.offset

/-- The session has been given addresses for its image. -/
structure Planned (s : DumpSession) (q : RequestedRegions) : Prop where
  requested : s.requested = some q
  plan : s.plan = .ok q
  addresses : s.checkAddresses q = .ok ()
  size_output : s.output.size = s.imageSize

/-- The output is an image with the numbers `ref` in place of references, and it has a place below
the heap end. -/
structure Standing (s : DumpSession) (q : RequestedRegions) (g : ObjectGraph)
    (roots : List ObjectId) (os cs : List Placed) (ref : ObjectId → Nat) : Prop
    extends s.Regions os cs where
  of : ∀ y ∈ os ++ cs, y.member.Of g s.registry roots
  held : ∀ y ∈ os ++ cs, y.Held s.slotSize ref id (Bytes.get s.output)
  size_output : s.output.size = s.imageSize
  base_ne_zero : q.opened.bottom ≠ 0
  dvd_base : s.options.alignment ∣ q.opened.bottom
  base_add : q.opened.bottom + s.imageSize = alignDown s.options.heapEnd s.options.alignment

namespace Regions

/-- The closed region starts behind the open one. -/
theorem openTop_le (h : s.Regions os cs) : s.openTop ≤ s.closedBottom := by
  rw [h.closedBottom_eq]
  exact le_alignUp _ _

/-- The image ends behind the closed region. -/
theorem closedTop_le (h : s.Regions os cs) : s.closedTop ≤ s.imageSize := by
  rw [imageSize, Nat.max_eq_left h.closedRow.le]
  exact le_alignUp _ _

/-- The closed region starts at a word boundary. -/
theorem wordSize_dvd_closedBottom (h : s.Regions os cs) (hcheck : s.options.check = .ok ()) :
    wordSize ∣ s.closedBottom := by
  rw [h.closedBottom_eq]
  exact Nat.dvd_trans (DumpOptions.wordSize_dvd_alignment hcheck)
    (dvd_alignUp (DumpOptions.of_check hcheck).1 _)

/-- Members start at word boundaries. -/
theorem wordSize_dvd_offset (h : s.Regions os cs) (hcheck : s.options.check = .ok ()) :
    ∀ y ∈ os ++ cs, wordSize ∣ y.offset := by
  have hsize : ∀ y : Placed, wordSize ∣ y.member.size s.slotSize :=
    fun y => y.member.wordSize_dvd_size _
  exact List.forall_mem_append.mpr ⟨(h.openRow.dvd (Nat.dvd_zero _) fun y _ => hsize y).1,
    (h.closedRow.dvd (h.wordSize_dvd_closedBottom hcheck) fun y _ => hsize y).1⟩

/-- Where the members of both regions are. -/
theorem bounds (h : s.Regions os cs) : ∀ y ∈ os ++ cs, y.stop s.slotSize ≤ s.openTop ∨
    s.closedBottom ≤ y.offset ∧ y.stop s.slotSize ≤ s.closedTop := by
  intro y hy
  rcases List.mem_append.mp hy with hy | hy
  · exact .inl (h.openRow.bounds y hy).2
  · exact .inr (h.closedRow.bounds y hy)

/-- Members of both regions end where the closed one does at the latest. -/
theorem stop_le (h : s.Regions os cs) : ∀ y ∈ os ++ cs, y.stop s.slotSize ≤ s.closedTop := by
  intro y hy
  have := h.bounds y hy
  have := h.openTop_le
  have := h.closedRow.le
  omega

/-- The members ascend through both regions. -/
theorem ascending (h : s.Regions os cs) : Placed.Ascending s.slotSize (os ++ cs) :=
  Placed.Ascending.append h.openRow h.openTop_le h.closedRow

/-- The members of both regions lie apart. -/
theorem disjoint (h : s.Regions os cs) : Placed.Disjoint s.slotSize (os ++ cs) :=
  Placed.Disjoint.append h.openRow h.openTop_le h.closedRow

/-- Every member takes more than a byte of the output. -/
theorem length_le (h : s.Regions os cs) : (os ++ cs).length ≤ s.closedTop := by
  have hsize : ∀ y : Placed, 1 ≤ y.member.size s.slotSize := fun y => y.member.size_pos _
  have hos := h.openRow.mul_length_le fun y _ => hsize y
  have hcs := h.closedRow.mul_length_le fun y _ => hsize y
  have := h.openTop_le
  rw [List.length_append]
  omega

end Regions

namespace Filled

/-- Filling up the output does not touch the members. -/
theorem finalize (h : s.Filled g roots os cs ref) :
    { s with
      output := Bytes.resize s.output s.imageSize
      requested := some q
      phase := .finalized }.Filled g roots os cs ref := by
  have htop := h.closedTop_le
  refine ⟨⟨h.openRow, h.closedBottom_eq, h.closedRow, h.boundary, ?_, h.placements, h.root⟩, h.of,
    ?_, h.targets⟩
  rotate_left
  · intro y hy
    apply (h.held y hy).congr (h.of y hy) (ReferenceEncoding.isSlotSize _)
    intro k hk
    have := h.stop_le y hy
    rw [Placed.stop] at this
    change k < y.member.size s.slotSize at hk
    rw [Bytes.get_resize, if_pos (by omega)]
  · intro j hj
    rw [Bytes.get_resize]
    split
    · exact h.zero j hj
    · rfl

/-- The identities in the members can be encoded. -/
theorem encodeIdentity_eq_ok (h : s.Filled g roots os cs ref)
    (haddresses : s.checkAddresses q = .ok ()) : ∀ y ∈ os ++ cs, ∀ c ∈ y.member.cells s.slotSize,
      ∀ i, c.value = .reference (some i) → ∀ position, ∃ value,
        s.encodeIdentity q position (ref i) = .ok value := by
  intro y hy c hc i hv position
  obtain ⟨p, -, hidentity, hdvd, z, hz, hoffset⟩ := h.targets y hy c hc i hv
  obtain ⟨value, hvalue⟩ := of_checkAddresses haddresses (z.placement s.slotSize) (by
    rw [h.placements]
    exact List.mem_map.mpr ⟨z, hz, rfl⟩)
  refine ⟨value, ?_⟩
  rw [hidentity, encodeIdentity_identityOf hdvd hoffset]
  exact ReferenceEncoding.require_eq_ok.mpr hvalue

/-- **Relocation succeeds** once addresses have been planned. -/
theorem exists_runs (h : s.Filled g roots os cs ref) (hq : s.Planned q) :
    ∃ done, Runs
      (s.placements.toList.forM (relocateObject { s with output := ByteArray.empty } q))
      ⟨s.output, BitMap.empty (s.output.size / s.slotSize)⟩ () done := by
  rw [h.placements]
  refine exists_runs_relocateObject (s := { s with output := ByteArray.empty })
    (ReferenceEncoding.isSlotSize _) h.of h.held
    h.ascending ?_
    (h.encodeIdentity_eq_ok hq.addresses)
  intro y hy
  rw [hq.size_output]
  exact Nat.le_trans (h.stop_le y hy) h.closedTop_le

/-- Relocation goes through the slots of the members. -/
theorem relocated (h : s.Filled g roots os cs ref) (hq : s.Planned q) {done : Relocation}
    (hrun : Runs (s.placements.toList.forM (relocateObject { s with output := ByteArray.empty } q))
      ⟨s.output, BitMap.empty (s.output.size / s.slotSize)⟩ () done) :
    s.Relocated q s.output (Placed.slots (os ++ cs) s.slotSize) done := by
  rw [h.placements] at hrun
  have hrelocated := relocated_of_runs (s := { s with output := ByteArray.empty })
    (ReferenceEncoding.isSlotSize _) h.of h.held
    h.ascending (by
      intro y hy
      rw [hq.size_output]
      exact Nat.le_trans (h.stop_le y hy) h.closedTop_le) hrun
  exact ⟨hrelocated.size, hrelocated.rewrites, hrelocated.bits, hrelocated.recorded⟩

/-- The stored address of a member that a note leads to. -/
theorem encode_storedRef (h : s.Filled g roots os cs ref)
    (haddresses : s.checkAddresses q = .ok ()) {i : ObjectId} {z : Placed} (hz : z ∈ os ++ cs)
    (hoffset : s.offsetOf? i = some z.offset) :
    s.options.encoding.encode (q.addressOf z.offset) = .ok (s.storedRef q i) := by
  obtain ⟨value, hvalue⟩ := of_checkAddresses haddresses (z.placement s.slotSize) (by
    rw [h.placements]
    exact List.mem_map.mpr ⟨z, hz, rfl⟩)
  change s.options.encoding.encode (q.addressOf z.offset) = .ok value at hvalue
  rw [storedRef, hoffset]
  dsimp only
  rw [hvalue]

/-- **The image behind relocation** has stored addresses in place of identities. -/
theorem standing (h : s.Filled g roots os cs ref) (hcheck : s.options.check = .ok ())
    (hend : s.options.heapEnd < 2 ^ 64) (hq : s.Planned q) {done : Relocation}
    (hdone : s.Relocated q s.output (Placed.slots (os ++ cs) s.slotSize) done)
    (recorded : Option BitMap) (phase : DumpPhase) :
    { s with output := done.output, recorded := recorded, phase := phase }.Standing q g roots os cs
      (s.storedRef q) := by
  obtain ⟨ha, -⟩ := DumpOptions.of_check hcheck
  have hslot : IsSlotSize s.slotSize := ReferenceEncoding.isSlotSize _
  obtain ⟨hbase, hdvd, hsum⟩ := plan_spec ha h.closedBottom_eq h.closedRow.le hq.plan
  refine ⟨⟨h.openRow, h.closedBottom_eq, h.closedRow, h.boundary, ?_, h.placements, h.root⟩, h.of,
    ?_, hdone.size.trans hq.size_output, hbase, hdvd, hsum⟩
  rotate_left
  · intro y hy
    apply Placed.Held.rewrite_references hy (h.held y hy) h.of hslot
      h.disjoint hdone.rewrites (fun _ => Iff.rfl)
    intro c hc target hv new hnew
    apply hnew.number_eq hv
    rintro i rfl
    obtain ⟨p, hslotOf, hidentity, hword, z, hz, hoffset⟩ := h.targets y hy c hc i hv
    have hoffsetOf : s.offsetOf? i = some z.offset := by
      rw [offsetOf?, hslotOf]
      exact hoffset
    have hencode := h.encode_storedRef hq.addresses hz hoffsetOf
    refine ⟨p, z.offset, hidentity, hword, hoffset, hencode, ?_⟩
    refine ReferenceEncoding.encode_lt ?_ hencode
    -- Members are below the heap end.
    have hstop := h.stop_le z hz
    have hsize := z.member.size_pos s.slotSize
    have htop := h.closedTop_le
    have hdown := alignDown_le s.options.heapEnd s.options.alignment
    rw [Placed.stop] at hstop
    rw [RequestedRegions.addressOf]
    omega
  · intro j hj
    have hout : ∀ p ∈ Placed.slots (os ++ cs) s.slotSize, j < p ∨ p + s.slotSize ≤ j := by
      intro p hp
      obtain ⟨y, hy, k, hk, rfl⟩ := Placed.mem_slots.mp hp
      have hk' := (h.of y hy).bounds_of_referenceOffsets hslot hk
      have hbounds := h.bounds y hy
      have hbottom := h.openTop_le
      have htop := h.closedRow.le
      change s.openTop ≤ j ∧ j < s.closedBottom ∨ s.closedTop ≤ j at hj
      rw [Placed.stop] at hbounds
      omega
    exact (hdone.rewrites.outside j hout).trans (h.zero j hj)

end Filled

end HeapImage.DumpSession
