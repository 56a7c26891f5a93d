import HeapImage.Proofs.SessionArchive

/-! # Sessions that have been finalized

Whatever can go wrong in a dump goes wrong before addresses have been chosen. Behind that,
relocation succeeds and the maps of both regions can be derived: every identity leads to an object
that has been copied and whose address can be stored, and the slots that a walk through the regions
finds are those that relocation has met.

* `DumpSession.Coincide`: the maps of both regions say what a record of the whole output says.
* `DumpSession.Standing.coincide`: it holds of maps that have been derived.
* `DumpSession.Stands.exists_relocation`: relocation and the maps behind it succeed.
* `DumpSession.relocation_performAll`: the same behind any calls. -/

namespace HeapImage.DumpSession

variable {s t : DumpSession} {q : RequestedRegions} {g : ObjectGraph} {roots : List ObjectId}
variable {os cs : List Placed} {ref : ObjectId → Nat} {recorded : BitMap}
variable {opened closed : RegionMaps} {requested : RequestedRegions}

/-! ## Maps and records -/

/-- The maps of the open and the closed region by their region. -/
def mapsOf (opened closed : RegionMaps) : Region → RegionMaps
  | .opened => opened
  | .closed => closed

/-- The reference maps of the regions have a bit for every slot of their region. They are sections
of a record of all slots of the output, and the record has no bits outside them. -/
structure Coincide (s : DumpSession) (recorded : BitMap) (maps : Region → RegionMaps) : Prop where
  size : ∀ region, (maps region).references.size =
    ((s.range region).top - (s.range region).bottom) / s.slotSize
  bits : ∀ region, ∀ i < (maps region).references.size,
    (maps region).references.contains i =
      recorded.contains ((s.range region).bottom / s.slotSize + i)
  covered : ∀ j, recorded.contains j = true → ∃ region, ∃ i < (maps region).references.size,
    j = (s.range region).bottom / s.slotSize + i

/-- The maps of a region have been derived from it, and agree with the record. -/
theorem of_regionMaps {maps : RegionMaps} {region : Region}
    (h : s.regionMaps recorded region = .ok maps) :
    RegionMaps.derive (s.output.extract (s.range region).bottom (s.range region).top) s.registry
        s.slotSize s.options.native = .ok maps ∧
      crossCheck maps.references recorded ((s.range region).bottom / s.slotSize) region =
        .ok () := by
  obtain ⟨maps', hderive, h⟩ := Except.bind_eq_ok.mp h
  obtain ⟨⟨⟩, hcross, h⟩ := Except.bind_eq_ok.mp h
  rw [Except.pure_eq_ok] at h
  subst h
  exact ⟨hderive, hcross⟩

/-- The maps of a session that has a record are those of its regions. -/
theorem of_maps (h : s.maps = .ok (opened, closed)) (hrecorded : s.recorded = some recorded) :
    ∀ region, s.regionMaps recorded region = .ok (mapsOf opened closed region) := by
  rw [maps, Except.guard_eq_ok, hrecorded] at h
  obtain ⟨-, h⟩ := h
  obtain ⟨opened', hopened, h⟩ := Except.bind_eq_ok.mp h
  obtain ⟨closed', hclosed, h⟩ := Except.bind_eq_ok.mp h
  rw [Except.pure_eq_ok, Prod.mk.injEq] at h
  obtain ⟨rfl, rfl⟩ := h
  intro region
  cases region with
  | opened => exact hopened
  | closed => exact hclosed

/-- **Maps that have been derived** coincide with the record of relocation. -/
theorem Standing.coincide (h : s.Standing q g roots os cs ref) (hcheck : s.options.check = .ok ())
    (hrecords : s.Records (os ++ cs) recorded) (hmaps : s.maps = .ok (opened, closed)) :
    s.Coincide recorded (mapsOf opened closed) := by
  have hslot : IsSlotSize s.slotSize := ReferenceEncoding.isSlotSize _
  have hregion := fun region => of_regionMaps (of_maps hmaps hrecords.eq region)
  have hsize : ∀ region, (mapsOf opened closed region).references.size =
      ((s.range region).top - (s.range region).bottom) / s.slotSize := by
    intro region
    obtain ⟨_, -, hmarks⟩ := RegionMaps.of_derive (hregion region).1
    rw [hmarks.sizeReferences, ByteArray.size_extract, Nat.min_eq_left (h.range_top_le region)]
  refine ⟨hsize, fun region => (crossCheck_eq_ok.mp (hregion region).2).2, ?_⟩
  intro j hj
  obtain ⟨p, hp, rfl⟩ := (hrecords.bits j).mp hj
  obtain ⟨x, hx, k, hk, rfl⟩ := Placed.mem_slots.mp hp
  obtain ⟨-, hstop, -⟩ := (h.of x hx).bounds_of_referenceOffsets hslot hk
  -- The slot is one of a member, and the member lies in one of the regions.
  obtain ⟨region, hlow, hhigh⟩ : ∃ region, (s.range region).bottom ≤ x.offset ∧
      x.stop s.slotSize ≤ (s.range region).top := by
    rcases List.mem_append.mp hx with hx | hx
    · exact ⟨.opened, h.openRow.bounds x hx⟩
    · exact ⟨.closed, h.closedRow.bounds x hx⟩
  refine ⟨region, (x.offset - (s.range region).bottom + k) / s.slotSize, ?_, ?_⟩
  · rw [hsize]
    refine BitMap.div_lt_div_of_add_le hslot.pos ?_
    rw [Placed.stop] at hhigh
    omega
  · obtain ⟨m, hm⟩ := h.slotSize_dvd_bottom hcheck region
    rw [hm, Nat.mul_div_cancel_left _ hslot.pos, ← Nat.mul_add_div hslot.pos, ← hm]
    congr 1
    omega

/-! ## Relocation of a finalized session -/

/-- Relocation of a finalized session does what its pass over the copied objects does. -/
theorem runs_relocate {done : Relocation} (hphase : s.phase = .finalized)
    (hrequested : s.requested = some requested)
    (hrun : Runs
      (s.placements.toList.forM (relocateObject { s with output := ByteArray.empty } requested))
      ⟨s.output, BitMap.empty (s.output.size / s.slotSize)⟩ () done) :
    Runs relocate s () { s with
      output := done.output
      recorded := some done.recorded
      phase := .relocated } := by
  rw [relocate, runs_expect_bind]
  refine ⟨hphase, ?_⟩
  rw [runs_get_bind]
  split
  · rename_i hnone
    rw [hrequested] at hnone
    cases hnone
  · rename_i requested' hsome
    obtain rfl : requested = requested' := Option.some.inj (hrequested.symm.trans hsome)
    rw [runs_modifyGet_bind]
    dsimp only
    split
    rename_i result done' hpass
    obtain ⟨rfl, rfl⟩ := Prod.mk.inj (hpass.symm.trans hrun)
    rw [runs_modify_bind, attempt, runs_ofExcept_bind]
    exact ⟨(), rfl, runs_modify.mpr rfl⟩

/-- **Nothing fails behind finalizing**: relocation succeeds, the maps of both regions can be
derived, and they coincide with the slots that relocation has recorded. -/
theorem Stands.exists_relocation (h : s.Stands g) (hcheck : s.options.check = .ok ())
    (hwords : s.options.InWords) (hphase : s.phase = .finalized) :
    ∃ t recorded opened closed, Runs relocate s () t ∧ t.recorded = some recorded ∧
      t.maps = .ok (opened, closed) ∧ t.Coincide recorded (mapsOf opened closed) := by
  obtain ⟨roots, ref, xs, os, cs, q, hresolved, hboth, hplanned⟩ := h.of_finalized hphase
  have hfilled := hboth.filled hresolved
  obtain ⟨done, hrun⟩ := hfilled.exists_runs hplanned
  have hrelocated := hfilled.relocated hplanned hrun
  have hstanding := hfilled.standing hcheck hwords.heapEnd_lt hplanned hrelocated
    (some done.recorded) .relocated
  have hrecords : { s with
      output := done.output
      recorded := some done.recorded
      phase := .relocated }.Records (os ++ cs) done.recorded := by
    refine ⟨rfl, ?_, hrelocated.recorded⟩
    rw [hrelocated.bits, hrelocated.size]
    rfl
  obtain ⟨opened, closed, hmaps⟩ := hstanding.exists_maps hcheck rfl hrecords
  exact ⟨_, done.recorded, opened, closed, runs_relocate hphase hplanned.requested hrun, rfl,
    hmaps, hstanding.coincide hcheck hrecords hmaps⟩

/-! ## Any calls -/

/-- A session has been finalized and not relocated if calls that do so have succeeded. -/
theorem phase_of_finalize_mem {calls : List DumpCall} (hstart : s.phase = .staging)
    (hfinalize : .finalize ∈ (performAll g s calls).1)
    (hrelocate : .relocate ∉ (performAll g s calls).1) :
    (performAll g s calls).2.phase = .finalized := by
  have hmem : ∀ c : DumpCall, c.advances = true →
      (c ∈ (performAll g s calls).1 ↔ c ∈ (performAll g s calls).2.phase.trace) := by
    intro c hc
    rw [← filter_advances g calls hstart, List.mem_filter]
    exact (and_iff_left hc).symm
  rw [hmem _ (by decide)] at hfinalize hrelocate
  cases hphase : (performAll g s calls).2.phase with
  | finalized => rfl
  | relocated => rw [hphase] at hrelocate; exact absurd (by decide) hrelocate
  | _ => rw [hphase] at hfinalize; exact absurd hfinalize (by decide)

/-- **No dump fails late.** Once a session over one graph has been finalized, whatever calls have
led there, relocation succeeds and the maps can be derived, and the maps of both regions coincide
with what relocation has recorded. -/
theorem relocation_performAll {r : TypeRegistry} {o : DumpOptions} {s₀ : DumpSession}
    (g : ObjectGraph) (hwords : o.InWords) (hstart : start? r o = .ok s₀) (calls : List DumpCall)
    (hfinalize : .finalize ∈ (performAll g s₀ calls).1)
    (hrelocate : .relocate ∉ (performAll g s₀ calls).1) :
    ∃ t recorded opened closed, Runs relocate (performAll g s₀ calls).2 () t ∧
      t.recorded = some recorded ∧ t.maps = .ok (opened, closed) ∧
      t.Coincide recorded (mapsOf opened closed) := by
  obtain ⟨-, hphase, -⟩ := stands_of_start? g hstart
  obtain ⟨hreached, hcheck, hwords⟩ := stands_of_calls g hwords hstart calls
  exact hreached.exists_relocation hcheck hwords (phase_of_finalize_mem hphase hfinalize hrelocate)

/-- Calls that stage a cycle through both regions and go on until addresses have been chosen; the
closed region cannot be copied before the open one. -/
def finalizingCalls : List DumpCall :=
  [.allocate ⟨0⟩ .opened, .allocate ⟨1⟩ .closed, .allocateRoots [⟨0⟩], .link, .copy .closed,
    .copy .opened, .copy .closed, .finalize]

/-- Such a session can be relocated and has maps that coincide with its record. -/
theorem relocation_performAll_cycle : ∃ t recorded opened closed, DumpOptions.small.InWords ∧
    start? .pairs .small = .ok (start .pairs .small) ∧
    .finalize ∈ (performAll .cycle (start .pairs .small) finalizingCalls).1 ∧
    .relocate ∉ (performAll .cycle (start .pairs .small) finalizingCalls).1 ∧
    Runs relocate (performAll .cycle (start .pairs .small) finalizingCalls).2 () t ∧
    t.recorded = some recorded ∧ t.maps = .ok (opened, closed) ∧
    t.Coincide recorded (mapsOf opened closed) := by
  have hfinalize : .finalize ∈ (performAll .cycle (start .pairs .small) finalizingCalls).1 := by
    decide +kernel
  have hrelocate : .relocate ∉ (performAll .cycle (start .pairs .small) finalizingCalls).1 := by
    decide +kernel
  obtain ⟨t, recorded, opened, closed, hrun, hrecorded, hmaps, hcoincide⟩ :=
    relocation_performAll .cycle DumpOptions.inWords_small start?_small finalizingCalls hfinalize
      hrelocate
  exact ⟨t, recorded, opened, closed, DumpOptions.inWords_small, start?_small, hfinalize,
    hrelocate, hrun, hrecorded, hmaps, hcoincide⟩

end HeapImage.DumpSession
