import HeapImage.Proofs.SessionArchive

/-! # Calls in any order

Whatever is called on a session over one graph, in whatever order, and however often calls fail and
are made again: the output is made of copies that stand back to back, the notes lead to copies of
what they are about, and the session has an archive exactly if the calls that end its phases have
all succeeded, one after another.

* `DumpSession.Tiled`: how the recorded placements lie in the output.
* `DumpSession.HoldsCopy`: a copy, before and after relocation.
* `DumpSession.Consistent`: what holds of a session whatever has been called.
* `DumpSession.Stands.consistent`: it follows from what stands in each phase.
* `DumpSession.consistent_performAll`: the whole of it, for any calls. -/

namespace HeapImage

/-- Copying of a region has come to its end. -/
def DumpPhase.finished : DumpPhase → Region → Bool
  | staging, _ | linked, _ => false
  | openCopied, region => region = .opened
  | copied, _ | finalized, _ | relocated, _ => true

/-- Members that stand back to back have placements that do. -/
theorem Placed.Row.placements {slot start stop : Nat} {xs : List Placed}
    (h : Placed.Row slot start xs stop) :
    Tiles Placement.offset Placement.size start (xs.map (Placed.placement slot)) stop :=
  Tiles.map (d := 0) h (fun _ _ => rfl) fun _ _ => rfl

namespace DumpSession

variable {s s' t : DumpSession} {g : ObjectGraph} {roots : List ObjectId} {ref : ObjectId → Nat}
variable {xs os cs : List Placed} {x y : Placed}

/-! ## Placements -/

/-- The end of a region's placements: the top of the region, or as far as copying has come. -/
def reach (s : DumpSession) (region : Region) : Nat :=
  if s.phase.finished region then (s.range region).top else s.output.size

/-- The placements of both regions tile the output, with nothing but zeros up to a boundary in
between, and none of them crosses a boundary. -/
structure Tiled (s : DumpSession) (opened closed : List Placement) : Prop where
  placements : s.placements.toList = opened ++ closed
  opened : Tiles Placement.offset Placement.size 0 opened (s.reach .opened)
  unopened : s.phase.finished .opened = false → closed = []
  closed : s.phase.finished .opened = true →
    Tiles Placement.offset Placement.size s.closedBottom closed (s.reach .closed)
  padding : s.phase.finished .opened = true → s.options.alignment ∣ s.closedBottom ∧
    s.openTop ≤ s.closedBottom ∧ s.closedBottom < s.openTop + s.options.alignment ∧
    ∀ j, s.openTop ≤ j → j < s.closedBottom → Bytes.get s.output j = 0
  boundary : ∀ p ∈ s.placements.toList, 0 < p.size ∧
    p.offset / s.options.alignment = (p.offset + p.size - 1) / s.options.alignment
  inside : ∀ p ∈ s.placements.toList, p.offset + p.size ≤ s.output.size

/-- Members that stand back to back in both regions, as far as these have been copied. -/
theorem tiled_of_rows (os cs : List Placed) (hcheck : s.options.check = .ok ())
    (hplacements : s.placements.toList = (os ++ cs).map (Placed.placement s.slotSize))
    (hboundary : ∀ y ∈ os ++ cs, alignDown y.offset s.options.alignment =
      alignDown (y.stop s.slotSize - 1) s.options.alignment)
    (hinside : ∀ y ∈ os ++ cs, y.stop s.slotSize ≤ s.output.size)
    (hopened : Placed.Row s.slotSize 0 os (s.reach .opened))
    (hunopened : s.phase.finished .opened = false → cs = [])
    (hclosed : s.phase.finished .opened = true →
      Placed.Row s.slotSize s.closedBottom cs (s.reach .closed) ∧
      s.closedBottom = alignUp s.openTop s.options.alignment ∧
      ∀ j, s.openTop ≤ j → j < s.closedBottom → Bytes.get s.output j = 0) :
    s.Tiled (os.map (Placed.placement s.slotSize)) (cs.map (Placed.placement s.slotSize)) := by
  obtain ⟨ha, -⟩ := DumpOptions.of_check hcheck
  refine ⟨by rw [hplacements, List.map_append], hopened.placements, ?_, ?_, ?_, ?_, ?_⟩
  · intro hfinished
    rw [hunopened hfinished, List.map_nil]
  · exact fun hfinished => (hclosed hfinished).1.placements
  · intro hfinished
    obtain ⟨-, hbottom, hzero⟩ := hclosed hfinished
    rw [hbottom] at hzero ⊢
    exact ⟨dvd_alignUp ha _, le_alignUp _ _, alignUp_lt ha _, hzero⟩
  · rw [hplacements]
    refine List.forall_mem_map.mpr ?_
    intro y hy
    exact ⟨y.member.size_pos _, (alignDown_eq_alignDown_iff ha).mp (hboundary y hy)⟩
  · rw [hplacements]
    exact List.forall_mem_map.mpr hinside

/-- Both regions are complete. -/
theorem Regions.tiled (h : s.Regions os cs) (hcheck : s.options.check = .ok ())
    (hfinished : ∀ region, s.phase.finished region = true) (hsize : s.closedTop ≤ s.output.size) :
    s.Tiled (os.map (Placed.placement s.slotSize)) (cs.map (Placed.placement s.slotSize)) := by
  have hreach : ∀ region, s.reach region = (s.range region).top :=
    fun region => if_pos (hfinished region)
  refine tiled_of_rows os cs hcheck h.placements h.boundary
    (fun y hy => Nat.le_trans (h.stop_le y hy) hsize) ?_ ?_ ?_
  · rw [hreach]
    exact h.openRow
  · rw [hfinished]
    exact nofun
  · intro _
    rw [hreach]
    exact ⟨h.closedRow, h.closedBottom_eq, fun j hlow hhigh => h.zero j (.inl ⟨hlow, hhigh⟩)⟩

/-- **The output is tiled** by the placements in every phase. -/
theorem Stands.tiled (h : s.Stands g) (hcheck : s.options.check = .ok ())
    (hwords : s.options.InWords) : ∃ opened closed, s.Tiled opened closed := by
  cases h with
  | staging phase _ copies size =>
    refine ⟨_, _, tiled_of_rows [] [] hcheck copies.placements copies.boundary
      (fun _ hy => nomatch hy) ?_ (fun _ => rfl) ?_⟩
    · rw [reach, phase]
      exact size.symm
    · rw [phase]
      exact nofun
  | @linked _ _ _ ys phase _ copies row =>
    rw [← List.append_nil ys] at copies
    refine ⟨_, _, tiled_of_rows ys [] hcheck copies.placements copies.boundary ?_ ?_
      (fun _ => rfl) ?_⟩
    · rw [List.append_nil]
      exact fun y hy => (row.bounds y hy).2
    · rw [reach, phase]
      exact row
    · rw [phase]
      exact nofun
  | openCopied phase _ copies opened row =>
    have hle : s.openTop ≤ s.closedBottom := by
      rw [opened.closedBottom_eq]
      exact le_alignUp _ _
    refine ⟨_, _, tiled_of_rows _ _ hcheck copies.placements copies.boundary ?_ ?_ ?_ ?_⟩
    · refine List.forall_mem_append.mpr ⟨?_, fun y hy => (row.bounds y hy).2⟩
      exact fun y hy => Nat.le_trans (opened.openRow.bounds y hy).2 (Nat.le_trans hle row.le)
    · rw [reach, phase]
      exact opened.openRow
    · rw [phase]
      exact nofun
    · intro _
      rw [reach, phase]
      exact ⟨row, opened.closedBottom_eq, opened.gap⟩
  | copied phase _ both size =>
    refine ⟨_, _, both.tiled hcheck ?_ (Nat.le_of_eq size.symm)⟩
    rw [phase]
    exact fun _ => rfl
  | finalized phase _ both planned =>
    refine ⟨_, _, both.tiled hcheck ?_ (planned.size_output ▸ both.closedTop_le)⟩
    rw [phase]
    exact fun _ => rfl
  | relocated resolved both planned relocation eq =>
    -- Relocation changes reference slots only, so the members are where they were.
    subst eq
    have hstanding := (both.filled resolved).standing hcheck hwords.heapEnd_lt planned relocation
    have htop := (hstanding none .relocated).closedTop_le
    exact ⟨_, _, (hstanding _ .relocated).tiled hcheck (fun _ => rfl)
      ((hstanding none .relocated).size_output ▸ htop)⟩

/-! ## Copies -/

/-- Where the reference slots of the object at an offset of the staging buffer are, from where the
object starts. -/
def referenceFields (s : DumpSession) (slot : Nat) : List Nat :=
  match ObjectHeader.read? s.staging.bytes slot with
  | none => []
  | some header =>
    match s.registry.get? header.typeIndex with
    | none => []
    | some type => type.kind.referenceOffsets header.length s.slotSize

/-- At an offset of the output there is a copy of a part of the staging buffer. Relocation changes
the copy where its reference slots are. -/
structure HoldsCopy (s : DumpSession) (p : StagedPart) (offset : Nat) : Prop where
  whole : s.phase ≠ .relocated → ∀ k < p.size,
    Bytes.get s.output (offset + k) = Bytes.get s.staging.bytes (p.slot + k)
  outside : ∀ k < p.size, (∀ field ∈ s.referenceFields p.slot, k < field ∨ field + s.slotSize ≤ k) →
    Bytes.get s.output (offset + k) = Bytes.get s.staging.bytes (p.slot + k)

/-- A note leads to a placement with a copy of the part that it is about. -/
def LeadsToCopy (s : DumpSession) (slot offset : Nat) : Prop :=
  ∃ region, ∃ p ∈ s.parts region, p.slot = slot ∧ ⟨offset, p.size⟩ ∈ s.placements.toList ∧
    s.HoldsCopy p offset

/-- The reference slots of a staged member. -/
theorem Stocked.referenceFields_eq (h : s.Stocked g roots ref xs) (hx : x ∈ xs) :
    s.referenceFields x.offset = x.member.referenceOffsets s.slotSize := by
  have hheader := x.member.headerSize_le_size s.slotSize
  have hstop := (h.row.bounds x hx).2
  have hread := (h.stages.held x hx).read_header (by
    change x.offset + headerSize ≤ s.staging.size
    omega)
  rw [referenceFields, hread]
  dsimp only
  rw [show s.registry.get? x.member.object.header.typeIndex = some x.member.type from
    (h.stages.of x hx).type]
  rfl

/-- The part that a note is about, and the placement that it leads to. -/
theorem Copies.exists_part {ys : List Placed} (h : s.Copies xs ys)
    (hstocked : s.Stocked g roots ref xs) {slot offset : Nat}
    (hoffset : s.offsets[slot]? = some offset) :
    ∃ x ∈ xs, ∃ y ∈ ys, x.offset = slot ∧ y.offset = offset ∧ s.Replica x y ∧
      partOf s.slotSize x ∈ s.parts x.member.region ∧
      ⟨y.offset, x.member.size s.slotSize⟩ ∈ s.placements.toList := by
  obtain ⟨x, hx, y, hy, hslot, hyoffset, hreplica⟩ := h.noted _ _ hoffset
  refine ⟨x, hx, y, hy, hslot, hyoffset, hreplica,
    hstocked.mem_parts.mpr ⟨x, hx, rfl, rfl⟩, ?_⟩
  rw [h.placements]
  refine List.mem_map.mpr ⟨y, hy, ?_⟩
  rw [Placed.placement, hreplica.member]

/-- **Before relocation**, notes lead to copies. -/
theorem Copies.leadsToCopy {ys : List Placed} (h : s.Copies xs ys)
    (hstocked : s.Stocked g roots ref xs) {slot offset : Nat}
    (hoffset : s.offsets[slot]? = some offset) : s.LeadsToCopy slot offset := by
  obtain ⟨x, -, y, -, rfl, rfl, hreplica, hpart, hplacement⟩ := h.exists_part hstocked hoffset
  exact ⟨_, _, hpart, rfl, hplacement, fun _ => hreplica.bytes, fun k hk _ => hreplica.bytes k hk⟩

/-- Relocation keeps what is outside the reference slots of a member. -/
theorem Regions.outside_slots (h : s.Regions os cs)
    (hof : ∀ z ∈ os ++ cs, z.member.Of g s.registry roots) (hy : y ∈ os ++ cs) {k : Nat}
    (hk : k < y.member.size s.slotSize)
    (hout : ∀ field ∈ y.member.referenceOffsets s.slotSize, k < field ∨ field + s.slotSize ≤ k) :
    ∀ p ∈ Placed.slots (os ++ cs) s.slotSize, y.offset + k < p ∨ p + s.slotSize ≤ y.offset + k := by
  have hslot : IsSlotSize s.slotSize := ReferenceEncoding.isSlotSize _
  intro p hp
  obtain ⟨z, hz, field, hfield, rfl⟩ := Placed.mem_slots.mp hp
  rcases h.disjoint y hy z hz with rfl | hbefore | hafter
  · have := hout field hfield
    omega
  · rw [Placed.stop] at hbefore
    omega
  · have hinside := (hof z hz).bounds_of_referenceOffsets hslot hfield
    rw [Placed.stop] at hafter
    omega

/-- **Every note leads to a copy** in every phase. -/
theorem Stands.leadsToCopy (h : s.Stands g) {slot offset : Nat}
    (hoffset : s.offsets[slot]? = some offset) : s.LeadsToCopy slot offset := by
  cases h with
  | staging _ stocked copies _ => exact copies.leadsToCopy stocked hoffset
  | linked _ resolved copies _ => exact copies.leadsToCopy resolved.toStocked hoffset
  | openCopied _ resolved copies _ _ => exact copies.leadsToCopy resolved.toStocked hoffset
  | copied _ resolved both _ => exact both.copies.leadsToCopy resolved.toStocked hoffset
  | finalized _ resolved both _ => exact both.copies.leadsToCopy resolved.toStocked hoffset
  | relocated resolved both planned relocation eq =>
    rename_i s' roots ref xs os cs q done
    subst eq
    obtain ⟨x, hx, y, hy, rfl, rfl, hreplica, hpart, hplacement⟩ :=
      both.copies.exists_part resolved.toStocked hoffset
    refine ⟨_, _, hpart, rfl, hplacement, fun hphase => absurd rfl hphase, ?_⟩
    intro k hk hout
    -- A byte outside the reference slots of its own member is outside those of all others too.
    have hfields : ∀ field ∈ y.member.referenceOffsets s'.slotSize,
        k < field ∨ field + s'.slotSize ≤ k := by
      rw [hreplica.member, ← resolved.toStocked.referenceFields_eq hx]
      exact hout
    refine (relocation.rewrites.outside _ ?_).trans (hreplica.bytes k hk)
    exact both.outside_slots (both.filled resolved).of hy (by rwa [hreplica.member]) hfields

/-! ## Finished regions -/

/-- **What has been copied has notes**: everything that was staged for a region, once the region is
finished. -/
theorem Stands.noted (h : s.Stands g) {region : Region}
    (hfinished : s.phase.finished region = true) :
    ∀ p ∈ s.parts region, ∃ offset, s.offsets[p.slot]? = some offset := by
  have hparts : ∀ {t : DumpSession} {roots ref xs}, t.Stocked g roots ref xs →
      t.Noted (xs.filter fun x => x.member.region = region) →
        ∀ p ∈ t.parts region, ∃ offset, t.offsets[p.slot]? = some offset := by
    intro t roots ref xs hstocked hnoted p hp
    obtain ⟨x, hx, hregion, rfl⟩ := hstocked.mem_parts.mp hp
    exact hnoted x (List.mem_filter.mpr ⟨hx, decide_eq_true hregion⟩)
  have hall : ∀ {t : DumpSession} {xs}, t.Noted xs →
      t.Noted (xs.filter fun x => x.member.region = region) :=
    fun hnoted x hx => hnoted x (List.mem_filter.mp hx).1
  cases h with
  | staging phase _ _ _ => rw [phase] at hfinished; cases hfinished
  | linked phase _ _ _ => rw [phase] at hfinished; cases hfinished
  -- Halfway, this is known of the open region only.
  | openCopied phase resolved _ opened _ =>
    rw [phase] at hfinished
    obtain rfl : region = .opened := of_decide_eq_true hfinished
    exact hparts resolved.toStocked opened.noted
  | copied _ resolved both _ => exact hparts resolved.toStocked (hall both.noted)
  | finalized _ resolved both _ => exact hparts resolved.toStocked (hall both.noted)
  | relocated resolved both _ _ eq =>
    subst eq
    have hnoted := hparts resolved.toStocked (hall both.noted)
    exact hnoted

/-- A session has a root array once it has been linked. -/
theorem Stands.hasRoots (h : s.Stands g) (hphase : s.phase ≠ .staging) :
    s.staging.roots.isSome = true := by
  cases h with
  | staging phase _ _ _ => exact absurd phase hphase
  | linked _ resolved _ _ => exact resolved.hasRoots
  | openCopied _ resolved _ _ _ => exact resolved.hasRoots
  | copied _ resolved _ _ => exact resolved.hasRoots
  | finalized _ resolved _ _ => exact resolved.hasRoots
  | relocated resolved _ _ _ eq =>
    subst eq
    exact resolved.hasRoots

/-! ## Any calls -/

/-- What holds of a session whatever has been called. -/
structure Consistent (s : DumpSession) : Prop where
  tiled : ∃ opened closed, s.Tiled opened closed
  copies : ∀ slot offset, s.offsets[slot]? = some offset → s.LeadsToCopy slot offset
  noted : ∀ region, s.phase.finished region = true → ∀ p ∈ s.parts region,
    ∃ offset, s.offsets[p.slot]? = some offset
  hasRoots : s.phase ≠ .staging → s.staging.roots.isSome = true

/-- A session in any of its states is consistent. -/
theorem Stands.consistent (h : s.Stands g) (hcheck : s.options.check = .ok ())
    (hwords : s.options.InWords) : s.Consistent where
  tiled := h.tiled hcheck hwords
  copies _ _ hoffset := h.leadsToCopy hoffset
  noted _ hfinished := h.noted hfinished
  hasRoots := h.hasRoots

/-- **Calls in any order**, over one graph, keep a session consistent. The session has an archive
exactly if linking, copying both regions, finalizing and relocating have succeeded once each and in
this order; then the maps of the archive pass their check, and both regions are tiled by as many
objects as the archive says. -/
theorem consistent_performAll {r : TypeRegistry} {o : DumpOptions} {s₀ : DumpSession}
    (g : ObjectGraph) (hwords : o.InWords) (hstart : start? r o = .ok s₀) (calls : List DumpCall) :
    (performAll g s₀ calls).2.Consistent ∧
      ((∃ a, Archive.ofSession (performAll g s₀ calls).2 = .ok a) ↔
        (performAll g s₀ calls).1.filter DumpCall.advances =
          [.link, .copy .opened, .copy .closed, .finalize, .relocate]) ∧
      ∀ a, Archive.ofSession (performAll g s₀ calls).2 = .ok a →
        a.checkMaps = .ok () ∧ (∀ region, (a.walk region).2 = none) ∧
          a.header.objectCount.toNat = (a.walk .opened).1.length + (a.walk .closed).1.length := by
  obtain ⟨-, hphase, -⟩ := stands_of_start? g hstart
  obtain ⟨hreached, hcheck, hwords⟩ := stands_of_calls g hwords hstart calls
  refine ⟨hreached.consistent hcheck hwords, ?_, fun a ha => hreached.archive hcheck hwords ha⟩
  rw [hreached.exists_archive hcheck hwords, filter_advances g calls hphase]
  exact DumpPhase.trace_inj.symm

/-- Calls that copy the open region twice: five roots do not fit behind the first pair, but behind
its second copy they start at a boundary. -/
def retriedCalls : List DumpCall :=
  [.allocate ⟨0⟩ .opened, .allocate ⟨1⟩ .closed, .allocateRoots [⟨0⟩, ⟨0⟩, ⟨0⟩, ⟨0⟩, ⟨0⟩], .link,
    .copy .opened, .copy .opened, .copy .closed, .finalize, .relocate]

/-- Such a session has an archive, with one object more than was staged. -/
theorem consistent_performAll_cycle : ∃ a, DumpOptions.small.InWords ∧
    start? .pairs .small = .ok (start .pairs .small) ∧
    (performAll .cycle (start .pairs .small) retriedCalls).2.Consistent ∧
    Archive.ofSession (performAll .cycle (start .pairs .small) retriedCalls).2 = .ok a ∧
    a.checkMaps = .ok () ∧ (∀ region, (a.walk region).2 = none) ∧
    a.header.objectCount.toNat = (a.walk .opened).1.length + (a.walk .closed).1.length ∧
    a.header.objectCount = 4 := by
  obtain ⟨hconsistent, -, hchecks⟩ :=
    consistent_performAll .cycle DumpOptions.inWords_small start?_small retriedCalls
  obtain ⟨a, ha, hcount⟩ : ∃ a,
      Archive.ofSession (performAll .cycle (start .pairs .small) retriedCalls).2 = .ok a ∧
        decide (a.header.objectCount = 4) = true :=
    Except.exists_of_any (by decide +kernel)
  obtain ⟨hmaps, hwalk, hobjects⟩ := hchecks a ha
  exact ⟨a, DumpOptions.inWords_small, start?_small, hconsistent, ha, hmaps, hwalk, hobjects,
    of_decide_eq_true hcount⟩

end DumpSession

end HeapImage
