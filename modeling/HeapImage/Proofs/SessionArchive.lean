import HeapImage.Proofs.DerivedMaps
import HeapImage.Proofs.DumpedMembers
import HeapImage.Proofs.SessionStates

/-! # The archive of a session

A session that has been relocated has an archive, whatever calls have led there. Its maps pass their
check, and the walk through both regions finds as many objects as the header says.

* `Archive.walk`: the objects of a region.
* `DumpSession.Standing.exists_maps`: maps can be derived from a relocated image.
* `Archive.checkMaps_assemble`, `Archive.walk_assemble`: the archive of such an image.
* `DumpSession.Stands.exists_archive`, `DumpSession.Stands.archive`: the same for sessions. -/

namespace HeapImage

namespace DumpSession

variable {s : DumpSession} {q : RequestedRegions} {g : ObjectGraph} {roots : List ObjectId}
variable {os cs : List Placed} {ref : ObjectId → Nat} {recorded : BitMap}

/-! ## Maps of a relocated image -/

/-- The record of a relocation has a bit for every slot of the members `xs`. -/
structure Records (s : DumpSession) (xs : List Placed) (recorded : BitMap) : Prop where
  eq : s.recorded = some recorded
  size : recorded.size = s.output.size / s.slotSize
  bits : ∀ i, recorded.contains i = true ↔ ∃ p ∈ Placed.slots xs s.slotSize, p / s.slotSize = i

namespace Standing

/-- The slots of all members that lie in a region are those of its members. -/
theorem mem_slots_iff (h : s.Standing q g roots os cs ref) (region : Region) {p : Nat}
    (hlow : (s.range region).bottom ≤ p) (hhigh : p < (s.range region).top) :
    p ∈ Placed.slots (os ++ cs) s.slotSize ↔
      p ∈ Placed.slots (Archive.membersIn os cs region) s.slotSize := by
  have hslot : IsSlotSize s.slotSize := ReferenceEncoding.isSlotSize _
  have hopen := fun hp => h.openRow.bounds_of_mem_slots (i := p) hslot
    (fun x hx => h.of x (List.mem_append_left _ hx)) hp
  have hclosed := fun hp => h.closedRow.bounds_of_mem_slots (i := p) hslot
    (fun x hx => h.of x (List.mem_append_right _ hx)) hp
  have hle := h.openTop_le
  rw [Placed.slots_append, List.mem_append]
  cases region with
  | opened =>
    refine or_iff_left fun hp => ?_
    have hbounds := hclosed hp
    change p < s.openTop at hhigh
    omega
  | closed =>
    refine or_iff_right fun hp => ?_
    have hbounds := hopen hp
    change s.closedBottom ≤ p at hlow
    omega

/-- Slots start at multiples of their size in both regions. -/
theorem slotSize_dvd_bottom (h : s.Standing q g roots os cs ref) (hcheck : s.options.check = .ok ())
    (region : Region) : s.slotSize ∣ (s.range region).bottom := by
  refine Nat.dvd_trans (ReferenceEncoding.isSlotSize _).dvd_wordSize ?_
  cases region with
  | opened => exact Nat.dvd_zero _
  | closed => exact h.wordSize_dvd_closedBottom hcheck

/-- The maps of a region can be derived, and agree with the record. -/
theorem exists_regionMaps (h : s.Standing q g roots os cs ref) (hcheck : s.options.check = .ok ())
    (hrecords : s.Records (os ++ cs) recorded) (region : Region) :
    ∃ maps, s.regionMaps recorded region = .ok maps := by
  have hslot : IsSlotSize s.slotSize := ReferenceEncoding.isSlotSize _
  have hrow := h.row region
  have htop := h.range_top_le region
  have hof : ∀ x ∈ Archive.membersIn os cs region, x.member.Of g s.registry roots :=
    fun x hx => h.of x (Archive.mem_append_of_membersIn hx)
  have hheld : ∀ x ∈ Archive.membersIn os cs region,
      x.Held s.slotSize ref id (Bytes.get s.output) :=
    fun x hx => h.held x (Archive.mem_append_of_membersIn hx)
  obtain ⟨maps, hmaps⟩ : ∃ maps, RegionMaps.derive (s.output.extract (s.range region).bottom
      (s.range region).top) s.registry s.slotSize s.options.native = .ok maps :=
    RegionMaps.exists_derive hslot hrow hof hheld htop
  have hbottom := h.slotSize_dvd_bottom hcheck region
  have hsize : maps.references.size =
      ((s.range region).top - (s.range region).bottom) / s.slotSize := by
    obtain ⟨_, -, hmarks⟩ := RegionMaps.of_derive hmaps
    rw [hmarks.sizeReferences, ByteArray.size_extract, Nat.min_eq_left htop]
  refine ⟨maps, ?_⟩
  rw [regionMaps, Except.bind_eq_ok]
  refine ⟨maps, hmaps, ?_⟩
  rw [Except.bind_eq_ok]
  -- The record has the slots of both regions; those of the other region lie outside this one.
  refine ⟨(), (RegionMaps.marksMembers_of_derive hslot hrow hof hheld htop hmaps).crossCheck_eq_ok
    hslot.pos hbottom hsize ?_ hrecords.bits ?_ fun p => h.mem_slots_iff region, rfl⟩
  · rw [hsize, hrecords.size, Nat.add_comm, ← Nat.add_mul_div_left _ _ hslot.pos,
      Nat.mul_div_cancel' hbottom, Nat.sub_add_cancel hrow.le]
    exact Nat.div_le_div_right htop
  · intro p hp
    obtain ⟨x, hx, k, hk, rfl⟩ := Placed.mem_slots.mp hp
    exact Nat.dvd_add
      (Nat.dvd_trans hslot.dvd_wordSize (h.wordSize_dvd_offset hcheck x hx))
      ((h.of x hx).bounds_of_referenceOffsets hslot hk).2.2

/-- **Maps can be derived** from a relocated image. -/
theorem exists_maps (h : s.Standing q g roots os cs ref) (hcheck : s.options.check = .ok ())
    (hphase : s.phase = .relocated) (hrecords : s.Records (os ++ cs) recorded) :
    ∃ opened closed, s.maps = .ok (opened, closed) := by
  obtain ⟨opened, hopened⟩ := h.exists_regionMaps hcheck hrecords .opened
  obtain ⟨closed, hclosed⟩ := h.exists_regionMaps hcheck hrecords .closed
  refine ⟨opened, closed, ?_⟩
  rw [maps, Except.guard_eq_ok, hrecords.eq]
  refine ⟨not_not.mpr hphase, ?_⟩
  dsimp only
  rw [hopened, hclosed]
  rfl

end Standing

end DumpSession

namespace Archive

variable {s : DumpSession} {q : RequestedRegions} {g : ObjectGraph} {roots : List ObjectId}
variable {os cs : List Placed} {ref : ObjectId → Nat} {opened closed : RegionMaps}

/-! ## The archive of a relocated image -/

/-- The objects of a region, and what stands in the way of tiling the region with them. -/
def walk (a : Archive) (region : Region) : List ObjectSpan × Option (Nat × StreamFault) :=
  let b := a.image.extract (a.header.range region).bottom (a.header.range region).top
  ObjectSpan.scan b a.types a.header.refSize.toNat 0 b.size

/-- The header of a dump has the requested addresses of the native image. -/
theorem native_assemble (hs : s.Standing q g roots os cs ref) (hwords : s.options.InWords)
    (hcheck : s.options.check = .ok ()) :
    (assemble (headerOf s q) s.output s.registry opened closed).header.native =
      s.options.native := by
  have hfields := headerSays_assemble s.registry opened closed hs hwords hcheck
  obtain ⟨-, -, -, hle, -⟩ := DumpOptions.of_check hcheck
  have hlt := hwords.native_lt
  have htop : s.options.native.bottom + s.options.native.length = s.options.native.top := by
    rw [Extent.length]
    omega
  rw [ArchiveHeader.native, hfields.nativeBase, hfields.nativeSize, htop,
    Nat.min_eq_right (by omega)]

/-- **The maps of a dump** pass their check. -/
theorem checkMaps_assemble (hs : s.Standing q g roots os cs ref) (hwords : s.options.InWords)
    (hcheck : s.options.check = .ok ()) (hmaps : s.maps = .ok (opened, closed)) :
    (assemble (headerOf s q) s.output s.registry opened closed).checkMaps = .ok () := by
  have hfields := headerSays_assemble s.registry opened closed hs hwords hcheck
  obtain ⟨hopened, hclosed⟩ := derive_of_maps hmaps
  refine Except.forM_eq_ok.mpr ?_
  intro region _
  rw [checkRegionMaps, Except.bind_eq_ok, hfields.range, refSize_assemble hcheck,
    native_assemble hs hwords hcheck]
  cases region with
  | opened =>
    refine ⟨opened, hopened, ?_⟩
    rw [Except.bind_eq_ok]
    exact ⟨⟨⟩, crossCheck_self _ _, crossCheck_self _ _⟩
  | closed =>
    refine ⟨closed, hclosed, ?_⟩
    rw [Except.bind_eq_ok]
    exact ⟨⟨⟩, crossCheck_self _ _, crossCheck_self _ _⟩

/-- **A walk** through a region of a dump finds its members. -/
theorem walk_assemble (hs : s.Standing q g roots os cs ref) (hwords : s.options.InWords)
    (hcheck : s.options.check = .ok ()) (region : Region) :
    (assemble (headerOf s q) s.output s.registry opened closed).walk region =
      (((membersIn os cs region).map (Placed.down (s.range region).bottom)).map
        (Placed.span s.slotSize), none) := by
  have hfields := headerSays_assemble s.registry opened closed hs hwords hcheck
  rw [walk, hfields.range, refSize_assemble hcheck]
  refine (ObjectSpan.scan_eq (Nat.zero_le _)).mpr ?_
  exact (hs.row region).spans_extract (ReferenceEncoding.isSlotSize _)
    (fun x hx => hs.of x (mem_append_of_membersIn hx))
    (fun x hx => hs.held x (mem_append_of_membersIn hx)) (hs.range_top_le region)

/-- An archive of a session with addresses and maps is assembled from them. -/
theorem ofSession_eq (hmaps : s.maps = .ok (opened, closed)) (hq : s.requested = some q) :
    ofSession s = .ok (assemble (headerOf s q) s.output s.registry opened closed) := by
  rw [ofSession, hmaps, hq]
  rfl

/-- Only a relocated session has an archive. -/
theorem phase_of_ofSession {a : Archive} (h : ofSession s = .ok a) : s.phase = .relocated := by
  obtain ⟨_, hmaps, -⟩ := Except.bind_eq_ok.mp h
  rw [DumpSession.maps, Except.guard_eq_ok] at hmaps
  exact not_not.mp hmaps.1

end Archive

namespace DumpSession

variable {s : DumpSession} {g : ObjectGraph}

/-! ## The archive of a session that stands -/

/-- A relocated session has an image, and maps can be derived from it. -/
theorem Stands.exists_maps (h : s.Stands g) (hcheck : s.options.check = .ok ())
    (hwords : s.options.InWords) (hphase : s.phase = .relocated) :
    ∃ q roots os cs ref opened closed, s.requested = some q ∧
      s.Standing q g roots os cs ref ∧ s.maps = .ok (opened, closed) := by
  cases h with
  | relocated resolved both planned relocation eq =>
    rename_i s' roots _ xs os cs q done
    subst eq
    have hstanding := (both.filled resolved).standing hcheck hwords.heapEnd_lt planned relocation
      (some done.recorded) .relocated
    have hrecords : { s' with
        output := done.output
        recorded := some done.recorded
        phase := .relocated }.Records (os ++ cs) done.recorded := by
      refine ⟨rfl, ?_, relocation.recorded⟩
      rw [relocation.bits, relocation.size]
      rfl
    obtain ⟨opened, closed, hmaps⟩ := hstanding.exists_maps hcheck rfl hrecords
    exact ⟨q, roots, os, cs, _, opened, closed, planned.requested, hstanding, hmaps⟩
  | _ phase => rw [phase] at hphase; cases hphase

/-- **A session has an archive** exactly if it has been relocated. -/
theorem Stands.exists_archive (h : s.Stands g) (hcheck : s.options.check = .ok ())
    (hwords : s.options.InWords) :
    (∃ a, Archive.ofSession s = .ok a) ↔ s.phase = .relocated := by
  constructor
  · rintro ⟨a, ha⟩
    exact Archive.phase_of_ofSession ha
  · intro hphase
    obtain ⟨q, roots, os, cs, ref, opened, closed, hq, -, hmaps⟩ :=
      h.exists_maps hcheck hwords hphase
    exact ⟨_, Archive.ofSession_eq hmaps hq⟩

/-- **The archive of a session** passes the check of its maps, and has as many objects as it says.
-/
theorem Stands.archive (h : s.Stands g) (hcheck : s.options.check = .ok ())
    (hwords : s.options.InWords) {a : Archive} (ha : Archive.ofSession s = .ok a) :
    a.checkMaps = .ok () ∧ (∀ region, (a.walk region).2 = none) ∧
      a.header.objectCount.toNat = (a.walk .opened).1.length + (a.walk .closed).1.length := by
  obtain ⟨q, roots, os, cs, ref, opened, closed, hq, hs, hmaps⟩ :=
    h.exists_maps hcheck hwords (Archive.phase_of_ofSession ha)
  rw [Archive.ofSession_eq hmaps hq, Except.ok.injEq] at ha
  subst ha
  have hfields := Archive.headerSays_assemble s.registry opened closed hs hwords hcheck
  refine ⟨Archive.checkMaps_assemble hs hwords hcheck hmaps, ?_, ?_⟩
  · intro region
    rw [Archive.walk_assemble hs hwords hcheck]
  · rw [hfields.objectCount, Archive.walk_assemble hs hwords hcheck,
      Archive.walk_assemble hs hwords hcheck, ← Array.length_toList, hs.placements]
    simp only [List.length_map, List.length_append, Archive.membersIn]

end DumpSession

end HeapImage
