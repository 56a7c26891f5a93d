import HeapImage.Proofs.FileRoundTrip
import HeapImage.Proofs.MemberSpans

/-! # The members of a dumped archive

All that a load relies on when it takes the archive of a dump apart again: the members of both
regions, what their bytes are, and which of their cells the maps mark.

* `Archive.HoldsMembers`: an archive made of members of a graph.
* `DumpSession.Standing.marksMembers`: what the maps of an image mark.
* `Archive.holdsMembers_of_dump`: every dump is such an archive. -/

namespace HeapImage.Archive

/-- The regions of an archive are made of members of a graph, back to back, and its maps mark their
references and their native pointers into a native image. -/
structure HoldsMembers (a : Archive) (g : ObjectGraph) (r : TypeRegistry) (roots : List ObjectId)
    (native : Extent) (members : Region → List Placed) (ref : ObjectId → Nat) : Prop where
  regions : a.header.SoundRegions
  size : a.image.size = a.header.imageLength.toNat
  types : a.types = r
  aligned : wordSize ∣ a.header.closedOffset.toNat
  below : a.header.requestedBase.toNat + a.image.size < 2 ^ 64
  nativeBase : a.header.nativeBase = UInt64.ofNat native.bottom
  row : ∀ region, Placed.Row a.encoding.slotSize (a.header.range region).bottom (members region)
    (a.header.range region).top
  distinct : ((members .opened ++ members .closed).map fun x => x.member.id).Nodup
  objectCount : a.header.objectCount.toNat = (members .opened ++ members .closed).length
  of : ∀ region, ∀ x ∈ members region, x.member.Of g r roots
  held : ∀ region, ∀ x ∈ members region, x.Held a.encoding.slotSize ref id (Bytes.get a.image)
  stored : ∀ region, ∀ x ∈ members region, ∀ i, x.member.id = some i →
    a.encoding.encode (a.header.requestedBase.toNat + x.offset) = .ok (ref i)
  referents : ∀ region, ∀ x ∈ members region, ∀ c ∈ x.member.cells a.encoding.slotSize, ∀ i,
    c.value = .reference (some i) → ∃ region', ∃ y ∈ members region', y.member.id = some i
  root : ∃ x ∈ members .opened, x.member.id = none ∧ x.offset = a.header.rootOffset.toNat
  marks : ∀ region, (a.maps region).MarksMembers a.encoding.slotSize (a.header.range region).bottom
    native (members region)

section

variable {a : Archive} {g : ObjectGraph} {r : TypeRegistry} {roots : List ObjectId}
variable {native : Extent} {members : Region → List Placed} {ref : ObjectId → Nat}

/-- The members of both regions, in image order. -/
def allMembers (members : Region → List Placed) : List Placed := members .opened ++ members .closed

/-- All members are those of either region. -/
theorem mem_allMembers {x : Placed} : x ∈ allMembers members ↔ ∃ region, x ∈ members region := by
  rw [allMembers, List.mem_append]
  constructor
  · rintro (hx | hx)
    · exact ⟨.opened, hx⟩
    · exact ⟨.closed, hx⟩
  · rintro ⟨region, hx⟩
    cases region with
    | opened => exact .inl hx
    | closed => exact .inr hx

namespace HoldsMembers

/-- The open region ends where the closed one starts at the latest, which ends in the image. -/
theorem ranges_le (h : a.HoldsMembers g r roots native members ref) :
    (a.header.range .opened).top ≤ (a.header.range .closed).bottom ∧
      (a.header.range .closed).top ≤ a.image.size := by
  have hopen := h.regions.openSize_le
  have hclosed := h.regions.closedStop_le
  have hzero : a.header.openOffset.toNat = 0 := by
    rw [h.regions.openOffset]
    rfl
  rw [ArchiveHeader.range, ArchiveHeader.range, h.size]
  dsimp only
  omega

/-- The regions end inside the image. -/
theorem range_top_le (h : a.HoldsMembers g r roots native members ref) (region : Region) :
    (a.header.range region).top ≤ a.image.size := by
  obtain ⟨hle, htop⟩ := h.ranges_le
  have hclosed := (h.row .closed).le
  cases region with
  | opened => omega
  | closed => exact htop

/-- Every member ends inside the image. -/
theorem stop_le (h : a.HoldsMembers g r roots native members ref) {region : Region} {x : Placed}
    (hx : x ∈ members region) : x.stop a.encoding.slotSize ≤ a.image.size :=
  Nat.le_trans ((h.row region).bounds x hx).2 (h.range_top_le region)

/-- There are no more members than bytes. -/
theorem length_le (h : a.HoldsMembers g r roots native members ref) :
    (allMembers members).length ≤ a.image.size := by
  have hsize : ∀ x : Placed, 1 ≤ x.member.size a.encoding.slotSize := fun x => x.member.size_pos _
  have hopened := (h.row .opened).mul_length_le fun x _ => hsize x
  have hclosed := (h.row .closed).mul_length_le fun x _ => hsize x
  obtain ⟨hle, htop⟩ := h.ranges_le
  rw [allMembers, List.length_append]
  omega

/-- Members with one place are one, and of one region. -/
theorem eq_of_offset_eq (hm : a.HoldsMembers g r roots native members ref) {region region' : Region}
    {x y : Placed} (hx : x ∈ members region) (hy : y ∈ members region')
    (heq : x.offset = y.offset) : region = region' ∧ x = y := by
  have hpos : ∀ z : Placed, z ∈ members region → 0 < z.member.size a.encoding.slotSize :=
    fun z _ => z.member.size_pos _
  have hle := hm.ranges_le.1
  have hxbounds := (hm.row region).bounds x hx
  have hybounds := (hm.row region').bounds y hy
  have hxpos := x.member.size_pos a.encoding.slotSize
  have hypos := y.member.size_pos a.encoding.slotSize
  cases region with
  | opened =>
    cases region' with
    | opened => exact ⟨rfl, (hm.row .opened).eq_of_offset_eq hpos hx hy heq⟩
    | closed => omega
  | closed =>
    cases region' with
    | opened => omega
    | closed => exact ⟨rfl, (hm.row .closed).eq_of_offset_eq hpos hx hy heq⟩

end HoldsMembers

end

/-- The members of each region. -/
def membersIn (os cs : List Placed) : Region → List Placed
  | .opened => os
  | .closed => cs

/-- The members of a region are among all members. -/
theorem mem_append_of_membersIn {os cs : List Placed} {region : Region} {x : Placed}
    (hx : x ∈ membersIn os cs region) : x ∈ os ++ cs := by
  cases region with
  | opened => exact List.mem_append_left _ hx
  | closed => exact List.mem_append_right _ hx

end HeapImage.Archive

namespace HeapImage.DumpSession

variable {s : DumpSession} {q : RequestedRegions} {g : ObjectGraph} {roots : List ObjectId}
variable {os cs : List Placed} {ref : ObjectId → Nat}

/-- The members of a region stand back to back in it. -/
theorem Regions.row (h : s.Regions os cs) (region : Region) :
    Placed.Row s.slotSize (s.range region).bottom (Archive.membersIn os cs region)
      (s.range region).top := by
  cases region with
  | opened => exact h.openRow
  | closed => exact h.closedRow

namespace Standing

/-- The members of a region stand in the output. -/
theorem range_top_le (h : s.Standing q g roots os cs ref) (region : Region) :
    (s.range region).top ≤ s.output.size := by
  have hopen := h.openTop_le
  have hclosed := h.closedRow.le
  have htop := h.closedTop_le
  rw [h.size_output]
  cases region with
  | opened =>
    change s.openTop ≤ _
    omega
  | closed => exact htop

/-- The maps of an image mark the members of its regions. -/
theorem marksMembers (h : s.Standing q g roots os cs ref) (maps : Region → RegionMaps)
    (hmaps : s.maps = .ok (maps .opened, maps .closed)) (region : Region) :
    (maps region).MarksMembers s.slotSize (s.range region).bottom s.options.native
      (Archive.membersIn os cs region) := by
  obtain ⟨hopened, hclosed⟩ := Archive.derive_of_maps hmaps
  refine RegionMaps.marksMembers_of_derive (ReferenceEncoding.isSlotSize _) (h.row region)
    (fun x hx => h.of x (Archive.mem_append_of_membersIn hx))
    (fun x hx => h.held x (Archive.mem_append_of_membersIn hx)) (h.range_top_le region) ?_
  cases region with
  | opened => exact hopened
  | closed => exact hclosed

end Standing

end HeapImage.DumpSession

namespace HeapImage.Archive

/-- **Every dump** holds the members of its graph. -/
theorem holdsMembers_of_dump {r : TypeRegistry} {g : ObjectGraph} {selection : Selection}
    {o : DumpOptions} {a : Archive} (hwords : o.InWords) (h : dump r g selection o = .ok a) :
    ∃ members ref, a.HoldsMembers g r selection.roots o.native members ref := by
  obtain ⟨s, q, opened, closed, os, cs, rfl, rfl, hcheck, hmaps, rfl, hs⟩ :=
    complete_of_dump hwords h
  have hstanding := hs.standing
  have hfields := headerSays_assemble s.registry opened closed hstanding hwords hcheck
  have hregions : (assemble (headerOf s q) s.output s.registry opened closed).header.SoundRegions :=
    soundRegions_assemble hstanding hwords hcheck
  have hmarks := hstanding.marksMembers
    (assemble (headerOf s q) s.output s.registry opened closed).maps hmaps
  have himage : (assemble (headerOf s q) s.output s.registry opened closed).image = s.output := rfl
  have htypes : (assemble (headerOf s q) s.output s.registry opened closed).types =
    s.registry := rfl
  have hnative : (assemble (headerOf s q) s.output s.registry opened closed).header.nativeBase =
    UInt64.ofNat s.options.native.bottom := rfl
  -- From here on the archive is known by its header and its parts only.
  generalize assemble (headerOf s q) s.output s.registry opened closed = a at *
  have hslotSize : a.encoding.slotSize = s.slotSize :=
    congrArg ReferenceEncoding.slotSize hfields.encoding
  refine ⟨membersIn os cs, s.storedRef q, ?_⟩
  constructor
  case regions => exact hregions
  case size => rw [himage, hs.size_output, hfields.imageLength]
  case types => exact htypes
  case aligned =>
    rw [hfields.closedOffset]
    exact hstanding.wordSize_dvd_closedBottom hcheck
  case below =>
    have hend := hwords.heapEnd_lt
    have hbase := hstanding.base_add_le
    rw [hfields.requestedBase, himage, hs.size_output]
    omega
  case nativeBase => exact hnative
  case row =>
    intro region
    rw [hslotSize, hfields.range]
    exact hstanding.row region
  case distinct => exact hs.distinct
  case objectCount =>
    rw [hfields.objectCount, ← Array.length_toList, hstanding.placements, List.length_map]
    rfl
  case of => exact fun region x hx => hs.of x (mem_append_of_membersIn hx)
  case held =>
    intro region x hx
    rw [hslotSize, himage]
    exact hs.held x (mem_append_of_membersIn hx)
  case stored =>
    intro region x hx i hi
    rw [hfields.encoding, hfields.requestedBase]
    exact hs.stored x (mem_append_of_membersIn hx) i hi
  case referents =>
    intro region x hx c hc i hv
    rw [hslotSize] at hc
    obtain ⟨y, hy, hi⟩ := hs.referents x (mem_append_of_membersIn hx) c hc i hv
    rcases List.mem_append.mp hy with hy | hy
    · exact ⟨.opened, y, hy, hi⟩
    · exact ⟨.closed, y, hy, hi⟩
  case root =>
    rw [hfields.rootOffset]
    exact hs.root
  case marks =>
    intro region
    rw [hslotSize, hfields.range]
    exact hmarks region

end HeapImage.Archive
