import HeapImage.Proofs.Assembling
import HeapImage.Proofs.DumpCalls

/-! # Copies made in several attempts

Copying stops in front of a part that would cross a boundary, and can be tried again. The parts that
were copied before then stand in the output twice, and the notes lead to the later copies. What
stays true is that the output is made of copies of staged members.

* `DumpSession.Stocked`: the members that a session has staged.
* `DumpSession.Replica`, `DumpSession.Copies`: the members in its output.
* `DumpSession.Copies.appends`: what copying some more members makes of the output.
* `DumpSession.Stocked.exists_appends`: an attempt that stops somewhere. -/

namespace HeapImage

variable {g : ObjectGraph} {r : TypeRegistry} {roots roots' : List ObjectId}
variable {ref : ObjectId → Nat}

namespace DumpSession

variable {s t : DumpSession} {xs ys zs : List Placed} {x y : Placed}

/-! ## Staged members -/

/-- The members `xs` have been staged, among them the root array if there is one. -/
structure Stocked (s : DumpSession) (g : ObjectGraph) (roots : List ObjectId) (ref : ObjectId → Nat)
    (xs : List Placed) : Prop where
  stages : s.staging.Stages g s.registry roots ref xs
  slotSize_eq : s.staging.slotSize = s.slotSize
  capacity_eq : s.staging.capacity = s.options.capacity
  rootless : s.staging.roots = none → ∀ x ∈ xs, x.member.id ≠ none
  rooted : ∀ root, s.staging.roots = some root → ∃ x ∈ xs, x.member.id = none ∧
    root = ⟨x.offset, x.member.size s.slotSize, roots⟩

/-- A session with nothing staged. -/
theorem stocked_start (g : ObjectGraph) (r : TypeRegistry) (o : DumpOptions) :
    (start r o).Stocked g [] (fun _ => 0) [] where
  stages := StagingBuffer.stages_empty ..
  slotSize_eq := rfl
  capacity_eq := rfl
  rootless _ _ hx := nomatch hx
  rooted _ h := nomatch h

namespace Stocked

/-- Only the staging buffer, the registry and the options matter. -/
theorem congr (h : s.Stocked g roots ref xs) (hstaging : t.staging = s.staging)
    (hregistry : t.registry = s.registry) (hoptions : t.options = s.options) :
    t.Stocked g roots ref xs := by
  have hslot : t.slotSize = s.slotSize := congrArg (fun o => o.encoding.slotSize) hoptions
  refine ⟨?_, ?_, ?_, ?_, ?_⟩
  · rw [hstaging, hregistry]
    exact h.stages
  · rw [hstaging, hslot]
    exact h.slotSize_eq
  · rw [hstaging, hoptions]
    exact h.capacity_eq
  · rw [hstaging]
    exact h.rootless
  · rw [hstaging, hslot]
    exact h.rooted

/-- The slots of a session have four or eight bytes. -/
theorem isSlotSize (h : s.Stocked g roots ref xs) : IsSlotSize s.staging.slotSize := by
  rw [h.slotSize_eq]
  exact ReferenceEncoding.isSlotSize _

/-- Staged members stand back to back. -/
theorem row (h : s.Stocked g roots ref xs) : Placed.Row s.slotSize 0 xs s.staging.size := by
  have hrow := h.stages.row
  rwa [h.slotSize_eq] at hrow

/-- Staged members are told apart by their places. -/
theorem nodup (h : s.Stocked g roots ref xs) : (xs.map Placed.offset).Nodup :=
  h.row.nodup fun x _ => x.member.size_pos _

/-- What a session has staged is in its buffer. -/
theorem stocks (h : s.Stocked g roots ref xs) :
    s.staging.Stocks g s.registry roots ref xs where
  stages := h.stages
  rootless := h.rootless
  rooted := by
    rw [h.slotSize_eq]
    exact h.rooted

/-- What is in the buffer of a session, the session has staged. -/
theorem of_stocks (hstocks : s.staging.Stocks g s.registry roots ref xs)
    (hslot : s.staging.slotSize = s.slotSize)
    (hcapacity : s.staging.capacity = s.options.capacity) : s.Stocked g roots ref xs where
  stages := hstocks.stages
  slotSize_eq := hslot
  capacity_eq := hcapacity
  rootless := hstocks.rootless
  rooted := by
    rw [← hslot]
    exact hstocks.rooted

/-- Staging an object. -/
theorem push (h : s.Stocked g roots (fun _ => 0) xs) {id : ObjectId} {region : Region}
    {object : ByteArray} (hprepare : s.staging.prepare g s.registry id = .ok object) :
    ∃ x : Placed, x.member.id = some id ∧ x.member.region = region ∧
      { s with staging := s.staging.push id region object }.Stocked g roots (fun _ => 0)
        (xs ++ [x]) := by
  obtain ⟨x, hid, hregion, hpush⟩ := h.stocks.push h.isSlotSize hprepare region
  exact ⟨x, hid, hregion, of_stocks hpush h.slotSize_eq h.capacity_eq⟩

/-- Staging the root array. -/
theorem pushRoots (h : s.Stocked g roots' (fun _ => 0) xs) {array : ByteArray}
    (hprepare : s.staging.prepareRoots roots = .ok array) :
    ∃ x : Placed, x.member.id = none ∧
      { s with staging := s.staging.pushRoots roots array }.Stocked g roots (fun _ => 0)
        (xs ++ [x]) := by
  obtain ⟨x, hid, hpush⟩ := h.stocks.pushRoots h.isSlotSize hprepare
  exact ⟨x, hid, of_stocks hpush h.slotSize_eq h.capacity_eq⟩

/-- Linking starts from a session that has a root array. -/
theorem givesRoots (h : s.Stocked g roots (fun _ => 0) xs) (hroots : s.GivesRoots t) :
    ∃ roots' xs', t.Stocked g roots' (fun _ => 0) xs' ∧ t.staging.roots.isSome = true := by
  cases hroots with
  | there hsome => exact ⟨roots, xs, h, hsome⟩
  | empty _ hprepare =>
    obtain ⟨x, -, hpush⟩ := h.pushRoots hprepare
    exact ⟨[], xs ++ [x], hpush, rfl⟩

end Stocked

/-! ## Copied members -/

/-- The bytes of the member staged as `x` stand in the output at `y`. -/
structure Replica (s : DumpSession) (x y : Placed) : Prop where
  member : y.member = x.member
  bytes : ∀ k < x.member.size s.slotSize,
    Bytes.get s.output (y.offset + k) = Bytes.get s.staging.bytes (x.offset + k)

/-- A copy is a replica. -/
theorem IsCopy.replica (h : s.IsCopy x y) : s.Replica x y := ⟨h.member, h.bytes⟩

/-- A replica stays one as long as its bytes are kept. -/
theorem Replica.mono (h : s.Replica x y) (hslot : t.slotSize = s.slotSize)
    (hstaging : t.staging = s.staging)
    (hbytes : ∀ k < y.member.size s.slotSize,
      Bytes.get t.output (y.offset + k) = Bytes.get s.output (y.offset + k)) : t.Replica x y where
  member := h.member
  bytes k hk := by
    rw [hslot] at hk
    rw [hstaging, hbytes k (by rwa [h.member]), h.bytes k hk]

/-- The output is made of copies `ys` of staged members `xs`, and every note leads to a copy of the
member that it is about. A member can have more copies than the one that its note leads to. -/
structure Copies (s : DumpSession) (xs ys : List Placed) : Prop where
  staged : ∀ y ∈ ys, ∃ x ∈ xs, s.Replica x y
  noted : ∀ p offset, s.offsets[p]? = some offset →
    ∃ x ∈ xs, ∃ y ∈ ys, x.offset = p ∧ y.offset = offset ∧ s.Replica x y
  placements : s.placements.toList = ys.map (Placed.placement s.slotSize)
  boundary : ∀ y ∈ ys, alignDown y.offset s.options.alignment =
    alignDown (y.stop s.slotSize - 1) s.options.alignment

/-- All members with some property have notes. -/
def Noted (s : DumpSession) (xs : List Placed) : Prop :=
  ∀ x ∈ xs, ∃ offset, s.offsets[x.offset]? = some offset

namespace Copies

/-- Before anything has been copied, members can be staged. -/
theorem nil (h : s.Copies xs []) (hoffsets : t.offsets = s.offsets)
    (hplacements : t.placements = s.placements) : t.Copies zs [] where
  staged _ hy := nomatch hy
  noted p offset hp := by
    rw [hoffsets] at hp
    obtain ⟨x, -, y, hy, -⟩ := h.noted p offset hp
    exact nomatch hy
  placements := by rw [hplacements, h.placements]; rfl
  boundary _ hy := nomatch hy

/-- Copies stay copies while their bytes and the notes are kept. -/
theorem mono (h : s.Copies xs ys) (hoptions : t.options = s.options)
    (hstaging : t.staging = s.staging) (hoffsets : t.offsets = s.offsets)
    (hplacements : t.placements = s.placements)
    (hbytes : ∀ y ∈ ys, ∀ k < y.member.size s.slotSize,
      Bytes.get t.output (y.offset + k) = Bytes.get s.output (y.offset + k)) : t.Copies xs ys := by
  have hslot : t.slotSize = s.slotSize := congrArg (fun o => o.encoding.slotSize) hoptions
  refine ⟨?_, ?_, ?_, ?_⟩
  · intro y hy
    obtain ⟨x, hx, hcopy⟩ := h.staged y hy
    exact ⟨x, hx, hcopy.mono hslot hstaging (hbytes y hy)⟩
  · intro p offset hp
    rw [hoffsets] at hp
    obtain ⟨x, hx, y, hy, hxp, hyoffset, hcopy⟩ := h.noted p offset hp
    exact ⟨x, hx, y, hy, hxp, hyoffset, hcopy.mono hslot hstaging (hbytes y hy)⟩
  · rw [hplacements, hslot]
    exact h.placements
  · rw [hslot, hoptions]
    exact h.boundary

/-- **Copying some members**, which may have been copied before. -/
theorem appends (h : s.Copies xs ys) (hstop : ∀ y ∈ ys, y.stop s.slotSize ≤ s.output.size)
    (hzs : ∀ z ∈ zs, z ∈ xs) {ys' : List Placed} (happends : s.Appends t zs ys') :
    t.Copies xs (ys ++ ys') := by
  have hkept : ∀ {x y}, y ∈ ys → s.Replica x y → t.Replica x y := by
    intro x y hy hcopy
    refine hcopy.mono happends.slotSize_eq happends.staging_eq fun k hk => happends.front _ ?_
    have := hstop y hy
    rw [Placed.stop] at this
    omega
  refine ⟨?_, ?_, ?_, ?_⟩
  · intro y hy
    rcases List.mem_append.mp hy with hy | hy
    · obtain ⟨x, hx, hcopy⟩ := h.staged y hy
      exact ⟨x, hx, hkept hy hcopy⟩
    · obtain ⟨x, hx, hcopy⟩ := happends.staged y hy
      exact ⟨x, hzs x hx, hcopy.replica⟩
  · intro p offset hp
    by_cases hmem : p ∈ zs.map Placed.offset
    · obtain ⟨x, hx, rfl⟩ := List.mem_map.mp hmem
      obtain ⟨y, hy, hcopy⟩ := happends.copied x hx
      rw [hcopy.offset] at hp
      exact ⟨x, hzs x hx, y, List.mem_append_right _ hy, rfl, Option.some.inj hp, hcopy.replica⟩
    -- A note that has not been replaced leads to a copy of an earlier attempt.
    · rw [happends.notes p hmem] at hp
      obtain ⟨x, hx, y, hy, hxp, hyoffset, hcopy⟩ := h.noted p offset hp
      exact ⟨x, hx, y, List.mem_append_left _ hy, hxp, hyoffset, hkept hy hcopy⟩
  · rw [happends.placements, h.placements, happends.slotSize_eq, List.map_append]
  · rw [happends.slotSize_eq, happends.options_eq]
    exact List.forall_mem_append.mpr ⟨h.boundary, happends.boundary⟩

end Copies

/-- A note is never lost. -/
theorem Noted.appends {zs' : List Placed} (h : s.Noted xs) {ys' : List Placed}
    (happends : s.Appends t zs' ys') : t.Noted xs := by
  intro x hx
  by_cases hmem : x.offset ∈ zs'.map Placed.offset
  · obtain ⟨z, hz, hoffset⟩ := List.mem_map.mp hmem
    obtain ⟨y, -, hcopy⟩ := happends.copied z hz
    exact ⟨y.offset, by rw [← hoffset, hcopy.offset]⟩
  · rw [happends.notes _ hmem]
    exact h x hx

/-- What has just been copied has notes. -/
theorem noted_of_appends {ys' : List Placed} (happends : s.Appends t zs ys') : t.Noted zs := by
  intro z hz
  obtain ⟨y, -, hcopy⟩ := happends.copied z hz
  exact ⟨y.offset, hcopy.offset⟩

/-! ## Attempts -/

/-- The objects of a region are the members in it that are not the root array. -/
theorem mem_objectsIn {region : Region} {z : Placed} : z ∈ objectsIn region xs ↔
    z ∈ xs ∧ z.member.id ≠ none ∧ z.member.region = region := by
  rw [objectsIn, List.mem_filter, Bool.and_eq_true, decide_eq_true_eq, Option.isSome_iff_ne_none]

/-- The members of the closed region are its objects. -/
theorem Stocked.mem_closed (h : s.Stocked g roots ref xs) {z : Placed} :
    z ∈ objectsIn .closed xs ↔ z ∈ xs ∧ z.member.region = .closed := by
  rw [mem_objectsIn]
  constructor
  · rintro ⟨hz, -, hregion⟩
    exact ⟨hz, hregion⟩
  · rintro ⟨hz, hregion⟩
    refine ⟨hz, ?_, hregion⟩
    intro hid
    rw [((h.stages.of z hz).root hid).1] at hregion
    cases hregion

/-- The members of the open region are its objects and the root array. -/
theorem Stocked.mem_opened (h : s.Stocked g roots ref xs) (hx : x ∈ xs) (hid : x.member.id = none)
    {z : Placed} :
    z ∈ objectsIn .opened xs ++ [x] ↔ z ∈ xs ∧ z.member.region = .opened := by
  rw [List.mem_append, List.mem_singleton, mem_objectsIn]
  constructor
  · rintro (⟨hz, -, hregion⟩ | rfl)
    · exact ⟨hz, hregion⟩
    · exact ⟨hx, ((h.stages.of z hx).root hid).1⟩
  · rintro ⟨hz, hregion⟩
    by_cases hzid : z.member.id = none
    · exact .inr (List.inj_on_of_nodup_map h.stages.distinct hz hx (hzid.trans hid.symm))
    · exact .inl ⟨hz, hzid, hregion⟩

/-- The parts of a region are the members of the region. -/
theorem Stocked.exists_parts (h : s.Stocked g roots ref xs) (region : Region) :
    ∃ zs : List Placed, s.parts region = zs.map (partOf s.slotSize) ∧
      (∀ z, z ∈ zs ↔ z ∈ xs ∧ z.member.region = region) ∧ (zs.map Placed.offset).Nodup := by
  have hobjects : (s.stagedIn region).map (fun o => (⟨o.slot, o.size⟩ : StagedPart)) =
      (objectsIn region xs).map (partOf s.slotSize) := by
    rw [stagedIn, h.stages.objects, map_filter_stagedOf, h.slotSize_eq]
  have hnodup : ((objectsIn region xs).map Placed.offset).Nodup :=
    h.nodup.sublist (List.filter_sublist.map _)
  cases region with
  | closed => exact ⟨_, by rw [parts_closed, hobjects], fun z => h.mem_closed, hnodup⟩
  | opened =>
    cases hroots : s.staging.roots with
    | none =>
      refine ⟨_, ?_, fun z => ?_, hnodup⟩
      · rw [parts, hroots, hobjects]
        exact List.append_nil _
      · rw [mem_objectsIn]
        exact and_congr_right fun hz => and_iff_right (h.rootless hroots z hz)
    | some root =>
      -- The root array stands behind the objects, wherever it was staged.
      obtain ⟨x, hx, hid, rfl⟩ := h.rooted root hroots
      refine ⟨objectsIn .opened xs ++ [x], ?_, fun z => h.mem_opened hx hid, ?_⟩
      · rw [parts_opened hroots, hobjects, List.map_append]
        rfl
      · rw [List.map_append, List.map_singleton]
        refine List.nodup_append.mpr ⟨hnodup, List.nodup_singleton _, ?_⟩
        rintro a ha b hb rfl
        rw [List.mem_singleton.mp hb] at ha
        exact offset_notMem_filter h.nodup hx (by simp [hid]) ha

/-- The parts of a region are those of its members. -/
theorem Stocked.mem_parts (h : s.Stocked g roots ref xs) {region : Region} {p : StagedPart} :
    p ∈ s.parts region ↔ ∃ x ∈ xs, x.member.region = region ∧ partOf s.slotSize x = p := by
  obtain ⟨zs, hzs, hmem, -⟩ := h.exists_parts region
  rw [hzs, List.mem_map]
  simp only [hmem, and_assoc]

/-- **An attempt** to copy a region that comes to an end somewhere has copied some members. -/
theorem Stocked.exists_appends (h : s.Stocked g roots ref xs) {region : Region}
    {done rest : List StagedPart} (hparts : s.parts region = done ++ rest)
    (hrun : Runs (done.forM copyPart) s () t) :
    ∃ zs ys, (∀ z ∈ zs, z ∈ xs) ∧ s.Appends t zs ys := by
  obtain ⟨zs, hzs, hmem, hnodup⟩ := h.exists_parts region
  rw [hzs] at hparts
  obtain ⟨front, back, rfl, rfl, -⟩ := List.map_eq_append_iff.mp hparts
  have hfront : ∀ z ∈ front, z ∈ xs := fun z hz => ((hmem z).mp (List.mem_append_left _ hz)).1
  rw [runs_forM_map] at hrun
  rw [List.map_append] at hnodup
  obtain ⟨ys, hys⟩ := appends_of_runs (fun z hz => (h.row.bounds z (hfront z hz)).2)
    hnodup.of_append_left hrun
  exact ⟨front, ys, hfront, hys⟩

end DumpSession

end HeapImage
