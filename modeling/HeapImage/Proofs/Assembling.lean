import HeapImage.Proofs.DumpSteps
import HeapImage.Proofs.Rounding

/-! # Assembling an image

Copying puts the members of a region back to back behind the output assembled so far, in the order
in which they were staged, and notes where each has gone.

* `DumpSession.IsCopy`: a member of the staging buffer and its copy in the output.
* `DumpSession.Appends`: what copying some members makes of a session.
* `DumpSession.Appends.copyOne`: one more member.
* `DumpSession.appends_of_runs`: what a loop over staged members does. -/

namespace HeapImage

/-- The record that a dump keeps of a copied member. -/
def Placed.placement (slot : Nat) (x : Placed) : Placement := ⟨x.offset, x.member.size slot⟩

namespace DumpSession

variable {s t u : DumpSession} {g : ObjectGraph} {r : TypeRegistry} {roots : List ObjectId}
variable {ref : ObjectId → Nat} {xs ys zs : List Placed} {x y : Placed}

/-- The member that is staged as `x` has been copied to the output as `y`. -/
structure IsCopy (s : DumpSession) (x y : Placed) : Prop where
  member : y.member = x.member
  offset : s.offsets[x.offset]? = some y.offset
  bytes : ∀ k < x.member.size s.slotSize,
    Bytes.get s.output (y.offset + k) = Bytes.get s.staging.bytes (x.offset + k)

/-- A copy stays one as long as its bytes and its note are kept. -/
theorem IsCopy.mono (h : s.IsCopy x y) (hslot : t.slotSize = s.slotSize)
    (hstaging : t.staging = s.staging) (hoffset : t.offsets[x.offset]? = s.offsets[x.offset]?)
    (hbytes : ∀ k < x.member.size s.slotSize,
      Bytes.get t.output (y.offset + k) = Bytes.get s.output (y.offset + k)) : t.IsCopy x y where
  member := h.member
  offset := hoffset.trans h.offset
  bytes k hk := by
    rw [hslot] at hk
    rw [hstaging, hbytes k hk]
    exact h.bytes k hk

/-- The members staged as `zs` have been appended to the output as `ys`. -/
structure Appends (s t : DumpSession) (zs ys : List Placed) : Prop where
  frame : ∃ output offsets placements,
    t = { s with output := output, offsets := offsets, placements := placements }
  row : Placed.Row s.slotSize s.output.size ys t.output.size
  members : ys.map Placed.member = zs.map Placed.member
  copied : ∀ x ∈ zs, ∃ y ∈ ys, t.IsCopy x y
  staged : ∀ y ∈ ys, ∃ x ∈ zs, t.IsCopy x y
  placements : t.placements.toList = s.placements.toList ++ ys.map (Placed.placement s.slotSize)
  boundary : ∀ y ∈ ys, alignDown y.offset s.options.alignment =
    alignDown (y.stop s.slotSize - 1) s.options.alignment
  front : ∀ j < s.output.size, Bytes.get t.output j = Bytes.get s.output j
  notes : ∀ p, p ∉ zs.map Placed.offset → t.offsets[p]? = s.offsets[p]?

namespace Appends

/-- Nothing has been appended yet. -/
theorem refl (s : DumpSession) : s.Appends s [] [] where
  frame := ⟨_, _, _, rfl⟩
  row := rfl
  members := rfl
  copied _ hx := nomatch hx
  staged _ hy := nomatch hy
  placements := (List.append_nil _).symm
  boundary _ hy := nomatch hy
  front _ _ := rfl
  notes _ _ := rfl

/-- Appending keeps the slot size. -/
theorem slotSize_eq (h : s.Appends t zs ys) : t.slotSize = s.slotSize := by
  obtain ⟨output, offsets, placements, rfl⟩ := h.frame
  rfl

/-- Appending keeps the bounds of the regions and the place of the root array. -/
theorem places_eq (h : s.Appends t zs ys) :
    t.openTop = s.openTop ∧ t.closedBottom = s.closedBottom ∧ t.rootOffset = s.rootOffset := by
  obtain ⟨output, offsets, placements, rfl⟩ := h.frame
  exact ⟨rfl, rfl, rfl⟩

/-- Appending keeps the types. -/
theorem registry_eq (h : s.Appends t zs ys) : t.registry = s.registry := by
  obtain ⟨output, offsets, placements, rfl⟩ := h.frame
  rfl

/-- Appending keeps the staging buffer. -/
theorem staging_eq (h : s.Appends t zs ys) : t.staging = s.staging := by
  obtain ⟨output, offsets, placements, rfl⟩ := h.frame
  rfl

/-- Appending keeps the options. -/
theorem options_eq (h : s.Appends t zs ys) : t.options = s.options := by
  obtain ⟨output, offsets, placements, rfl⟩ := h.frame
  rfl

/-- Copies made before stay copies. -/
theorem kept (h : s.Appends t zs ys) (hcopy : s.IsCopy x y) (hx : x.offset ∉ zs.map Placed.offset)
    (hstop : y.stop s.slotSize ≤ s.output.size) : t.IsCopy x y := by
  apply hcopy.mono h.slotSize_eq h.staging_eq (h.notes _ hx)
  intro k hk
  apply h.front
  rw [Placed.stop, hcopy.member] at hstop
  omega

/-- Members appended one after the other. -/
theorem trans {zs' ys' : List Placed} (h : s.Appends t zs ys) (h' : t.Appends u zs' ys')
    (hnew : ∀ x ∈ zs, x.offset ∉ zs'.map Placed.offset) :
    s.Appends u (zs ++ zs') (ys ++ ys') where
  frame := by
    obtain ⟨_, _, _, rfl⟩ := h.frame
    obtain ⟨_, _, _, rfl⟩ := h'.frame
    exact ⟨_, _, _, rfl⟩
  row := h.row.append (h.slotSize_eq ▸ h'.row)
  members := by rw [List.map_append, List.map_append, h.members, h'.members]
  copied x hx := by
    rcases List.mem_append.mp hx with hx | hx
    -- Copies made before are kept, since their notes are not among the new ones.
    · obtain ⟨y, hy, hcopy⟩ := h.copied x hx
      exact ⟨y, List.mem_append_left _ hy,
        h'.kept hcopy (hnew x hx) (h.slotSize_eq.symm ▸ (h.row.bounds y hy).2)⟩
    · obtain ⟨y, hy, hcopy⟩ := h'.copied x hx
      exact ⟨y, List.mem_append_right _ hy, hcopy⟩
  staged y hy := by
    rcases List.mem_append.mp hy with hy | hy
    · obtain ⟨x, hx, hcopy⟩ := h.staged y hy
      exact ⟨x, List.mem_append_left _ hx,
        h'.kept hcopy (hnew x hx) (h.slotSize_eq.symm ▸ (h.row.bounds y hy).2)⟩
    · obtain ⟨x, hx, hcopy⟩ := h'.staged y hy
      exact ⟨x, List.mem_append_right _ hx, hcopy⟩
  placements := by
    rw [h'.placements, h.placements, List.append_assoc, List.map_append, h.slotSize_eq]
  boundary y hy := by
    rcases List.mem_append.mp hy with hy | hy
    · exact h.boundary y hy
    · have hboundary := h'.boundary y hy
      rwa [h.options_eq, h.slotSize_eq] at hboundary
  front j hj := (h'.front j (Nat.lt_of_lt_of_le hj h.row.le)).trans (h.front j hj)
  notes p hp := by
    rw [List.map_append, List.mem_append, not_or] at hp
    exact (h'.notes p hp.2).trans (h.notes p hp.1)

/-- **A step that copies the bytes of a member** appends it. -/
theorem of_copyOne (hstop : x.stop s.slotSize ≤ s.staging.size)
    (hrun : Runs (DumpSession.copyOne x.offset (x.member.size s.slotSize)) s () t) :
    s.Appends t [x] [⟨x.member, s.output.size⟩] := by
  obtain ⟨hboundary, rfl⟩ := runs_copyOne.mp hrun
  rw [Placed.stop, StagingBuffer.size] at hstop
  have hsize : (s.append x.offset (x.member.size s.slotSize)).output.size =
      s.output.size + x.member.size s.slotSize := by
    rw [append, ByteArray.size_append, ByteArray.size_extract]
    omega
  have hcopy : (s.append x.offset (x.member.size s.slotSize)).IsCopy x
      ⟨x.member, s.output.size⟩ := by
    refine ⟨rfl, ?_, ?_⟩
    · rw [append, Std.TreeMap.getElem?_insert_self]
    · intro k hk
      change k < x.member.size s.slotSize at hk
      change Bytes.get (s.output ++ _) (s.output.size + k) = _
      rw [Bytes.get_append, if_neg (by omega), Nat.add_sub_cancel_left, Bytes.get_extract,
        if_pos (by omega)]
      rfl
  constructor
  case frame => exact ⟨_, _, _, rfl⟩
  case row => exact ⟨rfl, hsize.symm⟩
  case members => rfl
  case copied => exact List.forall_mem_singleton.mpr ⟨_, List.mem_singleton_self _, hcopy⟩
  case staged => exact List.forall_mem_singleton.mpr ⟨_, List.mem_singleton_self _, hcopy⟩
  case placements => exact Array.toList_push
  case boundary => exact List.forall_mem_singleton.mpr (checkBoundary_eq_ok.mp hboundary)
  case front =>
    intro j hj
    rw [append, Bytes.get_append, if_pos hj]
  -- The note of the member is the only new one.
  case notes =>
    intro p hp
    rw [append, Std.TreeMap.getElem?_insert, if_neg]
    rw [Std.LawfulEqCmp.compare_eq_iff_eq]
    exact fun heq => hp (heq ▸ List.mem_singleton_self _)

/-- **One more member** is appended by a step that copies its bytes. -/
theorem copyOne (h : s.Appends t zs ys) (hx : x.offset ∉ zs.map Placed.offset)
    (hstop : x.stop s.slotSize ≤ s.staging.size)
    (hrun : Runs (DumpSession.copyOne x.offset (x.member.size s.slotSize)) t () u) :
    s.Appends u (zs ++ [x]) (ys ++ [⟨x.member, t.output.size⟩]) := by
  rw [← h.slotSize_eq] at hstop hrun
  rw [← h.staging_eq] at hstop
  refine h.trans (of_copyOne hstop hrun) ?_
  intro z hz hmem
  rw [List.map_singleton, List.mem_singleton] at hmem
  exact hx (hmem ▸ List.mem_map_of_mem hz)

end Appends

/-! ## Whole regions -/

/-- Copying staged members one after another appends all of them. -/
theorem appends_of_runs (hstop : ∀ x ∈ zs, x.stop s.slotSize ≤ s.staging.size)
    (hdistinct : (zs.map Placed.offset).Nodup)
    (h : Runs (zs.forM fun x => DumpSession.copyOne x.offset (x.member.size s.slotSize)) s () t) :
    ∃ ys, s.Appends t zs ys := by
  refine runs_forM_induction (fun done u => ∃ ys, s.Appends u done ys) h ⟨[], .refl s⟩ ?_
  rintro done x rest u v hzs ⟨ys, happends⟩ hrun
  refine ⟨_, happends.copyOne ?_ (hstop x (by rw [hzs]; simp)) hrun⟩
  rw [hzs, List.map_append, List.nodup_append] at hdistinct
  intro hmem
  exact hdistinct.2.2 _ hmem _ (List.mem_map.mpr ⟨x, List.mem_cons_self .., rfl⟩) rfl

/-- The objects of a region among some members. -/
def objectsIn (region : Region) (xs : List Placed) : List Placed :=
  xs.filter fun x => x.member.id.isSome && x.member.region = region

/-- A member as a part of the staging buffer. -/
def partOf (slot : Nat) (x : Placed) : StagedPart := ⟨x.offset, x.member.size slot⟩

/-- The staged objects of a region are those of its members that are objects. -/
theorem map_filter_stagedOf (region : Region) (slot : Nat) (xs : List Placed) :
    ((xs.filterMap (StagingBuffer.stagedOf slot)).filter fun o => o.region = region).map
        (fun o => (⟨o.slot, o.size⟩ : StagedPart)) =
      (objectsIn region xs).map (partOf slot) := by
  induction xs with
  | nil => rfl
  | cons x xs ih =>
    rw [objectsIn, List.filter_cons, List.filterMap_cons, StagingBuffer.stagedOf]
    cases x.member.id with
    | none =>
      rw [Option.map_none, Option.isSome_none, Bool.false_and, if_neg Bool.false_ne_true]
      exact ih
    | some id =>
      rw [Option.map_some, Option.isSome_some, Bool.true_and]
      dsimp only
      rw [List.filter_cons]
      by_cases hregion : x.member.region = region
      · rw [if_pos (decide_eq_true hregion), if_pos (decide_eq_true hregion)]
        exact congrArg (List.cons _) ih
      · rw [if_neg (by simpa using hregion), if_neg (by simpa using hregion)]
        exact ih

/-- A member that a filter leaves out shares its place with none that it keeps. -/
theorem offset_notMem_filter {p : Placed → Bool} (hdistinct : (xs.map Placed.offset).Nodup)
    (hx : x ∈ xs) (hp : p x ≠ true) : x.offset ∉ (xs.filter p).map Placed.offset := by
  intro hmem
  obtain ⟨z, hz, hzx⟩ := List.mem_map.mp hmem
  obtain ⟨hzmem, hzp⟩ := List.mem_filter.mp hz
  obtain rfl := List.inj_on_of_nodup_map hdistinct hzmem hx hzx
  exact hp hzp

/-- **The objects of a region** are appended in the order in which they were staged. -/
theorem appends_of_copyObjects {region : Region}
    (hs : s.staging.Stages g r roots ref xs) (hslot : s.staging.slotSize = s.slotSize)
    (h : Runs ((s.stagedIn region).forM fun o => DumpSession.copyOne o.slot o.size) s () t) :
    ∃ ys, s.Appends t (objectsIn region xs) ys := by
  rw [forM_stagedIn, stagedIn, hs.objects, map_filter_stagedOf, runs_forM_map, hslot] at h
  have hrow := hs.row
  rw [hslot] at hrow
  apply appends_of_runs _ _ h
  · intro x hx
    exact (hrow.bounds x (List.mem_filter.mp hx).1).2
  · exact (hrow.nodup fun x _ => x.member.size_pos _).sublist (List.filter_sublist.map _)

/-- The root array, staged last, is no object of the open region and ends it. -/
theorem filter_region {objects : List Placed} {root : Placed}
    (hobjects : ∀ x ∈ objects, x.member.id.isSome = true) (hroot : root.member.id = none)
    (hregion : root.member.region = .opened) :
    (objects ++ [root]).filter (fun x => x.member.region = .opened) =
        objectsIn .opened (objects ++ [root]) ++ [root] ∧
      (objects ++ [root]).filter (fun x => x.member.region = .closed) =
        objectsIn .closed (objects ++ [root]) := by
  have hin : ∀ region, objectsIn region (objects ++ [root]) =
      objects.filter fun x => x.member.region = region := by
    intro region
    rw [objectsIn, List.filter_append, List.filter_cons_of_neg (by rw [hroot]; exact
      Bool.false_ne_true), List.filter_nil, List.append_nil]
    apply List.filter_congr
    intro x hx
    rw [hobjects x hx, Bool.true_and]
  rw [hin, hin, List.filter_append, List.filter_append]
  constructor
  · rw [List.filter_cons_of_pos (by simpa using hregion), List.filter_nil]
  · rw [List.filter_cons_of_neg (by rw [hregion]; decide), List.filter_nil, List.append_nil]

/-! ## Both regions -/

/-- The staged members `xs` have been copied to the output, those of the open region as `os` and
those of the closed region as `cs`. -/
structure Assembled (t : DumpSession) (xs os cs : List Placed) : Prop where
  openMembers : os.map Placed.member =
    (xs.filter fun x => x.member.region = .opened).map Placed.member
  closedMembers : cs.map Placed.member =
    (xs.filter fun x => x.member.region = .closed).map Placed.member
  openRow : Placed.Row t.slotSize 0 os t.openTop
  closedBottom_eq : t.closedBottom = alignUp t.openTop t.options.alignment
  closedRow : Placed.Row t.slotSize t.closedBottom cs t.closedTop
  size_output : t.output.size = t.closedTop
  copied : ∀ x ∈ xs, ∃ y ∈ os ++ cs, t.IsCopy x y
  staged : ∀ y ∈ os ++ cs, ∃ x ∈ xs, t.IsCopy x y
  placements : t.placements.toList = (os ++ cs).map (Placed.placement t.slotSize)
  boundary : ∀ y ∈ os ++ cs, alignDown y.offset t.options.alignment =
    alignDown (y.stop t.slotSize - 1) t.options.alignment
  gap : ∀ j, t.openTop ≤ j → j < t.closedBottom → Bytes.get t.output j = 0
  root : ∃ y ∈ os, y.member.id = none ∧ y.offset = t.rootOffset

/-- Ending the open region keeps the output that there is. -/
theorem get_endOpen_of_lt {p j : Nat} (hj : j < s.output.size) :
    Bytes.get (s.endOpen p).output j = Bytes.get s.output j := by
  have hgrow : s.output.size ≤ alignUp s.output.size s.options.alignment := le_alignUp _ _
  rw [endOpen, Bytes.get_resize, if_pos (by omega)]

/-- Ending the open region fills up with zeros. -/
theorem get_endOpen_of_le {p j : Nat} (hj : s.output.size ≤ j) :
    Bytes.get (s.endOpen p).output j = 0 := by
  rw [endOpen, Bytes.get_resize]
  split
  · exact Bytes.get_of_size_le hj
  · rfl

/-- Noting the end of the closed region keeps all copies. -/
theorem IsCopy.closedTop (h : s.IsCopy x y) : s.endClosed.IsCopy x y :=
  ⟨h.member, h.offset, h.bytes⟩

/-- Copies in the open region survive filling up the gap and copying the closed region. -/
theorem IsCopy.endClosed {p : Nat} (hcopy : s.IsCopy x y)
    (hcs : (s.endOpen p).Appends t zs ys) (hstop : y.stop s.slotSize ≤ s.output.size)
    (hx : x.offset ∉ zs.map Placed.offset) : t.endClosed.IsCopy x y := by
  have hend : (s.endOpen p).IsCopy x y := by
    refine hcopy.mono (t := s.endOpen p) rfl rfl rfl ?_
    intro k hk
    rw [Placed.stop, hcopy.member] at hstop
    exact get_endOpen_of_lt (by omega)
  have hkept := hcs.kept hend hx (by
    rw [endOpen, Bytes.size_resize]
    exact Nat.le_trans hstop (le_alignUp _ _))
  exact hkept.closedTop

section BothRegions

variable {os cs : List Placed} {p : Nat}

/-- The open copies stand one behind the other, and so do the closed ones behind the gap. -/
theorem rows_of_appends (hempty : s.output.size = 0) (hos : s.Appends t zs os)
    (hcs : (t.endOpen p).Appends u ys cs) :
    Placed.Row u.slotSize 0 os u.openTop ∧
      Placed.Row u.slotSize u.closedBottom cs u.output.size := by
  obtain ⟨hopenTop, hclosedBottom, -⟩ := hcs.places_eq
  have hopened := hos.row
  have hclosed := hcs.row
  rw [hempty, ← hos.slotSize_eq] at hopened
  rw [show (t.endOpen p).output.size = (t.endOpen p).closedBottom from Bytes.size_resize ..]
    at hclosed
  rw [hopenTop, hclosedBottom, hcs.slotSize_eq]
  exact ⟨hopened, hclosed⟩

/-- Every staged member has a copy in its region, and there are no other copies. -/
theorem isCopy_of_appends (hdistinct : (xs.map Placed.offset).Nodup)
    (hos : s.Appends t (xs.filter fun x => x.member.region = .opened) os)
    (hcs : (t.endOpen p).Appends u (xs.filter fun x => x.member.region = .closed) cs) :
    (∀ x ∈ xs, ∃ y ∈ os ++ cs, u.endClosed.IsCopy x y) ∧
      ∀ y ∈ os ++ cs, ∃ x ∈ xs, u.endClosed.IsCopy x y := by
  -- The gap and the closed region lie behind all open copies, so those stay as they are.
  have hkeep : ∀ {x y}, x ∈ xs → x.member.region = .opened → y ∈ os → t.IsCopy x y →
      u.endClosed.IsCopy x y := by
    intro x y hx hregion hy hcopy
    refine hcopy.endClosed hcs ?_ (offset_notMem_filter hdistinct hx ?_)
    · rw [hos.slotSize_eq]
      exact (hos.row.bounds y hy).2
    · rw [hregion]
      decide
  constructor
  · intro x hx
    cases hregion : x.member.region with
    | opened =>
      obtain ⟨y, hy, hcopy⟩ := hos.copied x (List.mem_filter.mpr ⟨hx, decide_eq_true hregion⟩)
      exact ⟨y, List.mem_append_left _ hy, hkeep hx hregion hy hcopy⟩
    | closed =>
      obtain ⟨y, hy, hcopy⟩ := hcs.copied x (List.mem_filter.mpr ⟨hx, decide_eq_true hregion⟩)
      exact ⟨y, List.mem_append_right _ hy, hcopy.closedTop⟩
  · intro y hy
    rcases List.mem_append.mp hy with hy | hy
    · obtain ⟨x, hx, hcopy⟩ := hos.staged y hy
      obtain ⟨hmem, hregion⟩ := List.mem_filter.mp hx
      exact ⟨x, hmem, hkeep hmem (of_decide_eq_true hregion) hy hcopy⟩
    · obtain ⟨x, hx, hcopy⟩ := hcs.staged y hy
      exact ⟨x, (List.mem_filter.mp hx).1, hcopy.closedTop⟩

/-- The placements are noted in the order of the image. -/
theorem placements_of_appends (hplacements : s.placements.toList = [])
    (hos : s.Appends t zs os) (hcs : (t.endOpen p).Appends u ys cs) :
    u.placements.toList = (os ++ cs).map (Placed.placement u.slotSize) := by
  have hopened : (t.endOpen p).placements.toList = os.map (Placed.placement t.slotSize) := by
    rw [endOpen, hos.placements, hplacements, List.nil_append, hos.slotSize_eq]
  rw [hcs.placements, hopened, List.map_append, hcs.slotSize_eq]
  rfl

/-- No copy crosses a boundary. -/
theorem boundary_of_appends (hos : s.Appends t zs os) (hcs : (t.endOpen p).Appends u ys cs) :
    ∀ y ∈ os ++ cs, alignDown y.offset u.options.alignment =
      alignDown (y.stop u.slotSize - 1) u.options.alignment := by
  have hopened := hos.boundary
  rw [← hos.options_eq, ← hos.slotSize_eq] at hopened
  rw [hcs.options_eq, hcs.slotSize_eq]
  exact List.forall_mem_append.mpr ⟨hopened, hcs.boundary⟩

/-- Copies of the closed region are only appended, so the gap keeps the zeros it was filled with. -/
theorem gap_of_appends (hcs : (t.endOpen p).Appends u ys cs) {j : Nat} (hlow : u.openTop ≤ j)
    (hhigh : j < u.closedBottom) : Bytes.get u.output j = 0 := by
  obtain ⟨hopenTop, hclosedBottom, -⟩ := hcs.places_eq
  rw [hopenTop] at hlow
  rw [hclosedBottom] at hhigh
  have hfront : j < (t.endOpen p).output.size := by
    rwa [show (t.endOpen p).output.size = (t.endOpen p).closedBottom from Bytes.size_resize ..]
  rw [hcs.front j hfront]
  exact get_endOpen_of_le hlow

/-- **Two regions** that were appended one after the other make up an image. -/
theorem assembled_of_appends (hdistinct : (xs.map Placed.offset).Nodup)
    (hempty : s.output.size = 0) (hplacements : s.placements.toList = [])
    (hos : s.Appends t (xs.filter fun x => x.member.region = .opened) os)
    (hcs : (t.endOpen p).Appends u (xs.filter fun x => x.member.region = .closed) cs)
    (hroot : ∃ y ∈ os, y.member.id = none ∧ y.offset = p) :
    u.endClosed.Assembled xs os cs := by
  obtain ⟨hopenTop, hclosedBottom, hrootOffset⟩ := hcs.places_eq
  obtain ⟨hopened, hclosed⟩ := rows_of_appends hempty hos hcs
  obtain ⟨hcopied, hstaged⟩ := isCopy_of_appends hdistinct hos hcs
  have hplaced := placements_of_appends hplacements hos hcs
  have hboundary := boundary_of_appends hos hcs
  constructor
  case openMembers => exact hos.members
  case closedMembers => exact hcs.members
  case openRow => exact hopened
  case closedBottom_eq =>
    change u.closedBottom = alignUp u.openTop u.options.alignment
    rw [hclosedBottom, hopenTop, hcs.options_eq]
    rfl
  case closedRow => exact hclosed
  case size_output => rfl
  case copied => exact hcopied
  case staged => exact hstaged
  case placements => exact hplaced
  case boundary => exact hboundary
  case gap => exact fun j hlow hhigh => gap_of_appends hcs hlow hhigh
  case root =>
    change ∃ y ∈ os, y.member.id = none ∧ y.offset = u.rootOffset
    rw [hrootOffset]
    exact hroot

end BothRegions

/-- **Copying both regions** of a session that has not copied anything yet. -/
theorem assembled_of_runs {objects : List Placed} {root : Placed} {v : Unit}
    (hs : s.staging.Stages g r roots ref (objects ++ [root]))
    (hslot : s.staging.slotSize = s.slotSize)
    (hobjects : ∀ x ∈ objects, x.member.id.isSome = true) (hroot : root.member.id = none)
    (hregion : root.member.region = .opened)
    (hroots : s.staging.roots = some ⟨root.offset, root.member.size s.slotSize, roots⟩)
    (hempty : s.output.size = 0) (hplacements : s.placements.toList = [])
    (hopen : Runs (copy .opened) s v t) (hclosed : Runs (copy .closed) t v u) :
    (∃ os cs, u.Assembled (objects ++ [root]) os cs) ∧ u.staging = s.staging ∧
      u.options = s.options ∧ u.registry = s.registry := by
  obtain ⟨s', roots', s'', hcopy, hroots', hone, rfl⟩ := of_runs_copy_opened hopen
  obtain ⟨t', hcopy', rfl⟩ := of_runs_copy_closed hclosed
  obtain ⟨hopened, hclosed⟩ := filter_region hobjects hroot hregion
  have hrow := hs.row
  rw [hslot] at hrow
  have hnodup : ((objects ++ [root]).map Placed.offset).Nodup :=
    hrow.nodup fun x _ => x.member.size_pos _
  -- The open region: its objects, then the root array.
  obtain ⟨ys, hys⟩ := appends_of_copyObjects hs hslot hcopy
  rw [hys.staging_eq, hroots] at hroots'
  obtain rfl := Option.some.inj hroots'
  have hrootMem : root ∈ objects ++ [root] := List.mem_append_right _ (List.mem_singleton_self _)
  have hos := hys.copyOne (offset_notMem_filter hnodup hrootMem (by simp [hroot]))
    (hrow.bounds root hrootMem).2 hone
  rw [← hopened] at hos
  -- The closed region, behind the gap.
  have hstaging : (s''.endOpen s'.output.size).staging = s.staging := hos.staging_eq
  obtain ⟨cs, hcs⟩ := appends_of_copyObjects (hstaging.symm ▸ hs)
    ((congrArg _ hstaging).trans (hslot.trans hos.slotSize_eq.symm)) hcopy'
  rw [← hclosed] at hcs
  refine ⟨⟨_, cs, assembled_of_appends hnodup hempty hplacements hos hcs ?_⟩, ?_, ?_, ?_⟩
  · exact ⟨⟨root.member, s'.output.size⟩, by simp, hroot, rfl⟩
  · exact hcs.staging_eq.trans hos.staging_eq
  · exact hcs.options_eq.trans hos.options_eq
  · exact hcs.registry_eq.trans hos.registry_eq

end DumpSession

end HeapImage
