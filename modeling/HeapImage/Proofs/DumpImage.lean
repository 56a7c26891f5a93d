import HeapImage.Archive.Basic
import HeapImage.Proofs.FilledImages

/-! # The image of a dump

A dump that succeeds has staged all selected objects and the root array, linked them, copied them,
planned their addresses and relocated them. Here the steps are put together.

* `DumpSession.Complete`: the output of a dump and the members in it.
* `Archive.complete_of_dump`: every dump that succeeds is complete in this sense. -/

namespace HeapImage

namespace DumpSession

variable {s t : DumpSession} {q : RequestedRegions} {g : ObjectGraph} {r : TypeRegistry}
variable {roots : List ObjectId}

/-! ## Staging all entries -/

/-- The objects of a selection, staged in order. -/
theorem stages_of_runs {entries : List (ObjectId × Region)} {u : Unit}
    (hslot : IsSlotSize s.staging.slotSize)
    (hs : s.staging.Stages g s.registry roots (fun _ => 0) [])
    (h : Runs (entries.forM fun e => discard (allocate g e.1 e.2)) s u t) :
    ∃ objects staging, t = { s with staging := staging } ∧
      staging.Stages g s.registry roots (fun _ => 0) objects ∧
      objects.map (fun x => (x.member.id, x.member.region)) =
        entries.map (fun e => (some e.1, e.2)) ∧
      staging.slotSize = s.staging.slotSize ∧ staging.capacity = s.staging.capacity := by
  refine runs_forM_induction
    (fun done w => ∃ objects staging, w = { s with staging := staging } ∧
      staging.Stages g s.registry roots (fun _ => 0) objects ∧
      objects.map (fun x => (x.member.id, x.member.region)) = done.map (fun e => (some e.1, e.2)) ∧
      staging.slotSize = s.staging.slotSize ∧ staging.capacity = s.staging.capacity) h
    ⟨[], s.staging, rfl, hs, rfl, rfl, rfl⟩ ?_
  rintro done ⟨id, region⟩ rest w w' - ⟨objects, staging, rfl, hstages, hids, hw, hc⟩ hstep
  obtain ⟨slot, hstep⟩ := runs_discard.mp hstep
  obtain ⟨object, hprepare, rfl⟩ := of_runs_allocate hstep
  obtain ⟨x, hid, hregion, hpush⟩ := hstages.push (hw.symm ▸ hslot) hprepare region
  refine ⟨objects ++ [x], _, rfl, hpush, ?_, hw, hc⟩
  rw [List.map_append, List.map_append, hids, List.map_singleton, List.map_singleton, hid, hregion]

/-! ## The complete image -/

/-- The output of a session is an image: the members `os` of the open region and `cs` of the closed
one stand in it, with the numbers `ref` in place of references. -/
structure Complete (s : DumpSession) (q : RequestedRegions) (g : ObjectGraph)
    (selection : Selection) (os cs : List Placed) (ref : ObjectId → Nat) : Prop where
  openIds : os.map (fun x => x.member.id) =
    (selection.entries.filter fun e => e.2 = .opened).map (fun e => some e.1) ++ [none]
  closedIds : cs.map (fun x => x.member.id) =
    (selection.entries.filter fun e => e.2 = .closed).map fun e => some e.1
  distinct : ((os ++ cs).map fun x => x.member.id).Nodup
  of : ∀ x ∈ os ++ cs, x.member.Of g s.registry selection.roots
  openRow : Placed.Row s.slotSize 0 os s.openTop
  closedBottom_eq : s.closedBottom = alignUp s.openTop s.options.alignment
  closedRow : Placed.Row s.slotSize s.closedBottom cs s.closedTop
  size_output : s.output.size = s.imageSize
  held : ∀ x ∈ os ++ cs, x.Held s.slotSize ref id (Bytes.get s.output)
  stored : ∀ x ∈ os ++ cs, ∀ id, x.member.id = some id →
    s.options.encoding.encode (q.addressOf x.offset) = .ok (ref id)
  storable : ∀ x ∈ os ++ cs, ∃ value, s.options.encoding.encode (q.addressOf x.offset) = .ok value
  referents : ∀ x ∈ os ++ cs, ∀ c ∈ x.member.cells s.slotSize, ∀ id,
    c.value = .reference (some id) → ∃ y ∈ os ++ cs, y.member.id = some id
  boundary : ∀ x ∈ os ++ cs, alignDown x.offset s.options.alignment =
    alignDown (x.stop s.slotSize - 1) s.options.alignment
  zero : ∀ j, s.openTop ≤ j ∧ j < s.closedBottom ∨ s.closedTop ≤ j → Bytes.get s.output j = 0
  placements : s.placements.toList = (os ++ cs).map (Placed.placement s.slotSize)
  root : ∃ x ∈ os, x.member.id = none ∧ x.offset = s.rootOffset
  sum_size_le : ((os ++ cs).map fun x => x.member.size s.slotSize).sum ≤ s.options.capacity
  base_ne_zero : q.opened.bottom ≠ 0
  dvd_base : s.options.alignment ∣ q.opened.bottom
  base_add : q.opened.bottom + s.imageSize = alignDown s.options.heapEnd s.options.alignment

/-- A complete image stands. -/
theorem Complete.standing {selection : Selection} {os cs : List Placed} {ref : ObjectId → Nat}
    (h : s.Complete q g selection os cs ref) : s.Standing q g selection.roots os cs ref :=
  ⟨⟨h.openRow, h.closedBottom_eq, h.closedRow, h.boundary, h.zero, h.placements, h.root⟩, h.of,
    h.held, h.size_output, h.base_ne_zero, h.dvd_base, h.base_add⟩

/-- Every selected object is a member of its region. -/
theorem Complete.mem_ids {selection : Selection} {os cs : List Placed} {ref : ObjectId → Nat}
    (h : s.Complete q g selection os cs ref) {e : ObjectId × Region} (he : e ∈ selection.entries) :
    some e.1 ∈ (os ++ cs).map fun x => x.member.id := by
  obtain ⟨i, region⟩ := e
  rw [List.map_append, h.openIds, h.closedIds]
  cases region with
  | opened =>
    apply List.mem_append_left
    apply List.mem_append_left
    exact List.mem_map.mpr ⟨_, List.mem_filter.mpr ⟨he, rfl⟩, rfl⟩
  | closed =>
    apply List.mem_append_right
    exact List.mem_map.mpr ⟨_, List.mem_filter.mpr ⟨he, rfl⟩, rfl⟩

section

variable {xs os cs : List Placed} {x y : Placed} {ref : ObjectId → Nat}

/-- The members of both regions are the staged ones. -/
theorem Assembled.ids (h : t.Assembled xs os cs) :
    os.map (fun x => x.member.id) =
        (xs.filter fun x => x.member.region = .opened).map (fun x => x.member.id) ∧
      cs.map (fun x => x.member.id) =
        (xs.filter fun x => x.member.region = .closed).map (fun x => x.member.id) := by
  have hmap : ∀ l : List Placed, l.map (fun x => x.member.id) =
      (l.map Placed.member).map Member.id := by
    intro l
    rw [List.map_map]
    rfl
  rw [hmap, hmap, hmap, hmap, h.openMembers, h.closedMembers]
  exact ⟨rfl, rfl⟩

/-- The members of an image are told apart by their objects. -/
theorem Assembled.distinct (h : t.Assembled xs os cs)
    (hdistinct : (xs.map fun x => x.member.id).Nodup) :
    ((os ++ cs).map fun x => x.member.id).Nodup := by
  obtain ⟨hos, hcs⟩ := h.ids
  rw [List.map_append, hos, hcs, List.nodup_append]
  refine ⟨hdistinct.sublist (List.filter_sublist.map _),
    hdistinct.sublist (List.filter_sublist.map _), ?_⟩
  rintro a ha b hb rfl
  obtain ⟨x, hx, hxa⟩ := List.mem_map.mp ha
  obtain ⟨y, hy, hya⟩ := List.mem_map.mp hb
  obtain ⟨hxmem, hxregion⟩ := List.mem_filter.mp hx
  obtain ⟨hymem, hyregion⟩ := List.mem_filter.mp hy
  obtain rfl := List.inj_on_of_nodup_map hdistinct hxmem hymem (hxa.trans hya.symm)
  rw [of_decide_eq_true hxregion] at hyregion
  exact absurd hyregion (by decide)

/-- The members of both regions have as many bytes as the staged ones. -/
theorem Assembled.sum_size (h : t.Assembled xs os cs) (size : Member → Nat) :
    ((os ++ cs).map fun x => size x.member).sum = (xs.map fun x => size x.member).sum := by
  have hmap : ∀ l : List Placed,
      l.map (fun x => size x.member) = (l.map Placed.member).map size := by
    intro l
    rw [List.map_map]
    rfl
  have hclosed : xs.filter (fun x => x.member.region = .closed) =
      xs.filter fun x => !decide (x.member.region = .opened) := by
    apply List.filter_congr
    intro x _
    cases x.member.region <;> rfl
  have hperm := (List.filter_append_perm (fun x : Placed => x.member.region = .opened) xs).map
    fun x => size x.member
  rw [List.map_append, hmap os, hmap cs, h.openMembers, h.closedMembers, hclosed, ← hmap, ← hmap,
    ← List.map_append]
  exact hperm.sum_nat

/-- Entries of a region are the objects of the region. -/
theorem ids_of_region {objects : List Placed} {entries : List (ObjectId × Region)}
    (hids : objects.map (fun x => (x.member.id, x.member.region)) =
      entries.map (fun e => (some e.1, e.2))) (region : Region) :
    (objects.filter fun x => x.member.region = region).map (fun x => x.member.id) =
      (entries.filter fun e => e.2 = region).map fun e => some e.1 := by
  have hobjects := congrArg (fun l => (l.filter fun y => y.2 = region).map Prod.fst) hids
  simpa only [List.filter_map, List.map_map, Function.comp_def] using hobjects

/-- What is known of the offset of a copied object. -/
theorem offsetOf_of_copy (hs : t.staging.Stages g r roots ref xs) (hx : x ∈ xs)
    (hcopy : t.IsCopy x y) {id : ObjectId} (hid : y.member.id = some id) :
    t.staging.slotOf? id = some x.offset ∧ t.offsetOf? id = some y.offset := by
  have hslot := (hs.slotOf id x.offset).mpr ⟨x, hx, by rw [← hcopy.member]; exact hid, rfl⟩
  refine ⟨hslot, ?_⟩
  rw [offsetOf?, hslot]
  exact hcopy.offset

/-- Copied members hold what staged ones do. -/
theorem Assembled.held (h : t.Assembled xs os cs) (hslot : IsSlotSize t.slotSize)
    (hs : t.staging.Stages g r roots ref xs) (hsize : t.staging.slotSize = t.slotSize) :
    ∀ y ∈ os ++ cs, y.member.Of g r roots ∧ y.Held t.slotSize ref id (Bytes.get t.output) := by
  intro y hy
  obtain ⟨x, hx, hcopy⟩ := h.staged y hy
  have hheld := hs.held x hx
  have hof := hs.of x hx
  rw [hsize] at hheld
  rw [Placed.Held, hcopy.member]
  exact ⟨hof, hheld.congr hof hslot hcopy.bytes⟩

/-- A session whose members are staged and linked, and which has copied nothing yet. -/
structure Linked (s : DumpSession) (g : ObjectGraph) (selection : Selection)
    (objects : List Placed) (root : Placed) (ref : ObjectId → Nat) : Prop where
  stages : s.staging.Stages g s.registry selection.roots ref (objects ++ [root])
  ids : objects.map (fun x => (x.member.id, x.member.region)) =
    selection.entries.map (fun e => (some e.1, e.2))
  root_id : root.member.id = none
  root_region : root.member.region = .opened
  roots : s.staging.roots = some ⟨root.offset, root.member.size s.slotSize, selection.roots⟩
  slotSize_eq : s.staging.slotSize = s.slotSize
  capacity_eq : s.staging.capacity = s.options.capacity
  identity : ∀ id p, s.staging.slotOf? id = some p → ref id = identityOf p
  referents : ∀ x ∈ objects ++ [root], ∀ c ∈ x.member.cells s.slotSize, ∀ id,
    c.value = .reference (some id) → ∃ p, s.staging.slotOf? id = some p
  output : s.output.size = 0
  placements : s.placements.toList = []

/-- Entries of a selection are objects. -/
theorem isSome_of_ids {objects : List Placed} {entries : List (ObjectId × Region)}
    (hids : objects.map (fun x => (x.member.id, x.member.region)) =
      entries.map (fun e => (some e.1, e.2))) : ∀ x ∈ objects, x.member.id.isSome = true := by
  intro x hx
  have hmem : (x.member.id, x.member.region) ∈
      objects.map (fun x => (x.member.id, x.member.region)) := List.mem_map.mpr ⟨x, hx, rfl⟩
  rw [hids] at hmem
  obtain ⟨e, -, he⟩ := List.mem_map.mp hmem
  rw [← (Prod.mk.inj he).1]
  rfl

/-- **Staging and linking** a selection. -/
theorem linked_of_runs {o : DumpOptions} {selection : Selection} {s₁ s₂ s₃ : DumpSession}
    {u v : Unit} {slot : Nat} (hcheck : o.check = .ok ()) (hcapacity : o.capacity < 2 ^ 64)
    (hentries :
      Runs (selection.entries.forM fun e => discard (allocate g e.1 e.2)) (start r o) u s₁)
    (hroots : Runs (allocateRoots selection.roots) s₁ slot s₂)
    (hlink : Runs (link g) s₂ v s₃) :
    s₃.registry = r ∧ s₃.options = o ∧
      ∃ objects root ref, s₃.Linked g selection objects root ref := by
  have hslot : IsSlotSize o.encoding.slotSize := o.encoding.isSlotSize
  obtain ⟨objects, staging, rfl, hstages, hids, hw, hc⟩ := stages_of_runs (s := start r o) hslot
    (StagingBuffer.stages_empty ..) hentries
  have hsome : ∀ x ∈ objects, x.member.id ≠ none := by
    intro x hx
    exact Option.isSome_iff_ne_none.mp (isSome_of_ids hids x hx)
  obtain ⟨array, harray, rfl⟩ := of_runs_allocateRoots hroots
  obtain ⟨root, hrootId, hrootRegion, hrootArray, hpush⟩ :=
    hstages.pushRoots (hw.symm ▸ hslot) hsome harray
  obtain ⟨s', links, linked, hroots', hlinks, happly, rfl⟩ := of_runs_link hlink
  -- The root array has been staged by its own call, so linking adds none.
  cases hroots' with
  | empty hnone =>
    cases hrootArray.symm.trans hnone
  | there =>
    have hsize : (staging.pushRoots selection.roots array).slotSize = o.encoding.slotSize := hw
    have hroom : (staging.pushRoots selection.roots array).capacity / wordSize <
        256 ^ (staging.pushRoots selection.roots array).slotSize := by
      rw [hsize]
      exact hc ▸ DumpOptions.capacity_div_lt hcheck hcapacity
    have hstocks := hpush.stocks (x := root) (by simp) hrootId hrootArray
    obtain ⟨hbytes, hlinked, hreferents, -⟩ :=
      hstocks.link (hw.symm ▸ hslot) (fun _ _ => hpush.identity_lt hroom) hlinks happly
    -- Linking writes bytes. Where the members have been staged stays as it is.
    have hslotOf : ∀ id, linked.slotOf? id =
        (staging.pushRoots selection.roots array).slotOf? id := by
      intro id
      rw [hbytes]
      rfl
    have hlinkedSize : linked.slotSize = o.encoding.slotSize := by
      rw [hbytes]
      exact hsize
    have hlinkedRoom : linked.capacity = o.capacity := by
      rw [hbytes]
      exact hc
    refine ⟨rfl, rfl, objects, root, _, hlinked, hids, hrootId, hrootRegion, ?_, hlinkedSize,
      hlinkedRoom, ?_, ?_, rfl, rfl⟩
    · dsimp only
      rw [hbytes, hrootArray]
      exact congrArg (fun n => some (StagedRoots.mk root.offset (root.member.size n) _)) hw
    · intro id p hp
      dsimp only at hp
      rw [hslotOf] at hp
      rw [StagingBuffer.identity, hp, Option.getD_some]
    · intro x hx c hc id hv
      dsimp only
      rw [hslotOf]
      exact hreferents x hx c (by rwa [hsize]) id hv

/-- The objects stand in the image in the order of the selection, the root array behind the open
ones. -/
theorem Linked.ids_of_assembled {selection : Selection} {objects : List Placed} {root : Placed}
    (hs : s.Linked g selection objects root ref) (h : t.Assembled (objects ++ [root]) os cs) :
    os.map (fun x => x.member.id) =
        (selection.entries.filter fun e => e.2 = .opened).map (fun e => some e.1) ++ [none] ∧
      cs.map (fun x => x.member.id) =
        (selection.entries.filter fun e => e.2 = .closed).map fun e => some e.1 := by
  obtain ⟨hos, hcs⟩ := h.ids
  rw [List.filter_append, List.map_append, ids_of_region hs.ids] at hos hcs
  rw [List.filter_cons_of_pos (by rw [hs.root_region]; rfl), List.filter_nil, List.map_singleton,
    hs.root_id] at hos
  rw [List.filter_cons_of_neg (by rw [hs.root_region]; decide), List.filter_nil, List.map_nil,
    List.append_nil] at hcs
  exact ⟨hos, hcs⟩

/-- A linked session that has copied both regions is filled with members. -/
theorem Linked.filled {selection : Selection} {objects : List Placed} {root : Placed}
    (hs : s.Linked g selection objects root ref) (h : t.Assembled (objects ++ [root]) os cs)
    (hstaging : t.staging = s.staging) (hoptions : t.options = s.options)
    (hregistry : t.registry = s.registry) : t.Filled g selection.roots os cs ref := by
  have hslotSize : t.slotSize = s.slotSize := congrArg (fun o => o.encoding.slotSize) hoptions
  have hheld := h.held (ReferenceEncoding.isSlotSize _) (hstaging.symm ▸ hs.stages)
    (by rw [hstaging, hs.slotSize_eq, hslotSize])
  refine ⟨⟨h.openRow, h.closedBottom_eq, h.closedRow, h.boundary, ?_, h.placements, h.root⟩, ?_,
    fun y hy => (hheld y hy).2, ?_⟩
  rotate_left
  · rw [hregistry]
    exact fun y hy => (hheld y hy).1
  · intro y hy c hc i hv
    obtain ⟨x, hx, hcopy⟩ := h.staged y hy
    rw [hcopy.member, hslotSize] at hc
    obtain ⟨p, hp⟩ := hs.referents x hx c hc i hv
    obtain ⟨x', hx', -, rfl⟩ := (hs.stages.slotOf i p).mp hp
    -- A reference leads to a staged object, which has been copied as well.
    obtain ⟨z, hz, hcopy'⟩ := h.copied x' hx'
    refine ⟨x'.offset, by rw [hstaging, hp], hs.identity i _ hp, ?_, z, hz, hcopy'.offset⟩
    exact (hs.stages.row.dvd (Nat.dvd_zero _) fun x _ => x.member.wordSize_dvd_size _).1 x' hx'
  · rintro j (⟨hlow, hhigh⟩ | hhigh)
    · exact h.gap j hlow hhigh
    · rw [← h.size_output] at hhigh
      exact Bytes.get_of_size_le hhigh

/-- **Copying, planning and relocating** a linked session completes its image. -/
theorem complete_of_runs {selection : Selection} {objects : List Placed} {root : Placed}
    {s₄ s₅ s₆ s₇ : DumpSession} {u : Unit} (hs : s.Linked g selection objects root ref)
    (hcheck : s.options.check = .ok ()) (hend : s.options.heapEnd < 2 ^ 64)
    (hopen : Runs (copy .opened) s u s₄) (hclosed : Runs (copy .closed) s₄ u s₅)
    (hfinalize : Runs finalize s₅ q s₆) (hrelocate : Runs relocate s₆ u s₇) :
    s₇.registry = s.registry ∧ s₇.options = s.options ∧ s₇.requested = some q ∧
      ∃ os cs, s₇.Complete q g selection os cs (s₇.storedRef q) := by
  obtain ⟨⟨os, cs, hassembled⟩, hstaging, hoptions, hregistry⟩ := assembled_of_runs hs.stages
    hs.slotSize_eq (isSome_of_ids hs.ids) hs.root_id hs.root_region hs.roots hs.output
    hs.placements hopen hclosed
  have hslotSize : s₅.slotSize = s.slotSize := congrArg (fun o => o.encoding.slotSize) hoptions
  have hstages : s₅.staging.Stages g s.registry selection.roots ref (objects ++ [root]) := by
    rw [hstaging]
    exact hs.stages
  have hfilled := hs.filled hassembled hstaging hoptions hregistry
  obtain ⟨hplan, haddresses, rfl⟩ := of_runs_finalize hfinalize
  obtain ⟨q', done, hq, hrun, rfl⟩ := of_runs_relocate hrelocate
  obtain rfl := Option.some.inj hq
  have hplanned : Planned { s₅ with
      output := Bytes.resize s₅.output s₅.imageSize
      requested := some q
      phase := .finalized } q :=
    ⟨rfl, hplan, haddresses, Bytes.size_resize ..⟩
  have hstanding := (hfilled.finalize (q := q)).standing (hoptions.symm ▸ hcheck)
    (hoptions.symm ▸ hend) hplanned
    ((hfilled.finalize (q := q)).relocated hplanned hrun) (some done.recorded) .relocated
  have hreferents : ∀ y ∈ os ++ cs, ∀ c ∈ y.member.cells s₅.slotSize, ∀ id,
      c.value = .reference (some id) → ∃ z ∈ os ++ cs, z.member.id = some id := by
    intro y hy c hc id hv
    obtain ⟨x, hx, hcopy⟩ := hassembled.staged y hy
    rw [hcopy.member, hslotSize] at hc
    obtain ⟨p, hp⟩ := hs.referents x hx c hc id hv
    obtain ⟨x', hx', hid, -⟩ := (hs.stages.slotOf id p).mp hp
    obtain ⟨z, hz, hcopy'⟩ := hassembled.copied x' hx'
    exact ⟨z, hz, by rwa [hcopy'.member]⟩
  -- The staged members fill the staging buffer.
  have hsum : ((os ++ cs).map fun x => x.member.size s₅.slotSize).sum ≤ s₅.options.capacity := by
    have hfits := hs.stages.fits
    have hrow := hs.stages.row.add_sum
    rw [hs.slotSize_eq, Nat.zero_add] at hrow
    have hsame := hassembled.sum_size fun m => m.size s.slotSize
    rw [hslotSize, hsame, hrow, hoptions, ← hs.capacity_eq]
    exact hfits
  obtain ⟨hopenIds, hclosedIds⟩ := hs.ids_of_assembled hassembled
  refine ⟨hregistry, hoptions, rfl, os, cs, hopenIds, hclosedIds,
    hassembled.distinct hs.stages.distinct, hstanding.of, hstanding.openRow,
    hstanding.closedBottom_eq, hstanding.closedRow, hstanding.size_output, hstanding.held, ?_,
    ?_, hreferents, hstanding.boundary, hstanding.zero, hstanding.placements, hstanding.root, hsum,
    hstanding.base_ne_zero, hstanding.dvd_base, hstanding.base_add⟩
  · intro y hy id hid
    obtain ⟨x, hx, hcopy⟩ := hassembled.staged y hy
    exact hfilled.encode_storedRef haddresses hy (offsetOf_of_copy hstages hx hcopy hid).2
  · intro y hy
    refine of_checkAddresses haddresses (y.placement s₅.slotSize) ?_
    rw [hassembled.placements]
    exact List.mem_map.mpr ⟨y, hy, rfl⟩

end

end DumpSession

namespace Archive

/-- **Every dump that succeeds** has gone through a session that ends with a complete image, and is
assembled from it. -/
theorem complete_of_dump {r : TypeRegistry} {g : ObjectGraph} {selection : Selection}
    {o : DumpOptions} {a : Archive} (hwords : o.InWords)
    (h : dump r g selection o = .ok a) :
    ∃ s q opened closed os cs, s.registry = r ∧ s.options = o ∧ o.check = .ok () ∧
      s.maps = .ok (opened, closed) ∧ a = assemble (headerOf s q) s.output r opened closed ∧
      s.Complete q g selection os cs (s.storedRef q) := by
  rw [dump, Except.bind_eq_ok] at h
  obtain ⟨s₀, hstart, h⟩ := h
  rw [DumpSession.start?, Except.bind_eq_ok] at hstart
  obtain ⟨⟨⟩, hcheck, hstart⟩ := hstart
  rw [Except.pure_eq_ok] at hstart
  subst hstart
  cases hrun : (dumpSteps g selection).run (DumpSession.start r o) with
  | mk result s₇ =>
    rw [hrun] at h
    obtain ⟨u, rfl, h⟩ := Except.bind_eq_ok.mp h
    change Runs (dumpSteps g selection) _ u s₇ at hrun
    simp only [dumpSteps, runs_bind, runs_discard] at hrun
    obtain ⟨u₁, s₁, hentries, u₂, s₂, ⟨slot, hroots⟩, u₃, s₃, hlink, u₄, s₄, hopen, u₅, s₅, hclosed,
      u₆, s₆, ⟨q, hfinalize⟩, hrelocate⟩ := hrun
    -- The calls fall into two parts: what leads to a linked session, and what completes its image.
    obtain ⟨hregistry₃, hoptions₃, objects, root, ref, hlinked⟩ := DumpSession.linked_of_runs hcheck
      hwords.capacity_lt hentries hroots hlink
    obtain ⟨hregistry, hoptions, hrequested, os, cs, hcomplete⟩ := DumpSession.complete_of_runs
      hlinked (by rw [hoptions₃]; exact hcheck) (by rw [hoptions₃]; exact hwords.heapEnd_lt)
      hopen hclosed hfinalize hrelocate
    change ofSession s₇ = .ok a at h
    rw [ofSession, Except.bind_eq_ok] at h
    obtain ⟨⟨opened, closed⟩, hmaps, h⟩ := h
    dsimp only at h
    rw [hrequested] at h
    dsimp only at h
    rw [Except.pure_eq_ok] at h
    refine ⟨s₇, q, opened, closed, os, cs, hregistry.trans hregistry₃, hoptions.trans hoptions₃,
      hcheck, hmaps, ?_, hcomplete⟩
    rw [← h, hregistry, hregistry₃]

end Archive

end HeapImage
