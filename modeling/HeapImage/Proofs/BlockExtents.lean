import HeapImage.Proofs.AddressSums
import HeapImage.Proofs.ArenaRoom
import HeapImage.Proofs.CopiedBytes
import HeapImage.Proofs.SessionArchive
import Mathlib.Data.List.Chain

/-! # The blocks of a load

An arena gives memory upwards, so every copy lies behind the copies before it. A copy that starts
where the last block ends, in the heap and in the image, becomes part of that block, and any other
copy starts a new one. So the blocks of a load follow each other in the heap as they do in the
image, whatever chunks the arena starts on the way, and no two of them could be one.

* `CopyState.Stacked`, `CopyStep.stacked_of_runs_copyObject`: the blocks of a copy under way.
* `Tiles.of_flatMap`, `Grouped.tiles_region`: blocks tile what their copies tile.
* `Archive.Made`: the archives there can be.
* `Archive.PartitionedBy`, `Archive.partitioned_of_copyImage`: the blocks of a load. -/

namespace HeapImage

/-! ## Arenas that are written to -/

namespace Arena

variable {h k : Arena}

/-- An arena in which something has been written and nothing has been allocated. -/
structure Rewritten (h k : Arena) : Prop where
  wellFormed : k.WellFormed
  frontier : k.frontier = h.frontier
  allocatedBytes : k.allocatedBytes = h.allocatedBytes

/-- An arena is its own rewriting. -/
theorem Rewritten.refl (hw : h.WellFormed) : h.Rewritten h := ⟨hw, rfl, rfl⟩

/-- Writing does not move the frontier. -/
theorem Rewritten.write (hk : h.Rewritten k) (a : Nat) (bytes : ByteArray) :
    h.Rewritten (k.write a bytes) where
  wellFormed := hk.wellFormed.write a bytes
  frontier := (frontier_write hk.wellFormed a bytes).trans hk.frontier
  allocatedBytes := (settings_write k a bytes).2.2.2.trans hk.allocatedBytes

end Arena

/-! ## Blocks of a copy under way -/

/-- The blocks of a copy into an arena `h` follow each other in the heap, none meets the next one,
and nothing but them has been allocated. -/
structure CopyState.Stacked (s : CopyState Arena) (h : Arena) : Prop where
  wellFormed : s.heap.WellFormed
  bottom_le : ∀ b ∈ s.blocks.toList, b.dest.bottom ≤ b.dest.top
  top_le : ∀ b ∈ s.blocks.toList, b.dest.top ≤ s.heap.frontier
  ascending : s.blocks.toList.Pairwise fun b b' => b.dest.top ≤ b'.dest.bottom
  maximal : s.blocks.toList.IsChain fun b b' => ¬ b.Meets b'
  allocated : s.heap.allocatedBytes =
    h.allocatedBytes + (s.blocks.toList.map fun b => b.dest.length).sum

namespace CopyState.Stacked

variable {s t : CopyState Arena} {h k : Arena} {b last : Block} {front : List Block}

/-- A block that the last one cannot take in starts a new one. -/
theorem push (hs : s.Stacked h) (hbehind : s.heap.frontier ≤ b.dest.bottom)
    (hle : b.dest.bottom ≤ b.dest.top) (hapart : ∀ x ∈ s.blocks.toList.getLast?, ¬ x.Meets b)
    (hblocks : t.blocks.toList = s.blocks.toList ++ [b]) (hwell : t.heap.WellFormed)
    (hfrontier : t.heap.frontier = b.dest.top)
    (hbytes : t.heap.allocatedBytes = s.heap.allocatedBytes + b.dest.length) : t.Stacked h where
  wellFormed := hwell
  bottom_le := hblocks ▸
    List.forall_mem_append.mpr ⟨hs.bottom_le, List.forall_mem_singleton.mpr hle⟩
  top_le := by
    rw [hblocks, hfrontier]
    refine List.forall_mem_append.mpr ⟨fun x hx => ?_,
      List.forall_mem_singleton.mpr (Nat.le_refl _)⟩
    exact Nat.le_trans (hs.top_le x hx) (Nat.le_trans hbehind hle)
  ascending := by
    rw [hblocks]
    refine List.pairwise_append.mpr ⟨hs.ascending, List.pairwise_singleton .., ?_⟩
    intro x hx y hy
    rw [List.mem_singleton.mp hy]
    exact Nat.le_trans (hs.top_le x hx) hbehind
  -- Only the new block and the last one are new neighbours.
  maximal := by
    rw [hblocks, List.isChain_append]
    refine ⟨hs.maximal, .singleton b, ?_⟩
    rintro x hx y ⟨⟩
    exact hapart x hx
  allocated := by
    rw [hblocks, List.map_append, List.sum_append, List.map_singleton, List.sum_singleton, hbytes,
      hs.allocated, Nat.add_assoc]

/-- The last block takes in what starts where it ends. -/
theorem extend (hs : s.Stacked h) (hlast : s.blocks.toList = front ++ [last]) {top : Nat}
    (hle : last.dest.top ≤ top)
    (hblocks : t.blocks.toList = front ++ [{ last with dest := ⟨last.dest.bottom, top⟩ }])
    (hwell : t.heap.WellFormed) (hfrontier : t.heap.frontier = top)
    (hbytes : t.heap.allocatedBytes = s.heap.allocatedBytes + (top - last.dest.top)) :
    t.Stacked h := by
  obtain ⟨-, hbottoms, htops, hascending, hmaximal, hallocated⟩ := hs
  rw [hlast] at hbottoms htops hascending hmaximal hallocated
  obtain ⟨hfront, -, hbefore⟩ := List.pairwise_append.mp hascending
  obtain ⟨hchain, -, hnext⟩ := List.isChain_append.mp hmaximal
  have hmem : ∀ x ∈ front, x ∈ front ++ [last] := fun x hx => List.mem_append_left _ hx
  have hself : last ∈ front ++ [last] := List.mem_append_right _ (List.mem_singleton.mpr rfl)
  have hbottom := hbottoms last hself
  have htop := htops last hself
  constructor
  case wellFormed => exact hwell
  case bottom_le =>
    rw [hblocks]
    exact List.forall_mem_append.mpr ⟨fun x hx => hbottoms x (hmem x hx),
      List.forall_mem_singleton.mpr (Nat.le_trans hbottom hle)⟩
  case top_le =>
    rw [hblocks, hfrontier]
    refine List.forall_mem_append.mpr ⟨fun x hx => ?_,
      List.forall_mem_singleton.mpr (Nat.le_refl _)⟩
    have hlow := hbefore x hx last (List.mem_singleton.mpr rfl)
    omega
  -- The last block starts where it did, so what is known about those before it still holds.
  case ascending =>
    rw [hblocks]
    refine List.pairwise_append.mpr ⟨hfront, List.pairwise_singleton .., ?_⟩
    intro x hx y hy
    rw [List.mem_singleton.mp hy]
    exact hbefore x hx last (List.mem_singleton.mpr rfl)
  case maximal =>
    rw [hblocks, List.isChain_append]
    refine ⟨hchain, .singleton _, ?_⟩
    rintro x hx y ⟨⟩
    exact hnext x hx last rfl
  case allocated =>
    have hlength : Extent.length ⟨last.dest.bottom, top⟩ =
        last.dest.length + (top - last.dest.top) := by
      rw [Extent.length, Extent.length]
      dsimp only
      omega
    rw [List.map_append, List.sum_append, List.map_singleton, List.sum_singleton] at hallocated
    rw [hblocks, List.map_append, List.sum_append, List.map_singleton, List.sum_singleton, hbytes,
      hallocated, hlength]
    omega

end CopyState.Stacked

namespace CopyStep

variable {s t : CopyState Arena} {p : CopyPlan} {h : Arena} {u : Unit}

/-- Rebasing native pointers allocates nothing. -/
theorem rewritten_of_runs_rebaseNatives {region : Region} {o : ObjectSpan} {dest : Nat}
    (hw : s.heap.WellFormed) (hrun : Runs (rebaseNatives p region o dest) s u t) :
    s.heap.Rewritten t.heap ∧ t.blocks = s.blocks := by
  refine runs_forM_induction (fun _ w => s.heap.Rewritten w.heap ∧ w.blocks = s.blocks) hrun
    ⟨.refl hw, rfl⟩ ?_
  rintro _ _ _ w w' - ⟨hheap, hblocks⟩ hstep
  obtain ⟨-, rfl⟩ := of_runs_rebaseNative hheap.wellFormed hstep
  exact ⟨hheap.write _ _, hblocks⟩

/-- **Copying one object** extends the last block, or starts a new one behind it. -/
theorem stacked_of_runs_copyObject {region : Region} {o : ObjectSpan} (hs : s.Stacked h)
    (hrun : Runs (copyObject p region o) s u t) : t.Stacked h := by
  obtain ⟨dest, heap, s₁, hallocate, -, hrebase, rfl⟩ := of_runs_copyObject hrun
  obtain ⟨hbehind, hfrontier, hbytes⟩ := Arena.frontier_of_allocate hs.wellFormed hallocate
  have hwell := (Arena.of_allocate hs.wellFormed hallocate).wellFormed
  -- Once the memory has been allocated, the object is only written, and its pointers rebased.
  obtain ⟨hheap, hblocks⟩ : heap.Rewritten s₁.heap ∧ s₁.blocks = s.blocks := by
    have hwritten := (Arena.Rewritten.refl hwell).write dest (s.image.extract o.offset o.stop)
    rcases hrebase with ⟨-, rfl⟩ | ⟨-, hrebase⟩
    · exact ⟨hwritten, rfl⟩
    · obtain ⟨hrewritten, hblocks⟩ :=
        rewritten_of_runs_rebaseNatives hwritten.wellFormed hrebase
      exact ⟨⟨hrewritten.wellFormed, hrewritten.frontier.trans hwritten.frontier,
        hrewritten.allocatedBytes.trans hwritten.allocatedBytes⟩, hblocks⟩
  have hfrontier' : s₁.heap.frontier = dest + o.size := hheap.frontier.trans hfrontier
  have hbytes' : s₁.heap.allocatedBytes = s.heap.allocatedBytes + o.size :=
    hheap.allocatedBytes.trans hbytes
  rw [hblocks]
  rcases extendBlocks_cases s.blocks region o dest with
    ⟨front, last, hlast, ⟨-, htop, -⟩, hextended⟩ | ⟨hapart, hpushed⟩
  · refine hs.extend hlast (Nat.le_add_right_of_le (Nat.le_of_eq htop)) hextended hheap.wellFormed
      hfrontier' ?_
    rw [htop, Nat.add_sub_cancel_left]
    exact hbytes'
  · refine hs.push hbehind (Nat.le_add_right ..) hapart hpushed hheap.wellFormed hfrontier' ?_
    rw [Extent.length, Nat.add_sub_cancel_left]
    exact hbytes'

/-- **The first pass** stacks blocks. -/
theorem stacked_of_runs_materialize (hs : s.Stacked h) (hrun : Runs (materialize p) s u t) :
    t.Stacked h := by
  refine runs_forM_induction (fun _ w => w.Stacked h) hrun hs ?_
  intro _ region _ w w' _ hw hregion
  have hrange : (p.header.range region).bottom ≤ (p.header.range region).top := by
    cases region <;> exact Nat.le_add_right ..
  obtain ⟨xs, -, hcopy⟩ := of_runs_materializeRegion hrange hregion
  exact runs_forM_induction (fun _ w => w.Stacked h) hcopy hw fun _ _ _ _ _ _ hw hstep =>
    stacked_of_runs_copyObject hw hstep

/-- **The second pass** allocates nothing. -/
theorem rewritten_of_runs_relocate (hw : s.heap.WellFormed) (hrun : Runs (relocate p) s u t) :
    s.heap.Rewritten t.heap ∧ t.blocks = s.blocks := by
  rw [relocate, runs_get_bind, runs_relocateBlocks] at hrun
  refine runs_forM_induction (fun _ w => s.heap.Rewritten w.heap ∧ w.blocks = s.blocks) hrun
    ⟨.refl hw, rfl⟩ ?_
  rintro _ _ _ w w' - ⟨hheap, hblocks⟩ hstep
  rcases of_runs_relocateSlot hheap.wellFormed hstep with ⟨-, rfl⟩ | ⟨-, value, -, -, rfl⟩
  · exact ⟨hheap, hblocks⟩
  · exact ⟨hheap.write _ _, hblocks⟩

end CopyStep

/-- Handing blocks over allocates nothing. -/
theorem allocatedBytes_completeLoaded (blocks : Array Block) (h : Arena) :
    (blocks.foldl (fun h b => Destination.completeLoaded h b.dest) h).allocatedBytes =
      h.allocatedBytes := by
  rw [← Array.foldl_toList]
  induction blocks.toList generalizing h with
  | nil => rfl
  | cons b bs ih => exact ih _

/-- **The blocks of a load** are stacked, and nothing but them has been allocated. -/
theorem stacked_of_copyImage {a : Archive} {h h' : Arena} {runtime : ReferenceEncoding}
    {delta : UInt64} {o : CopiedObjects} (hw : h.WellFormed)
    (hcopy : copyImage a h runtime delta = (.ok o, h')) :
    ∃ s : CopyState Arena, s.Stacked h ∧ s.blocks = o.blocks ∧
      h'.allocatedBytes = s.heap.allocatedBytes := by
  obtain ⟨-, -, -, t, rfl, hblocks, -, -, hrun⟩ := of_copyImage hcopy
  obtain ⟨s₁, s₂, hmaterialize, hrelocate, rfl, -⟩ := CopyStep.of_runs_load hrun
  have hstart : CopyState.Stacked
      ⟨h, a.image, BitMap.empty (a.image.size / wordSize), #[], 0, .zero⟩ h :=
    ⟨hw, fun _ hb => (nomatch hb), fun _ hb => (nomatch hb), .nil, .nil, rfl⟩
  -- The first pass makes the blocks, and nothing that comes after it touches them.
  have hs := CopyStep.stacked_of_runs_materialize hstart hmaterialize
  obtain ⟨hheap, hsame⟩ := CopyStep.rewritten_of_runs_relocate hs.wellFormed hrelocate
  refine ⟨s₁, hs, hsame.symm.trans hblocks, ?_⟩
  exact (allocatedBytes_completeLoaded ..).trans hheap.allocatedBytes

/-! ## Blocks and their regions -/

/-- Elements of the first kind come first if none of them stands behind one of the second kind. -/
theorem filter_append_filter_of_pairwise {α : Type} {p q : α → Bool} {xs : List α}
    (hq : ∀ x, q x = !p x) (h : xs.Pairwise fun x y => p y = true → p x = true) :
    xs.filter p ++ xs.filter q = xs := by
  induction xs with
  | nil => rfl
  | cons x xs ih =>
    obtain ⟨hx, hxs⟩ := List.pairwise_cons.mp h
    cases hpx : p x with
    | true =>
      rw [List.filter_cons_of_pos hpx, List.filter_cons_of_neg (by rw [hq, hpx]; decide),
        List.cons_append, ih hxs]
    | false =>
      -- Nothing of the first kind may follow an element of the second kind.
      have hnone : xs.filter p = [] := by
        rw [List.filter_eq_nil_iff]
        intro y hy hpy
        rw [hx y hy hpy] at hpx
        cases hpx
      have hsecond : xs.filter q = xs := by
        have hrest := ih hxs
        rwa [hnone, List.nil_append] at hrest
      rw [List.filter_cons_of_neg (by rw [hpx]; decide), hnone,
        List.filter_cons_of_pos (by rw [hq, hpx]; rfl), hsecond, List.nil_append]

/-- The copies from a region are those in the blocks of the region. -/
theorem filter_flatMap_region {groups : List (Block × List Copy)}
    (hcovers : ∀ g ∈ groups, g.1.Covers g.2) (region : Region) :
    (groups.flatMap Prod.snd).filter (fun c => c.region = region) =
      (groups.filter fun g => g.1.region = region).flatMap Prod.snd := by
  induction groups with
  | nil => rfl
  | cons g groups ih =>
    obtain ⟨hg, hgroups⟩ := List.forall_mem_cons.mp hcovers
    rw [List.flatMap_cons, List.filter_append, ih hgroups, filter_region hg.region]
    rw [List.filter_cons]
    by_cases hregion : g.1.region = region
    · rw [if_pos hregion, if_pos (decide_eq_true hregion), List.flatMap_cons]
    · rw [if_neg hregion, if_neg (by rwa [decide_eq_true_eq]), List.nil_append]

namespace Grouped

variable {p : CopyPlan} {image : ByteArray} {blocks : List Block} {cs : List Copy}

/-- **The blocks of a region** tile it. -/
theorem tiles_region (h : Grouped blocks cs) (hall : p.Complete image cs) (region : Region) :
    Tiles Block.streamOffset (fun b => b.dest.length) (p.header.range region).bottom
      (blocks.filter fun b => b.region = region) (p.header.range region).top := by
  obtain ⟨groups, rfl, rfl, hcovers⟩ := h
  have hrow := (hall region).tiles
  rw [filter_flatMap_region hcovers, List.map_flatMap] at hrow
  have hgroups : Tiles (fun g : Block × List Copy => g.1.streamOffset)
      (fun g => g.1.streamTop - g.1.streamOffset) (p.header.range region).bottom
      (groups.filter fun g => g.1.region = region) (p.header.range region).top := by
    refine hrow.of_flatMap fun g hg => ?_
    have hg := hcovers g (List.mem_of_mem_filter hg)
    exact ⟨fun hnil => hg.ne_nil (List.map_eq_nil_iff.mp hnil),
      hg.stream.map (d := 0) (fun _ _ => rfl) fun _ _ => rfl⟩
  rw [List.filter_map]
  exact hgroups.map (d := 0) (fun _ _ => rfl) fun g _ => (Nat.add_sub_cancel_left ..).symm

/-- The blocks are in image order. -/
theorem stream_pairwise (h : Grouped blocks cs)
    (hstream : cs.Pairwise fun c d => c.span.stop ≤ d.span.offset) :
    blocks.Pairwise fun b b' => b.streamTop ≤ b'.streamOffset := by
  obtain ⟨groups, rfl, rfl, hcovers⟩ := h
  rw [List.pairwise_map]
  refine (List.pairwise_flatMap.mp hstream).2.imp_of_mem ?_
  intro g g' hg hg' hle
  obtain ⟨c, hc, htop⟩ := (hcovers g hg).stream.exists_last (hcovers g hg).ne_nil
  obtain ⟨d, hd, hoffset⟩ := (hcovers g' hg').stream.exists_first (hcovers g' hg').ne_nil
  rw [← htop, ← hoffset]
  exact hle c hc d hd

/-- Every block has bytes. -/
theorem length_pos (h : Grouped blocks cs) (hall : p.Complete image cs) :
    ∀ b ∈ blocks, 0 < b.dest.length := by
  obtain ⟨groups, rfl, rfl, hcovers⟩ := h
  intro b hb
  obtain ⟨g, hg, rfl⟩ := List.mem_map.mp hb
  obtain ⟨c, hc, -⟩ := (hcovers g hg).dest.exists_first (hcovers g hg).ne_nil
  have hbounds := (hcovers g hg).dest.bounds c hc
  have hpos := hall.size_pos (List.mem_flatMap.mpr ⟨g, hg, hc⟩)
  rw [Extent.length]
  omega

/-- The open region comes before the closed one. -/
theorem filter_append_filter (h : Grouped blocks cs) (hall : p.Complete image cs)
    (hstream : cs.Pairwise fun c d => c.span.stop ≤ d.span.offset)
    (hregions : p.header.SoundRegions) :
    (blocks.filter fun b => b.region = .opened) ++ (blocks.filter fun b => b.region = .closed) =
      blocks := by
  refine filter_append_filter_of_pairwise (fun b => by cases b.region <;> rfl) ?_
  refine (h.stream_pairwise hstream).imp_of_mem ?_
  intro b b' hb hb' hle hopened
  rw [decide_eq_true_eq] at hopened ⊢
  cases hregion : b.region with
  | opened => rfl
  | closed =>
    -- A block of the closed region would start behind the top of the open one.
    have hlow := ((h.tiles_region hall .closed).bounds b
      (List.mem_filter.mpr ⟨hb, decide_eq_true hregion⟩)).1
    have hhigh := ((h.tiles_region hall .opened).bounds b'
      (List.mem_filter.mpr ⟨hb', decide_eq_true hopened⟩)).2
    have hpos := h.length_pos hall b hb
    have hzero : p.header.openOffset.toNat = 0 := congrArg UInt64.toNat hregions.openOffset
    have hopen := hregions.openSize_le
    change p.header.closedOffset.toNat ≤ _ at hlow
    change _ ≤ p.header.openOffset.toNat + p.header.openSize.toNat at hhigh
    change b.streamOffset + b.dest.length ≤ _ at hle
    omega

/-- Neighbours of one region meet in the image. -/
theorem streamTop_eq_of_neighbours (h : Grouped blocks cs) (hall : p.Complete image cs)
    {front rest : List Block} {b b' : Block} (hblocks : blocks = front ++ b :: b' :: rest)
    (hregion : b.region = b'.region) : b.streamTop = b'.streamOffset := by
  have htiles := h.tiles_region hall b'.region
  rw [hblocks, List.filter_append, List.filter_cons, if_pos (decide_eq_true hregion),
    List.filter_cons, if_pos (decide_eq_true rfl)] at htiles
  obtain ⟨middle, -, hb, hb', -⟩ := htiles.of_append
  rw [Block.streamTop, hb, hb']

end Grouped

/-! ## Archives -/

namespace Archive

variable {a : Archive} {h h' : Arena} {runtime : ReferenceEncoding} {delta : UInt64}
variable {o : CopiedObjects} {cs : List Copy} {blocks : List Block}

/-- The archives there can be: those that are read from memory or from a file, those that are
dumped, and those that a dump session has behind any calls. -/
inductive Made : Archive → Prop
  | opened {source : ArchiveSource} {checksum : Bool} {a : Archive} :
    source.open? checksum = .ok a → Made a
  | dumped {r : TypeRegistry} {g : ObjectGraph} {selection : Selection} {o : DumpOptions}
    {a : Archive} : o.InWords → dump r g selection o = .ok a → Made a
  | session {r : TypeRegistry} {g : ObjectGraph} {o : DumpOptions} {s : DumpSession}
    {calls : List DumpCall} {a : Archive} : o.InWords →
    DumpSession.start? r o = .ok s → ofSession (DumpSession.performAll g s calls).2 = .ok a → Made a

/-- The regions of an archive lie in its image. -/
theorem Made.inImage (h : a.Made) :
    a.header.SoundRegions ∧ a.image.size = a.header.imageLength.toNat := by
  cases h with
  | opened hopen =>
    have hsound := sound_of_open? hopen
    exact ⟨hsound.regions, hsound.size_image⟩
  | dumped hwords hdump =>
    obtain ⟨members, ref, hm⟩ := holdsMembers_of_dump hwords hdump
    exact ⟨hm.regions, hm.size⟩
  | @session _ g o s calls _ hwords hstart ha =>
    obtain ⟨hstands, hcheck, hwords⟩ := DumpSession.stands_of_calls g hwords hstart calls
    obtain ⟨q, roots, os, cs, ref, opened, closed, hq, hs, hmaps⟩ :=
      hstands.exists_maps hcheck hwords (phase_of_ofSession ha)
    rw [ofSession_eq hmaps hq, Except.ok.injEq] at ha
    subst ha
    have hfields := headerSays_assemble (DumpSession.performAll g s calls).2.registry opened closed
      hs hwords hcheck
    exact ⟨soundRegions_assemble hs hwords hcheck, hs.size_output.trans hfields.imageLength.symm⟩

/-- Blocks partition the regions of an archive, the open one first. Each is made of copies that
stand back to back, they follow each other in the heap, and neighbours of one region lie apart
there. -/
structure PartitionedBy (a : Archive) (blocks : List Block) (cs : List Copy) : Prop where
  grouped : Grouped blocks cs
  order : (blocks.filter fun b => b.region = .opened) ++
    (blocks.filter fun b => b.region = .closed) = blocks
  tiles : ∀ region, Tiles Block.streamOffset (fun b => b.dest.length)
    (a.header.range region).bottom (blocks.filter fun b => b.region = region)
    (a.header.range region).top
  maximal : blocks.IsChain fun b b' => b.region = b'.region → b.dest.top < b'.dest.bottom
  disjoint : blocks.Pairwise fun b b' => b.dest.top ≤ b'.dest.bottom

/-- The blocks are as long as both regions. -/
theorem PartitionedBy.sum_length (hp : a.PartitionedBy blocks cs) :
    (blocks.map fun b => b.dest.length).sum =
      a.header.openSize.toNat + a.header.closedSize.toNat := by
  have hopened := (hp.tiles .opened).add_sum
  have hclosed := (hp.tiles .closed).add_sum
  rw [← hp.order, List.map_append, List.sum_append]
  exact congr (congrArg _ (Nat.add_left_cancel hopened)) (Nat.add_left_cancel hclosed)

/-- **The blocks of a load** are the maximal extents of its copies. For every archive that is copied
to an arena of any settings and any history, the objects of both regions are copied, and hold the
bytes of the image outside the marked slots and words. The blocks partition the open region and then
the closed one into whole objects that are neighbours in the heap. No two blocks overlap, and those
of one region never touch. Together they are as long as both regions, and that is what the arena has
allocated. -/
theorem partitioned_of_copyImage (ha : a.Made) (hreachable : h.Reachable)
    (hcopy : copyImage a h runtime delta = (.ok o, h')) :
    ∃ cs, (a.plan runtime delta).Complete a.image cs ∧ a.PartitionedBy o.blocks.toList cs ∧
      (o.blocks.toList.map fun b => b.dest.length).sum =
        a.header.openSize.toNat + a.header.closedSize.toNat ∧
      h'.allocatedBytes =
        h.allocatedBytes + (a.header.openSize.toNat + a.header.closedSize.toNat) ∧
      ∀ c ∈ cs, ∃ copied, Memory.read? h' c.dest c.span.size = some copied ∧
        ∀ k < c.span.size, a.Unmarked Region.all (c.span.offset + k) →
          Bytes.get copied k = Bytes.get a.image (c.span.offset + k) := by
  obtain ⟨hregions, hsize⟩ := ha.inImage
  have hslot : a.slotSize = runtime.slotSize := (checkEncodings_eq_ok (of_copyImage hcopy).1).1
  obtain ⟨s, cs, hcopied, hall, hblocks, -, -, -, hwell, hkeeps, hrewrites⟩ :=
    passes_of_copyImage hregions hsize hreachable.wellFormed hcopy
  obtain ⟨t, ht, htblocks, hbytes⟩ := stacked_of_copyImage hreachable.wellFormed hcopy
  have hgrouped : Grouped o.blocks.toList cs := hblocks ▸ hcopied.blocks
  have hascending := htblocks ▸ ht.ascending
  have hpartitioned : a.PartitionedBy o.blocks.toList cs := by
    refine ⟨hgrouped, hgrouped.filter_append_filter hall hcopied.stream hregions,
      hgrouped.tiles_region hall, ?_, hascending⟩
    refine List.isChain_iff_forall_rel_of_append_cons_cons.mpr ?_
    intro b b' front rest heq hregion
    -- Neighbours meet in the image, so if they met in the heap too they would be one block.
    have hle : b.dest.top ≤ b'.dest.bottom := by
      rw [heq] at hascending
      exact (List.pairwise_cons.mp (List.pairwise_append.mp hascending).2.1).1 b'
        (List.mem_cons_self ..)
    have happart := List.isChain_iff_forall_rel_of_append_cons_cons.mp (htblocks ▸ ht.maximal) heq
    have hstream := hgrouped.streamTop_eq_of_neighbours hall heq hregion
    exact Nat.lt_of_le_of_ne hle fun htop => happart ⟨hregion, htop, hstream⟩
  refine ⟨cs, hall, hpartitioned, hpartitioned.sum_length, ?_, ?_⟩
  · rw [hbytes, ht.allocated, htblocks, hpartitioned.sum_length]
  · intro c hc
    obtain ⟨copied, hread, -, hcopy⟩ :=
      (hkeeps _ _ (hcopied.holds c hc)).read? hwell (hall.size_pos hc)
    refine ⟨copied, hread, fun k hk hunmarked => ?_⟩
    rw [hcopy k hk, hrewrites.outside _ fun i hi => hslot ▸
      hunmarked.outside_references hslot hall hcopied.apart hc hk hi]
    exact (hcopied.contents c hc).byte_eq hk fun i hi => hunmarked.outside_natives hall hc hi

/-- Copied to an arena that starts a chunk for every object, the cycle has three blocks. -/
theorem partitioned_of_copyImage_cycle : ∃ a o h', ∃ cs : List Copy, a.Made ∧
    copyImage a (Arena.standard.withSplitEvery 1) (.narrow 0 3) 0x100 = (.ok o, h') ∧
    o.blocks.size = 3 ∧ a.PartitionedBy o.blocks.toList cs ∧
    h'.allocatedBytes = a.header.openSize.toNat + a.header.closedSize.toNat := by
  have hok : ((dump .pairs .cycle .cycle .small).toOption.any fun a =>
      (copyImage a (Arena.standard.withSplitEvery 1) (.narrow 0 3) 0x100).1.toOption.any fun o =>
        decide (o.blocks.size = 3)) = true := by
    decide +kernel
  obtain ⟨a, hdump, hok⟩ := Except.exists_of_any hok
  obtain ⟨o, h', hcopy, hok⟩ := Except.exists_of_any_state (p := fun _ _ => decide _) hok
  have hmade : a.Made := .dumped DumpOptions.inWords_small hdump
  obtain ⟨cs, -, hpartitioned, -, hbytes, -⟩ :=
    partitioned_of_copyImage hmade (.withSplitEvery 1 .standard) hcopy
  refine ⟨a, o, h', cs, hmade, hcopy, of_decide_eq_true hok, hpartitioned, ?_⟩
  rw [hbytes]
  exact Nat.zero_add _

end Archive

end HeapImage
