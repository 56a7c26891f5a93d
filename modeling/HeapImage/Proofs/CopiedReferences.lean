import HeapImage.Proofs.Cells
import HeapImage.Proofs.Copying
import HeapImage.Proofs.Encoding
import Mathlib.Data.List.Sort

/-! # References of copies

The second pass of a copy goes through the blocks of the heap and replaces each marked reference by
one to the new address of its target. Seen from the copies it goes through the marked references of
each copy, and what it looks up are the copies themselves, as long as they all start at heap words.

* `CopyPlan.slots`, `Grouped.slots_eq`: the marked references of a block and of its copies.
* `CopyPlan.Follows`, `CopyStep.follows_of_runs_relocateBlocks`: what becomes of the references.
* `CopyState.Copied.of_resolve?`: what is looked up is a copy.
* `CopyStep.of_runs_passes`, `passes_of_copyImage`, `loads_of_copyImage`: both passes, and a load
  that copies. -/

namespace HeapImage

/-- The set bits of two ranges, one behind the other. -/
theorem BitMap.ones_append (m : BitMap) {start middle stop : Nat} (hlow : start ≤ middle)
    (hhigh : middle ≤ stop) : m.ones start middle ++ m.ones middle stop = m.ones start stop := by
  apply List.Pairwise.eq_of_mem_iff (r := (· < ·))
  · refine List.pairwise_append.mpr ⟨m.ones_pairwise .., m.ones_pairwise .., ?_⟩
    intro i hi j hj
    exact Nat.lt_of_lt_of_le (BitMap.mem_ones.mp hi).2.1 (BitMap.mem_ones.mp hj).1
  · exact m.ones_pairwise ..
  · intro i
    rw [List.mem_append, BitMap.mem_ones, BitMap.mem_ones, BitMap.mem_ones]
    constructor
    · rintro (⟨hi, hi', hmem⟩ | ⟨hi, hi', hmem⟩)
      · exact ⟨hi, by omega, hmem⟩
      · exact ⟨by omega, hi', hmem⟩
    · rintro ⟨hi, hi', hmem⟩
      rcases Nat.lt_or_ge i middle with h | h
      · exact .inl ⟨hi, h, hmem⟩
      · exact .inr ⟨h, hi', hmem⟩

/-- The members of a map in a row of things are those in each of them. -/
theorem BitMap.ones_of_tiles {α : Type} {offset size : α → Nat} {width bottom start stop : Nat}
    {xs : List α} (m : BitMap) (hwidth : 0 < width) (hbottom : bottom ≤ start)
    (hstart : width ∣ start - bottom) (hsize : ∀ x ∈ xs, width ∣ size x)
    (h : Tiles offset size start xs stop) :
    m.ones ((start - bottom) / width) ((stop - bottom) / width) = xs.flatMap fun x =>
      m.ones ((offset x - bottom) / width) ((offset x - bottom) / width + size x / width) := by
  induction xs generalizing start with
  | nil =>
    obtain rfl : start = stop := h
    rw [List.flatMap_nil, List.eq_nil_iff_forall_not_mem]
    intro i hi
    obtain ⟨hlow, hhigh, -⟩ := BitMap.mem_ones.mp hi
    exact absurd hlow (Nat.not_le.mpr hhigh)
  | cons x xs ih =>
    obtain ⟨hoffset, h⟩ := h
    obtain ⟨first, hfirst⟩ := hstart
    obtain ⟨n, hn⟩ := hsize x (List.mem_cons_self ..)
    have hle := h.le
    have hnext : start + size x - bottom = width * (first + n) := by
      rw [Nat.mul_add]
      omega
    have hmiddle : (start + size x - bottom) / width = first + n := by
      rw [hnext, Nat.mul_div_cancel_left _ hwidth]
    have hhigh : first + n ≤ (stop - bottom) / width := by
      rw [← hmiddle]
      exact Nat.div_le_div_right (by omega)
    -- Those in the first thing come first, then those in the rest.
    have hrest := ih (by omega) (hnext ▸ Nat.dvd_mul_right ..)
      (fun y hy => hsize y (List.mem_cons_of_mem _ hy)) h
    rw [List.flatMap_cons, ← hrest, hoffset, hmiddle, hfirst, hn, Nat.mul_div_cancel_left _ hwidth,
      Nat.mul_div_cancel_left _ hwidth]
    exact (m.ones_append (Nat.le_add_right ..) hhigh).symm

/-! ## The slots of a block -/

/-- Where the marked references of a block are. -/
def CopyPlan.slots (p : CopyPlan) (b : Block) : List Nat :=
  let bottom := p.bottom b.region
  let first := (b.streamOffset - bottom) / p.slotSize
  let stop := (b.streamTop - bottom) / p.slotSize
  ((p.maps b.region).references.ones first stop).map fun bit =>
    b.dest.bottom + (bottom + bit * p.slotSize - b.streamOffset)

/-- The slots of a plan have four or eight bytes. -/
theorem CopyPlan.isSlotSize (p : CopyPlan) : IsSlotSize p.slotSize := p.runtime.isSlotSize

/-- The places in a run of copies that a map marks are those in each of them. -/
theorem places_of_tiles {m : BitMap} {width bottom start stop a a' : Nat} {cs : List Copy}
    (hwidth : 0 < width) (hbottom : bottom ≤ start) (hstart : width ∣ start - bottom)
    (hsize : ∀ c ∈ cs, width ∣ c.span.size)
    (hspan : Tiles (fun c : Copy => c.span.offset) (fun c => c.span.size) start cs stop)
    (hdest : Tiles Copy.dest (fun c => c.span.size) a cs a') :
    ((m.ones ((start - bottom) / width) ((stop - bottom) / width)).map fun bit =>
        a + (bottom + bit * width - start)) = cs.flatMap fun c => c.places m width bottom := by
  rw [m.ones_of_tiles hwidth hbottom hstart hsize hspan, List.map_flatMap]
  apply List.flatMap_congr
  intro c hc
  have hle := (hspan.bounds c hc).1
  have hplace : c.span.offset + a = c.dest + start := hspan.offset_add hdest hc
  obtain ⟨first, hfirst⟩ : width ∣ c.span.offset - bottom := by
    rw [show c.span.offset - bottom = c.span.offset - start + (start - bottom) by omega]
    exact Nat.dvd_add ((hspan.dvd_sub hsize).1 c hc) hstart
  rw [Copy.places, hfirst, Nat.mul_div_cancel_left _ hwidth]
  apply List.map_congr_left
  intro bit hbit
  obtain ⟨k, rfl⟩ := Nat.exists_eq_add_of_le (BitMap.mem_ones.mp hbit).1
  rw [Nat.add_mul, Nat.add_sub_cancel_left, Nat.mul_comm first]
  omega

namespace CopyPlan.Complete

variable {p : CopyPlan} {b : ByteArray} {cs : List Copy}

/-- The object of a copy stands in the row of its region. -/
theorem mem_row {c : Copy} (hc : c ∈ cs) :
    c.span ∈ (cs.filter fun d => d.region = c.region).map Copy.span :=
  List.mem_map_of_mem (List.mem_filter.mpr ⟨hc, decide_eq_true rfl⟩)

/-- Copied objects take up memory. -/
theorem size_pos (h : p.Complete b cs) {c : Copy} (hc : c ∈ cs) : 0 < c.span.size :=
  (h c.region).size_pos _ (mem_row hc)

/-- The objects that the copies come from fill their regions in whole heap words. -/
theorem bounds (h : p.Complete b cs) {c : Copy} (hc : c ∈ cs) :
    p.bottom c.region ≤ c.span.offset ∧ wordSize ∣ c.span.offset - p.bottom c.region ∧
      wordSize ∣ c.span.size := by
  have hrow := h c.region
  have hsize : ∀ o ∈ (cs.filter fun d => d.region = c.region).map Copy.span,
      wordSize ∣ o.size := by
    intro o ho
    rw [(hrow.found o ho).size]
    exact TypeKind.wordSize_dvd_objectSize ..
  have hmem := mem_row hc
  exact ⟨(hrow.tiles.bounds _ hmem).1, (hrow.tiles.dvd_sub hsize).1 _ hmem, hsize _ hmem⟩

/-- All copied objects start at heap words if both regions do. -/
theorem aligned (h : p.Complete b cs) (hregions : p.header.SoundRegions)
    (haligned : wordSize ∣ p.header.closedOffset.toNat ∨ p.header.closedSize = 0) :
    ∀ c ∈ cs, wordSize ∣ c.span.offset := by
  intro c hc
  obtain ⟨hle, hdvd, -⟩ := h.bounds hc
  have hbottom : wordSize ∣ p.bottom c.region := by
    cases hregion : c.region with
    | opened =>
      change wordSize ∣ p.header.openOffset.toNat
      rw [hregions.openOffset]
      exact Nat.dvd_zero _
    | closed =>
      change wordSize ∣ p.header.closedOffset.toNat
      rcases haligned with hword | hempty
      · exact hword
      · -- There is no object in an empty region.
        have hbounds := (h c.region).tiles.bounds _ (mem_row hc)
        have hpos := h.size_pos hc
        have htop : (p.header.range c.region).top = (p.header.range c.region).bottom := by
          rw [hregion]
          change _ + p.header.closedSize.toNat = _
          rw [hempty]
          rfl
        omega
  exact (Nat.dvd_sub_iff_left hle hbottom).mp hdvd

end CopyPlan.Complete

/-- A block starts and ends at a distance of whole heap words from the start of its region. -/
theorem Block.Covers.aligned {p : CopyPlan} {b : ByteArray} {cs ds : List Copy} {block : Block}
    (h : block.Covers ds) (hall : p.Complete b cs) (hmem : ∀ d ∈ ds, d ∈ cs) :
    p.bottom block.region ≤ block.streamOffset ∧
      wordSize ∣ block.streamOffset - p.bottom block.region ∧
      wordSize ∣ block.streamTop - p.bottom block.region := by
  have htop := (h.stream.dvd_sub fun d hd => (hall.bounds (hmem d hd)).2.2).2
  have hle := h.stream.le
  cases ds with
  | nil => exact absurd rfl h.ne_nil
  | cons d ds =>
    have hd : d ∈ d :: ds := List.mem_cons_self ..
    obtain ⟨hbottom, hdvd, -⟩ := hall.bounds (hmem d hd)
    rw [h.region d hd, show d.span.offset = block.streamOffset from h.stream.1] at hbottom hdvd
    have hsum : block.streamTop - p.bottom block.region =
        block.streamTop - block.streamOffset + (block.streamOffset - p.bottom block.region) := by
      omega
    rw [hsum]
    exact ⟨hbottom, hdvd, Nat.dvd_add htop hdvd⟩

/-- **The marked references of the blocks** are those of the copies. -/
theorem Grouped.slots_eq {p : CopyPlan} {b : ByteArray} {blocks : List Block} {cs : List Copy}
    (h : Grouped blocks cs) (hall : p.Complete b cs) :
    blocks.flatMap p.slots = cs.flatMap fun c => c.references p := by
  obtain ⟨groups, rfl, rfl, hcovers⟩ := h
  rw [List.flatMap_map, List.flatMap_assoc]
  apply List.flatMap_congr
  intro g hg
  have hg' := hcovers g hg
  have hmem : ∀ c ∈ g.2, c ∈ groups.flatMap Prod.snd := fun c hc =>
    List.mem_flatMap.mpr ⟨g, hg, hc⟩
  have hslot := p.isSlotSize.dvd_wordSize
  have hsize : ∀ c ∈ g.2, p.slotSize ∣ c.span.size := fun c hc =>
    Nat.dvd_trans hslot (hall.bounds (hmem c hc)).2.2
  have hreferences : ∀ c ∈ g.2, c.references p =
      c.places (p.maps g.1.region).references p.slotSize (p.bottom g.1.region) := by
    intro c hc
    rw [Copy.references, hg'.region c hc]
  obtain ⟨hbottom, hdvd, -⟩ := hg'.aligned hall hmem
  rw [List.flatMap_congr hreferences]
  exact places_of_tiles p.isSlotSize.pos hbottom (Nat.dvd_trans hslot hdvd) hsize hg'.stream
    hg'.dest

/-- A marked reference that starts in a block is one of its slots. -/
theorem Grouped.mem_slots {p : CopyPlan} {b : ByteArray} {blocks : List Block} {cs : List Copy}
    (h : Grouped blocks cs) (hall : p.Complete b cs) {block : Block} (hblock : block ∈ blocks)
    {k : Nat} (hk : (p.maps block.region).references.contains k = true)
    (hlow : block.streamOffset ≤ p.bottom block.region + k * p.slotSize)
    (hhigh : p.bottom block.region + k * p.slotSize < block.streamTop) :
    block.dest.bottom + (p.bottom block.region + k * p.slotSize - block.streamOffset) ∈
      p.slots block := by
  obtain ⟨groups, rfl, rfl, hcovers⟩ := h
  obtain ⟨g, hg, rfl⟩ := List.mem_map.mp hblock
  obtain ⟨hbottom, -, htop⟩ := (hcovers g hg).aligned hall fun c hc =>
    List.mem_flatMap.mpr ⟨g, hg, hc⟩
  obtain ⟨n, hn⟩ := Nat.dvd_trans p.isSlotSize.dvd_wordSize htop
  refine List.mem_map.mpr ⟨k, BitMap.mem_ones.mpr ⟨?_, ?_, hk⟩, rfl⟩
  · refine Nat.div_le_of_le_mul ?_
    rw [Nat.mul_comm]
    omega
  · rw [hn, Nat.mul_div_cancel_left _ p.isSlotSize.pos]
    apply Nat.lt_of_mul_lt_mul_left (a := p.slotSize)
    rw [← hn, Nat.mul_comm]
    omega

/-- Marked references of copies that lie apart do not overlap. -/
theorem references_pairwise {p : CopyPlan} {cs : List Copy}
    (h : cs.Pairwise fun c d => c.stop ≤ d.dest ∨ d.stop ≤ c.dest) :
    (cs.flatMap fun c => c.references p).Pairwise (Apart p.slotSize) := by
  refine List.pairwise_flatMap.mpr ⟨fun c _ => Copy.places_pairwise .., ?_⟩
  refine h.imp ?_
  intro c d hcd i hi j hj
  have hi' := Copy.bounds_of_mem_places hi
  have hj' := Copy.bounds_of_mem_places hj
  rw [Apart]
  omega

/-! ## The second pass -/

/-- A reference is replaced by one to where its target has been copied to, and null by null. -/
inductive CopyPlan.Follows (p : CopyPlan) (image : ByteArray) (starts : BitMap)
    (position : Nat) : (old new : Nat) → Prop
  | null : Follows p image starts position 0 0
  | target {old dest value : Nat} : old ≠ 0 →
    p.header.requestedBase.toNat ≤ p.header.encoding.decode old →
    resolve? image starts (p.header.encoding.decode old - p.header.requestedBase.toNat) =
      some dest →
    p.runtime.encode dest = .ok value →
    Follows p image starts position old (value % 256 ^ p.slotSize)

namespace CopyStep

variable {s t : CopyState Arena} {p : CopyPlan} {u : Unit}

/-- When the new value of a reference is known, and which one it is. -/
theorem rebased_eq_ok {a old value : Nat} : rebased p s a old = .ok value ↔
    p.header.requestedBase.toNat ≤ p.header.encoding.decode old ∧ ∃ dest,
      resolve? s.image s.starts (p.header.encoding.decode old - p.header.requestedBase.toNat) =
        some dest ∧ p.runtime.encode dest = .ok value := by
  rw [rebased]
  split
  · rename_i hlt
    exact ⟨nofun, fun h => absurd h.1 (Nat.not_le.mpr hlt)⟩
  · rename_i hle
    rw [Nat.not_lt] at hle
    cases hresolve : resolve? s.image s.starts
        (p.header.encoding.decode old - p.header.requestedBase.toNat) with
    | none => exact ⟨nofun, fun ⟨_, _, h, _⟩ => nomatch h⟩
    | some dest =>
      dsimp only
      cases hencode : p.runtime.encode dest with
      | error fault =>
        refine ⟨nofun, ?_⟩
        rintro ⟨-, dest', hdest, h⟩
        rw [← Option.some.inj hdest, hencode] at h
        cases h
      | ok value' =>
        constructor
        · intro h
          cases h
          exact ⟨hle, dest, rfl, hencode⟩
        · rintro ⟨-, dest', hdest, h⟩
          rw [← Option.some.inj hdest, hencode] at h
          cases h
          rfl

/-- The references at some places that do not overlap are replaced. -/
theorem follows_of_runs_relocateSlots {places : List Nat} (hw : s.heap.WellFormed)
    (hapart : places.Pairwise (Apart p.slotSize))
    (h : Runs (places.forM (relocateSlot p)) s u t) :
    ∃ heap, t = { s with
        heap := heap
        counts := s.counts.addSlots (places.map fun a => Bytes.number s.heap.byte a p.slotSize) } ∧
      heap.WellFormed ∧ (∀ a n, s.heap.Holds a n → heap.Holds a n) ∧
      Rewrites p.slotSize (p.Follows s.image s.starts) places s.heap.byte heap.byte := by
  refine runs_forM_induction (fun done w => ∃ heap, w = { s with
      heap := heap
      counts := s.counts.addSlots (done.map fun a => Bytes.number s.heap.byte a p.slotSize) } ∧
    heap.WellFormed ∧ (∀ a n, s.heap.Holds a n → heap.Holds a n) ∧
    Rewrites p.slotSize (p.Follows s.image s.starts) done s.heap.byte heap.byte) h
    ⟨_, rfl, hw, fun _ _ hb => hb, .nil⟩ ?_
  rintro done a rest w w' hplaces ⟨heap, rfl, hwell, hkeeps, hrewrites⟩ hstep
  rw [hplaces, List.pairwise_append] at hapart
  have hdone : ∀ i ∈ done, Apart p.slotSize i a := fun i hi =>
    hapart.2.2 i hi a (List.mem_cons_self ..)
  -- The places before this one do not overlap it, so the slot still has its first value.
  have hold : Bytes.number heap.byte a p.slotSize = Bytes.number s.heap.byte a p.slotSize :=
    hrewrites.number_eq fun i hi => (hdone i hi).symm
  rw [List.map_append, List.map_singleton, LoadCounts.addSlots_concat, ← hold]
  rcases of_runs_relocateSlot hwell hstep with ⟨hzero, rfl⟩ | ⟨hne, value, hvalue, hcan, rfl⟩
  · refine ⟨heap, rfl, hwell, hkeeps, hrewrites.step hdone (fun _ _ => rfl) ?_⟩
    dsimp only at hzero
    rw [hzero]
    exact .null
  · refine ⟨_, rfl, hwell.write _ _, fun b m hb => (hkeeps b m hb).write hwell _ _,
      hrewrites.step hdone (fun j hj => Arena.byte_write_of_apart hwell hcan _ hj) ?_⟩
    rw [Arena.number_write hwell hcan]
    obtain ⟨hbase, dest, hdest, hencode⟩ := rebased_eq_ok.mp hvalue
    exact .target hne hbase hdest hencode

/-- Going through the blocks is going through their marked references. -/
theorem runs_relocateBlocks {blocks : List Block} :
    Runs (blocks.forM (relocateBlock p)) s u t ↔
      Runs ((blocks.flatMap p.slots).forM (relocateSlot p)) s u t := by
  have hblock : relocateBlock p = fun b => (p.slots b).forM (relocateSlot (μ := Arena) p) := by
    funext b
    exact (List.forM_map ..).symm
  rw [runs_forM_flatMap, ← hblock]

/-- **The second pass** replaces the marked references of the blocks. -/
theorem follows_of_runs_relocateBlocks {blocks : List Block} (hw : s.heap.WellFormed)
    (hapart : (blocks.flatMap p.slots).Pairwise (Apart p.slotSize))
    (h : Runs (blocks.forM (relocateBlock p)) s u t) :
    ∃ heap, t = { s with
        heap := heap
        counts := s.counts.addSlots
          ((blocks.flatMap p.slots).map fun a => Bytes.number s.heap.byte a p.slotSize) } ∧
      heap.WellFormed ∧ (∀ a n, s.heap.Holds a n → heap.Holds a n) ∧
      Rewrites p.slotSize (p.Follows s.image s.starts) (blocks.flatMap p.slots) s.heap.byte
        heap.byte :=
  follows_of_runs_relocateSlots hw hapart (runs_relocateBlocks.mp h)

end CopyStep

/-! ## Targets -/

/-- A reference is replaced by one to the copy of the object that it named, and null by null. -/
inductive CopyPlan.Relinks (p : CopyPlan) (cs : List Copy) (position : Nat) : (old new : Nat) → Prop
  | null : Relinks p cs position 0 0
  | target {old new : Nat} {c : Copy} : old ≠ 0 → c ∈ cs →
    p.header.encoding.decode old = p.header.requestedBase.toNat + c.span.offset →
    p.runtime.encode c.dest = .ok new → Relinks p cs position old new

/-- A reference that has been replaced leads to a copy unless it is null. -/
theorem CopyPlan.Relinks.leads {p : CopyPlan} {cs : List Copy} {position old new : Nat}
    (hlt : ∀ c ∈ cs, c.dest < 2 ^ 64) (h : p.Relinks cs position old new) (hne : new ≠ 0) :
    ∃ c ∈ cs, p.runtime.decode new = c.dest := by
  cases h with
  | null => exact absurd rfl hne
  | target _ hc _ hencode => exact ⟨_, hc, ReferenceEncoding.decode_encode (hlt _ hc) hencode⟩

/-- If all copied objects start at heap words, the object that starts at a marked word is the one
whose copy is found in it. -/
theorem CopyState.Copied.of_resolve? {s : CopyState Arena} {p : CopyPlan} {b : ByteArray}
    {h : Arena}
    {cs : List Copy} (hs : s.Copied p b h cs) (haligned : ∀ c ∈ cs, wordSize ∣ c.span.offset)
    (hlt : ∀ c ∈ cs, c.dest < 2 ^ 64) {offset dest : Nat}
    (hresolve : resolve? s.image s.starts offset = some dest) :
    ∃ c ∈ cs, c.span.offset = offset ∧ c.dest = dest := by
  rw [resolve?] at hresolve
  split at hresolve
  · rename_i hstart
    obtain ⟨hmod, hcontains⟩ := hstart
    -- The bit names a heap word; only objects that start at heap words are told apart by it.
    obtain ⟨c, hc, hword⟩ := (hs.starts _).mp hcontains
    have hoffset : c.span.offset = offset :=
      (Nat.div_left_inj (haligned c hc) (Nat.dvd_of_mod_eq_zero hmod)).mp hword
    rw [Bytes.valueAt_eq_number, ← hoffset, hs.marks c hc, Nat.mod_eq_of_lt (hlt c hc)] at hresolve
    exact ⟨c, hc, hoffset, Option.some.inj hresolve⟩
  · cases hresolve

/-- A reference that follows the plan leads to the copy of its referent. -/
theorem CopyPlan.Follows.relinks {s : CopyState Arena} {p : CopyPlan} {b : ByteArray} {h : Arena}
    {cs : List Copy} (hs : s.Copied p b h cs) (haligned : ∀ c ∈ cs, wordSize ∣ c.span.offset)
    (hlt : ∀ c ∈ cs, c.dest < 2 ^ 64) {position old new : Nat}
    (hfollows : p.Follows s.image s.starts position old new) : p.Relinks cs position old new := by
  cases hfollows with
  | null => exact .null
  | target hne hbase hresolve hencode =>
    rename_i dest value
    obtain ⟨c, hc, hoffset, rfl⟩ := hs.of_resolve? haligned hlt hresolve
    have hvalue : value < 256 ^ p.slotSize := ReferenceEncoding.encode_lt (hlt c hc) hencode
    rw [Nat.mod_eq_of_lt hvalue]
    refine .target hne hc ?_ hencode
    omega

/-! ## Both passes -/

/-- An image has been copied to memory that was not in use before, with all its references. -/
structure CopyPlan.Loads (p : CopyPlan) (b : ByteArray) (h : Arena) (o : CopiedObjects) (h' : Arena)
    (cs : List Copy) : Prop where
  all : p.Complete b cs
  wellFormed : h'.WellFormed
  holds : ∀ c ∈ cs, h'.Holds c.dest c.span.size
  apart : cs.Pairwise fun c d => c.stop ≤ d.dest ∨ d.stop ≤ c.dest
  fresh : ∀ c ∈ cs, ∀ a n, h.Holds a n → a + n ≤ c.dest ∨ c.stop ≤ a
  place : ∀ c ∈ cs, c.dest ≠ 0 ∧ c.stop ≤ 2 ^ 64
  contents : ∃ v, (∀ c ∈ cs, c.HoldsImage p (Bytes.get b) v) ∧
    Rewrites p.slotSize (p.Relinks cs) (cs.flatMap fun c => c.references p) v h'.byte
  blocks : Grouped o.blocks.toList cs
  objects : o.objects = cs.length
  root : ∃ c ∈ cs, c.span.offset = p.header.rootOffset.toNat ∧ c.dest = o.root
  counts : ∃ v, (∀ c ∈ cs, c.HoldsImage p (Bytes.get b) v) ∧
    o.counts = (LoadCounts.zero.addNatives (cs.map fun c => c.nativeCount p).sum).addSlots
      ((cs.flatMap fun c => c.references p).map fun i => Bytes.number v i p.slotSize)

/-- What stays the same when an archive is copied. -/
def Archive.plan (a : Archive) (runtime : ReferenceEncoding) (delta : UInt64) : CopyPlan :=
  ⟨a.header, a.types, a.opened, a.closed, runtime, delta⟩

/-- A copy that succeeds has gone through both passes. -/
theorem of_copyImage {μ : Type} [Destination μ] {a : Archive} {h h' : μ}
    {runtime : ReferenceEncoding} {delta : UInt64} {o : CopiedObjects}
    (hcopy : copyImage a h runtime delta = (.ok o, h')) :
    checkEncodings a.encoding runtime = .ok () ∧ o.types = a.types ∧ o.encoding = runtime ∧
      ∃ t, t.heap = h' ∧ t.blocks = o.blocks ∧ t.objects = o.objects ∧ t.counts = o.counts ∧
        Runs (CopyStep.load (a.plan runtime delta))
          ⟨h, a.image, BitMap.empty (a.image.size / wordSize), #[], 0, .zero⟩ o.root t := by
  rw [copyImage] at hcopy
  cases hcheck : checkEncodings a.encoding runtime with
  | error e =>
    rw [hcheck] at hcopy
    cases hcopy
  | ok u =>
    rw [hcheck] at hcopy
    dsimp only at hcopy
    split at hcopy
    · cases hcopy
    · rename_i root t hrun
      cases hcopy
      exact ⟨rfl, rfl, rfl, t, rfl, rfl, rfl, rfl, hrun⟩

/-- Copies have addresses of a machine. -/
theorem CopyPlan.Loads.dest_lt {p : CopyPlan} {b : ByteArray} {h h' : Arena} {o : CopiedObjects}
    {cs : List Copy} (hloads : p.Loads b h o h' cs) : ∀ c ∈ cs, c.dest < 2 ^ 64 := by
  intro c hc
  have hstop := (hloads.place c hc).2
  have hpos := hloads.all.size_pos hc
  rw [Copy.stop] at hstop
  omega

/-- **Both passes** of a copy, seen from the copies. -/
theorem CopyStep.of_runs_passes {p : CopyPlan} {b : ByteArray} {h : Arena} {s t : CopyState Arena}
    {u v : Unit} (hregions : p.header.SoundRegions) (hsize : b.size = p.header.imageLength.toNat)
    (hw : h.WellFormed) (hmaterialize : Runs (materialize p)
      ⟨h, b, BitMap.empty (b.size / wordSize), #[], 0, .zero⟩ u s)
    (hrelocate : Runs (relocate p) s v t) :
    ∃ cs heap, s.Copied p b h cs ∧ p.Complete b cs ∧
      t = { s with
        heap := heap
        counts := s.counts.addSlots ((cs.flatMap fun c => c.references p).map fun a =>
          Bytes.number s.heap.byte a p.slotSize) } ∧
      heap.WellFormed ∧ (∀ a n, s.heap.Holds a n → heap.Holds a n) ∧
      Rewrites p.slotSize (p.Follows s.image s.starts) (cs.flatMap fun c => c.references p)
        s.heap.byte heap.byte := by
  obtain ⟨cs, hcopied, hall⟩ := (CopyState.Copied.start hw).all hregions hsize hmaterialize
  have hslots := hcopied.blocks.slots_eq hall
  rw [relocate, runs_get_bind] at hrelocate
  obtain ⟨heap, ht, hrelocated⟩ := follows_of_runs_relocateBlocks hcopied.wellFormed
    (hslots ▸ references_pairwise hcopied.apart) hrelocate
  rw [hslots] at ht hrelocated
  exact ⟨cs, heap, hcopied, hall, ht, hrelocated⟩

/-- A load that copies is both passes, after which the memory stays as it is. -/
theorem passes_of_copyImage {a : Archive} {h h' : Arena} {runtime : ReferenceEncoding}
    {delta : UInt64} {o : CopiedObjects} (hregions : a.header.SoundRegions)
    (hsize : a.image.size = a.header.imageLength.toNat) (hw : h.WellFormed)
    (hcopy : copyImage a h runtime delta = (.ok o, h')) :
    ∃ s cs, CopyState.Copied s (a.plan runtime delta) a.image h cs ∧
      (a.plan runtime delta).Complete a.image cs ∧ o.blocks = s.blocks ∧ o.objects = s.objects ∧
      o.counts = s.counts.addSlots ((cs.flatMap fun c => c.references (a.plan runtime delta)).map
        fun i => Bytes.number s.heap.byte i runtime.slotSize) ∧
      resolve? s.image s.starts a.header.rootOffset.toNat = some o.root ∧ h'.WellFormed ∧
      (∀ x n, s.heap.Holds x n → h'.Holds x n) ∧
      Rewrites runtime.slotSize ((a.plan runtime delta).Follows s.image s.starts)
        (cs.flatMap fun c => c.references (a.plan runtime delta)) s.heap.byte h'.byte := by
  obtain ⟨-, -, -, t, rfl, hblocks, hobjects, hcounts, hrun⟩ := of_copyImage hcopy
  obtain ⟨s₁, s₂, hmaterialize, hrelocate, rfl, hroot⟩ := CopyStep.of_runs_load hrun
  obtain ⟨cs, heap, hcopied, hall, rfl, hwell, hkeeps, hrewrites⟩ :=
    CopyStep.of_runs_passes hregions hsize hw hmaterialize hrelocate
  obtain ⟨hchunks, hnext⟩ := CopyStep.chunks_completeLoaded s₁.blocks heap
  -- Completing the blocks notes them in the heap and changes no byte.
  have hbyte : (s₁.blocks.foldl (fun h b => Destination.completeLoaded h b.dest) heap).byte =
      heap.byte := by
    funext x
    rw [Arena.byte, Arena.byte, Arena.chunkAt?, Arena.chunkAt?, hchunks]
  refine ⟨s₁, cs, hcopied, hall, hblocks.symm, hobjects.symm, hcounts.symm, hroot,
    hwell.congr hchunks hnext, ?_, hbyte ▸ hrewrites⟩
  intro x n hx
  obtain ⟨d, hd, hrest⟩ := hkeeps x n hx
  exact ⟨d, hchunks ▸ hd, hrest⟩

/-- **Loading by copying.** The objects of an image are copied to fresh memory, and every reference
leads to the copy of its target. -/
theorem loads_of_copyImage {a : Archive} {h h' : Arena} {runtime : ReferenceEncoding}
    {delta : UInt64} {o : CopiedObjects} (hregions : a.header.SoundRegions)
    (hsize : a.image.size = a.header.imageLength.toNat)
    (haligned : wordSize ∣ a.header.closedOffset.toNat ∨ a.header.closedSize = 0)
    (hw : h.WellFormed) (hcopy : copyImage a h runtime delta = (.ok o, h'))
    (haddress : h'.Addressable) :
    ∃ cs, (a.plan runtime delta).Loads a.image h o h' cs := by
  obtain ⟨s, cs, hcopied, hall, hblocks, hobjects, hcounts, hroot, hwell, hkeeps, hrewrites⟩ :=
    passes_of_copyImage hregions hsize hw hcopy
  have hholds : ∀ c ∈ cs, h'.Holds c.dest c.span.size := fun c hc =>
    hkeeps _ _ (hcopied.holds c hc)
  have halign := hall.aligned hregions haligned
  have hplace : ∀ c ∈ cs, c.dest ≠ 0 ∧ c.stop ≤ 2 ^ 64 := fun c hc =>
    (hholds c hc).addressable hwell haddress
  -- A copy is not empty, so it starts in front of the last address.
  have hlt : ∀ c ∈ cs, c.dest < 2 ^ 64 := by
    intro c hc
    have hstop := (hplace c hc).2
    have hpos := hall.size_pos hc
    rw [Copy.stop] at hstop
    omega
  refine ⟨cs, hall, hwell, hholds, hcopied.apart, hcopied.fresh, hplace,
    ⟨_, hcopied.contents, ?_⟩, hblocks ▸ hcopied.blocks, hobjects.trans hcopied.objects,
    hcopied.of_resolve? halign hlt hroot, ⟨_, hcopied.contents, ?_⟩⟩
  · exact hrewrites.mono (fun _ => Iff.rfl) fun i old new _ hfollows =>
      hfollows.relinks hcopied halign hlt
  · rw [hcounts, hcopied.counts]
    rfl

end HeapImage
