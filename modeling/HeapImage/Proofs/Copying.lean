import HeapImage.Proofs.CopySteps
import HeapImage.Proofs.HeaderCheck
import HeapImage.Proofs.Rewriting
import Mathlib.Algebra.GroupWithZero.Nat

/-! # Copying objects into an arena

The first pass of a copy gives every object of the image new memory, and leaves the new address in
place of the object's mark word. The marked words of the image and the blocks of the heap are two
records of one list of copies.

* `Copy`, `Copy.HoldsImage`: an object with the address of its copy, and what the copy holds.
* `Grouped`: the blocks as a grouping of the copies.
* `CopyState.Copied`: the state of a copy after some objects.
* `CopyState.Copied.object`, `copied_of_runs_materialize`: one more object, and all of them. -/

namespace HeapImage

/-- An object of an image with the address of its copy. -/
structure Copy where
  region : Region
  span : ObjectSpan
  dest : Nat

namespace Copy

/-- The first address behind the copy. -/
def stop (c : Copy) : Nat := c.dest + c.span.size

/-- Where the places are in the copy that a map of its region marks. -/
def places (c : Copy) (m : BitMap) (width bottom : Nat) : List Nat :=
  let first := (c.span.offset - bottom) / width
  (m.ones first (first + c.span.size / width)).map fun bit => c.dest + (bit - first) * width

/-- Where the marked native pointers are. -/
def natives (c : Copy) (p : CopyPlan) : List Nat :=
  c.places (p.maps c.region).natives wordSize (p.bottom c.region)

/-- Number of native pointers that are moved in the copy. -/
def nativeCount (c : Copy) (p : CopyPlan) : Nat := if p.delta = 0 then 0 else (c.natives p).length

/-- Where the marked references are. -/
def references (c : Copy) (p : CopyPlan) : List Nat :=
  c.places (p.maps c.region).references p.slotSize (p.bottom c.region)

/-- The bytes of a view at the place of the copy are those of the object in an image, with the
marked native pointers moved. -/
def HoldsImage (c : Copy) (p : CopyPlan) (image v : Nat → UInt8) : Prop :=
  ∃ w, Rewrites wordSize (PlusDelta p.delta) (c.natives p)
      (fun x => image (c.span.offset + (x - c.dest))) w ∧
    ∀ k < c.span.size, v (c.dest + k) = w (c.dest + k)

/-- The places of a copy are those of the marks inside its object. -/
theorem mem_places {c : Copy} {m : BitMap} {width bottom i : Nat} :
    i ∈ c.places m width bottom ↔ ∃ k, k < c.span.size / width ∧
      m.contains ((c.span.offset - bottom) / width + k) = true ∧ i = c.dest + k * width := by
  rw [places, List.mem_map]
  constructor
  · rintro ⟨bit, hbit, rfl⟩
    obtain ⟨hlow, hhigh, hmem⟩ := BitMap.mem_ones.mp hbit
    refine ⟨bit - (c.span.offset - bottom) / width, by omega, ?_, rfl⟩
    rwa [Nat.add_sub_cancel' hlow]
  · rintro ⟨k, hk, hmem, rfl⟩
    refine ⟨_, BitMap.mem_ones.mpr ⟨Nat.le_add_right .., Nat.add_lt_add_left hk _, hmem⟩, ?_⟩
    rw [Nat.add_sub_cancel_left]

/-- Marked places of a copy lie in it. -/
theorem bounds_of_mem_places {c : Copy} {m : BitMap} {width bottom i : Nat}
    (hi : i ∈ c.places m width bottom) : c.dest ≤ i ∧ i + width ≤ c.stop := by
  obtain ⟨k, hk, -, rfl⟩ := mem_places.mp hi
  have hlast := Nat.mul_le_mul_right width (Nat.succ_le_of_lt hk)
  have hdiv := Nat.div_mul_le_self c.span.size width
  rw [Nat.succ_mul] at hlast
  rw [stop]
  omega

/-- Marked places of a copy stand one behind the other. -/
theorem places_ascending (c : Copy) (m : BitMap) (width bottom : Nat) :
    (c.places m width bottom).Pairwise fun i j => i + width ≤ j := by
  rw [places, List.pairwise_map]
  refine (m.ones_pairwise _ _).imp_of_mem ?_
  intro i j hi _ hlt
  have hfirst := (BitMap.mem_ones.mp hi).1
  have hnext := Nat.mul_le_mul_right width
    (show i - (c.span.offset - bottom) / width + 1 ≤ j - (c.span.offset - bottom) / width by omega)
  rw [Nat.add_one_mul] at hnext
  omega

/-- The places of a copy lie apart. -/
theorem places_pairwise (c : Copy) (m : BitMap) (width bottom : Nat) :
    (c.places m width bottom).Pairwise (Apart width) :=
  (c.places_ascending m width bottom).imp .inl

end Copy

namespace CopyStep

variable {s t : CopyState Arena} {p : CopyPlan} {u : Unit}

/-- Rebasing goes through the native pointers of a copy. -/
theorem rewrites_of_runs_rebaseNatives {c : Copy} (hw : s.heap.WellFormed)
    (h : Runs (rebaseNatives p c.region c.span c.dest) s u t) :
    t.heap.WellFormed ∧ (∀ b m, s.heap.Holds b m → t.heap.Holds b m) ∧
      Rewrites wordSize (PlusDelta p.delta) (c.natives p) s.heap.byte t.heap.byte ∧
      ∃ heap, t = { s with
        heap := heap
        counts := s.counts.addNatives (c.natives p).length } := by
  have hrun : Runs ((c.natives p).forM (rebaseNative p.delta)) s u t := runs_forM_map.mpr h
  refine runs_forM_induction (fun done w => w.heap.WellFormed ∧
    (∀ b m, s.heap.Holds b m → w.heap.Holds b m) ∧
    Rewrites wordSize (PlusDelta p.delta) done s.heap.byte w.heap.byte ∧
    ∃ heap, w = { s with heap := heap, counts := s.counts.addNatives done.length }) hrun
    ⟨hw, fun _ _ hb => hb, .nil, _, rfl⟩ ?_
  -- The invariant of the loop: the places so far have been moved and counted.
  rintro done a rest w w' hplaces ⟨hwell, hkeeps, hrewrites, heap, rfl⟩ hstep
  obtain ⟨hcan, rfl⟩ := of_runs_rebaseNative hwell hstep
  have hpairwise : (c.natives p).Pairwise (Apart wordSize) := Copy.places_pairwise ..
  rw [hplaces, List.pairwise_append] at hpairwise
  rw [List.length_append, LoadCounts.addNatives_add]
  refine ⟨hwell.write _ _, fun b m hb => (hkeeps b m hb).write hwell _ _, ?_, _, rfl⟩
  apply hrewrites.step
  · exact fun i hi => hpairwise.2.2 i hi a (List.mem_cons_self ..)
  · intro j hj
    exact Arena.byte_write_of_apart hwell hcan _ hj
  · rw [Arena.number_write hwell hcan, PlusDelta]
    exact Nat.mod_eq_of_lt (UInt64.toNat_lt _)

end CopyStep

/-- An arena in which memory has been allocated and written, and nothing else. -/
structure Arena.Fills (h : Arena) (a n : Nat) (h' : Arena) : Prop where
  wellFormed : h'.WellFormed
  holds : h'.Holds a n
  keeps : ∀ b m, h.Holds b m → h'.Holds b m
  fresh : ∀ b m, h.Holds b m → b + m ≤ a ∨ a + n ≤ b
  outside : ∀ x, x < a ∨ a + n ≤ x → h'.byte x = h.byte x

namespace CopyStep

variable {s t : CopyState Arena} {p : CopyPlan} {u : Unit}

/-- **Copying one object** fills new memory with it. -/
theorem fills_of_runs_copyObject {region : Region} {o : ObjectSpan} (hw : s.heap.WellFormed)
    (hinside : o.stop ≤ s.image.size) (h : Runs (copyObject p region o) s u t) :
    ∃ dest heap, s.heap.Fills dest o.size heap ∧
      (Copy.mk region o dest).HoldsImage p (Bytes.get s.image) heap.byte ∧
      t = {
        heap := heap
        image := Bytes.setWord s.image o.offset (UInt64.ofNat dest)
        starts := s.starts.insert (o.offset / wordSize)
        blocks := extendBlocks s.blocks region o dest
        objects := s.objects + 1
        counts := s.counts.addNatives ((Copy.mk region o dest).nativeCount p) } := by
  obtain ⟨dest, heap, s₁, hallocate, hcan, hrebase, rfl⟩ := of_runs_copyObject h
  have hallocates : s.heap.Allocates dest o.size heap := Arena.of_allocate hw hallocate
  have hsize : (s.image.extract o.offset o.stop).size = o.size := by
    rw [ByteArray.size_extract, Nat.min_eq_left hinside, ObjectSpan.stop, Nat.add_sub_cancel_left]
  have hwell := hallocates.wellFormed
  -- The copy before its native pointers are rebased.
  have hwritten : ∀ x, (heap.write dest (s.image.extract o.offset o.stop)).byte x =
      if dest ≤ x ∧ x < dest + o.size then Bytes.get s.image (o.offset + (x - dest))
      else s.heap.byte x := by
    intro x
    rw [Arena.byte_write hwell hcan, hsize, hallocates.byte]
    split
    · rw [Bytes.get_extract, ObjectSpan.stop, if_pos (by omega)]
    · rfl
  obtain ⟨hwell₁, hkeeps₁, hrewrites, heap₁, rfl⟩ : s₁.heap.WellFormed ∧
      (∀ b m, (heap.write dest (s.image.extract o.offset o.stop)).Holds b m → s₁.heap.Holds b m) ∧
      Rewrites wordSize (PlusDelta p.delta) ((Copy.mk region o dest).natives p)
        (heap.write dest (s.image.extract o.offset o.stop)).byte s₁.heap.byte ∧
      ∃ heap₁, s₁ = { s with
        heap := heap₁
        counts := s.counts.addNatives ((Copy.mk region o dest).nativeCount p) } := by
    rcases hrebase with ⟨hzero, rfl⟩ | ⟨hne, hrun⟩
    · rw [Copy.nativeCount, if_pos hzero]
      refine ⟨hwell.write _ _, fun _ _ hb => hb, ⟨?_, fun _ _ => rfl⟩, _, rfl⟩
      intro i _
      have hlt :=
        Bytes.number_lt (heap.write dest (s.image.extract o.offset o.stop)).byte i wordSize
      rw [PlusDelta, hzero, UInt64.add_zero, UInt64.toNat_ofNat_of_lt' hlt]
    · rw [Copy.nativeCount, if_neg hne]
      exact rewrites_of_runs_rebaseNatives (s := { s with
        heap := heap.write dest (s.image.extract o.offset o.stop) }) (hwell.write _ _) hrun
  refine ⟨dest, heap₁, ⟨hwell₁, ?_, ?_, hallocates.fresh, ?_⟩, ?_, rfl⟩
  · exact hkeeps₁ _ _ (hallocates.holds.write hwell _ _)
  · exact fun b m hb => hkeeps₁ b m ((hallocates.keeps b m hb).write hwell _ _)
  · intro x hx
    have hout : heap₁.byte x = (heap.write dest (s.image.extract o.offset o.stop)).byte x := by
      apply hrewrites.outside
      intro i hi
      have hbounds := Copy.bounds_of_mem_places hi
      rw [Copy.stop] at hbounds
      dsimp only at hbounds
      omega
    rw [hout, hwritten, if_neg (by omega)]
  · refine ⟨_, hrewrites.window (fun i hi => Copy.bounds_of_mem_places hi) ?_, ?_⟩
    · intro x hlow hhigh
      exact ((hwritten x).trans (if_pos ⟨hlow, hhigh⟩)).symm
    · intro k hk
      exact (if_pos ⟨Nat.le_add_right .., Nat.add_lt_add_left hk _⟩).symm

end CopyStep

/-! ## Blocks -/

/-- The copies of a block are neighbours in the image and in the heap. -/
structure Block.Covers (b : Block) (cs : List Copy) : Prop where
  ne_nil : cs ≠ []
  region : ∀ c ∈ cs, c.region = b.region
  stream : Tiles (fun c => c.span.offset) (fun c => c.span.size) b.streamOffset cs b.streamTop
  dest : Tiles Copy.dest (fun c => c.span.size) b.dest.bottom cs b.dest.top

/-- The blocks group the copies. -/
def Grouped (blocks : List Block) (cs : List Copy) : Prop :=
  ∃ groups : List (Block × List Copy), blocks = groups.map Prod.fst ∧
    cs = groups.flatMap Prod.snd ∧ ∀ g ∈ groups, g.1.Covers g.2

/-- No copies make no blocks. -/
theorem grouped_nil : Grouped [] [] := ⟨[], rfl, rfl, fun _ hg => nomatch hg⟩

/-- A copy that is no neighbour starts a block. -/
theorem Grouped.push {blocks : List Block} {cs : List Copy} (h : Grouped blocks cs) (c : Copy) :
    Grouped (blocks ++ [⟨⟨c.dest, c.stop⟩, c.region, c.span.offset⟩]) (cs ++ [c]) := by
  obtain ⟨groups, rfl, rfl, hcovers⟩ := h
  refine ⟨groups ++ [(⟨⟨c.dest, c.stop⟩, c.region, c.span.offset⟩, [c])], ?_, ?_, ?_⟩
  · rw [List.map_append, List.map_singleton]
  · rw [List.flatMap_append, List.flatMap_singleton]
  · intro g hg
    rcases List.mem_append.mp hg with hg | hg
    · exact hcovers g hg
    · rw [List.mem_singleton.mp hg]
      refine ⟨List.cons_ne_nil c [], ?_, ⟨rfl, ?_⟩, rfl, rfl⟩
      · intro d hd
        rw [List.mem_singleton.mp hd]
      · change c.span.offset + c.span.size = c.span.offset + (c.dest + c.span.size - c.dest)
        omega

/-- A copy that is a neighbour of the last block extends it. -/
theorem Grouped.extend {blocks : List Block} {last : Block} {cs : List Copy} {c : Copy}
    (h : Grouped (blocks ++ [last]) cs) (hregion : last.region = c.region)
    (hdest : last.dest.top = c.dest) (hstream : last.streamTop = c.span.offset) :
    Grouped (blocks ++ [{ last with dest := ⟨last.dest.bottom, c.stop⟩ }]) (cs ++ [c]) := by
  obtain ⟨groups, hblocks, rfl, hcovers⟩ := h
  -- Only the group of the last block gets the copy.
  obtain ⟨front, tail, rfl, rfl, htail⟩ := List.map_eq_append_iff.mp hblocks.symm
  obtain ⟨g, rest, rfl, rfl, hrest⟩ := List.map_eq_cons_iff.mp htail
  obtain rfl := List.map_eq_nil_iff.mp hrest
  have hlast := hcovers g (List.mem_append_right _ (List.mem_singleton.mpr rfl))
  have hle := hlast.dest.le
  refine ⟨front ++ [({ g.1 with dest := ⟨g.1.dest.bottom, c.stop⟩ }, g.2 ++ [c])], ?_, ?_, ?_⟩
  · rw [List.map_append, List.map_singleton]
  · rw [List.flatMap_append, List.flatMap_append, List.flatMap_singleton, List.flatMap_singleton,
      List.append_assoc]
  · intro g' hg'
    rcases List.mem_append.mp hg' with hg' | hg'
    · exact hcovers g' (List.mem_append_left _ hg')
    · rw [List.mem_singleton.mp hg']
      refine ⟨by simp, ?_, ?_, ?_⟩
      · intro d hd
        rcases List.mem_append.mp hd with hd | hd
        · exact hlast.region d hd
        · rw [List.mem_singleton.mp hd]
          exact hregion.symm
      · have htop : Block.streamTop { g.1 with dest := ⟨g.1.dest.bottom, c.stop⟩ } =
            g.1.streamTop + c.span.size := by
          rw [Block.streamTop, Block.streamTop, Extent.length, Extent.length, Copy.stop, ← hdest]
          dsimp only
          omega
        rw [htop]
        exact hlast.stream.concat hstream.symm
      · have htop : c.stop = g.1.dest.top + c.span.size := by
          rw [Copy.stop, hdest]
        dsimp only
        rw [htop]
        exact hlast.dest.concat hdest.symm

/-- **One more copy** goes to the last block or starts a new one. -/
theorem Grouped.extendBlocks {blocks : Array Block} {cs : List Copy} (h : Grouped blocks.toList cs)
    (c : Copy) :
    Grouped (CopyStep.extendBlocks blocks c.region c.span c.dest).toList (cs ++ [c]) := by
  rcases CopyStep.extendBlocks_cases blocks c.region c.span c.dest with
    ⟨front, last, hlast, ⟨hregion, hdest, hstream⟩, hextended⟩ | ⟨-, hpushed⟩
  · rw [hextended]
    exact (hlast ▸ h).extend hregion hdest hstream
  · rw [hpushed]
    exact h.push c

/-! ## The state of a copy -/

/-- Some objects of an image have been copied to memory that was not in use before. -/
structure CopyState.Copied (s : CopyState Arena) (p : CopyPlan) (b : ByteArray) (h : Arena)
    (cs : List Copy) : Prop where
  wellFormed : s.heap.WellFormed
  keeps : ∀ a n, h.Holds a n → s.heap.Holds a n
  holds : ∀ c ∈ cs, s.heap.Holds c.dest c.span.size
  apart : cs.Pairwise fun c d => c.stop ≤ d.dest ∨ d.stop ≤ c.dest
  fresh : ∀ c ∈ cs, ∀ a n, h.Holds a n → a + n ≤ c.dest ∨ c.stop ≤ a
  outside : ∀ x, (∀ c ∈ cs, x < c.dest ∨ c.stop ≤ x) → s.heap.byte x = h.byte x
  contents : ∀ c ∈ cs, c.HoldsImage p (Bytes.get b) s.heap.byte
  size : s.image.size = b.size
  marks : ∀ c ∈ cs, Bytes.number (Bytes.get s.image) c.span.offset wordSize = c.dest % 2 ^ 64
  unmarked : ∀ j, (∀ c ∈ cs, j < c.span.offset ∨ c.span.stop ≤ j) →
    Bytes.get s.image j = Bytes.get b j
  sizeStarts : s.starts.size = b.size / wordSize
  starts : ∀ i, s.starts.contains i = true ↔ ∃ c ∈ cs, c.span.offset / wordSize = i
  blocks : Grouped s.blocks.toList cs
  objects : s.objects = cs.length
  stream : cs.Pairwise fun c d => c.span.stop ≤ d.span.offset
  counts : s.counts = LoadCounts.zero.addNatives (cs.map fun c => c.nativeCount p).sum

/-- Whether a copy holds its object depends on the bytes of the two only. -/
theorem Copy.HoldsImage.congr {c : Copy} {p : CopyPlan} {image image' v v' : Nat → UInt8}
    (h : c.HoldsImage p image v)
    (himage : ∀ k < c.span.size, image' (c.span.offset + k) = image (c.span.offset + k))
    (hv : ∀ k < c.span.size, v' (c.dest + k) = v (c.dest + k)) : c.HoldsImage p image' v' := by
  obtain ⟨w, hw, hsame⟩ := h
  have hbefore : ∀ x, c.dest ≤ x → x < c.stop → image' (c.span.offset + (x - c.dest)) =
      image (c.span.offset + (x - c.dest)) := by
    intro x hlow hhigh
    rw [Copy.stop] at hhigh
    exact himage _ (by omega)
  refine ⟨_, hw.window (fun i hi => Copy.bounds_of_mem_places hi) hbefore, ?_⟩
  · intro k hk
    rw [hv k hk, hsame k hk, Copy.stop, if_pos ⟨Nat.le_add_right .., Nat.add_lt_add_left hk _⟩]

namespace CopyState.Copied

variable {s t : CopyState Arena} {p : CopyPlan} {b : ByteArray} {h : Arena} {cs : List Copy}
variable {u : Unit}

/-- Nothing has been copied yet. -/
theorem start (hw : h.WellFormed) :
    Copied ⟨h, b, BitMap.empty (b.size / wordSize), #[], 0, .zero⟩ p b h [] where
  wellFormed := hw
  keeps _ _ hb := hb
  holds _ hc := nomatch hc
  apart := .nil
  fresh _ hc := nomatch hc
  outside _ _ := rfl
  contents _ hc := nomatch hc
  size := rfl
  marks _ hc := nomatch hc
  unmarked _ _ := rfl
  sizeStarts := rfl
  starts i := by
    rw [BitMap.contains_empty]
    simp
  blocks := grouped_nil
  objects := rfl
  stream := .nil
  counts := rfl

section Object

variable {region : Region} {o : ObjectSpan} {dest : Nat} {heap : Arena}

/-- What has been copied stays where it is, and the next object is copied as it is in the image. -/
theorem contents_append (hs : s.Copied p b h cs) (hfills : s.heap.Fills dest o.size heap)
    (himage : (Copy.mk region o dest).HoldsImage p (Bytes.get s.image) heap.byte)
    (hbehind : ∀ c ∈ cs, headerSize ≤ c.span.size ∧ c.span.stop ≤ o.offset) :
    ∀ c ∈ cs ++ [⟨region, o, dest⟩], c.HoldsImage p (Bytes.get b) heap.byte := by
  refine List.forall_mem_append.mpr ⟨?_, List.forall_mem_singleton.mpr ?_⟩
  · intro c hc
    apply (hs.contents c hc).congr fun _ _ => rfl
    intro k hk
    apply hfills.outside
    have hapart := hfills.fresh _ _ (hs.holds c hc)
    omega
  · -- The image is marked only where objects before this one start.
    apply himage.congr _ fun _ _ => rfl
    intro k hk
    apply (hs.unmarked _ _).symm
    intro c hc
    have hle := (hbehind c hc).2
    exact .inr (Nat.le_add_right_of_le hle)

/-- The first word of each copied object is overwritten with the address of its copy. -/
theorem marks_append (hs : s.Copied p b h cs) (hfits : o.offset + wordSize ≤ s.image.size)
    (hbehind : ∀ c ∈ cs, headerSize ≤ c.span.size ∧ c.span.stop ≤ o.offset) :
    ∀ c ∈ cs ++ [⟨region, o, dest⟩],
      Bytes.number (Bytes.get (Bytes.setWord s.image o.offset (UInt64.ofNat dest)))
        c.span.offset wordSize = c.dest % 2 ^ 64 := by
  have hword : headerSize = wordSize + wordSize := rfl
  refine List.forall_mem_append.mpr ⟨?_, List.forall_mem_singleton.mpr ?_⟩
  · intro c hc
    obtain ⟨hheader, hle⟩ := hbehind c hc
    rw [ObjectSpan.stop] at hle
    rw [Bytes.number_setWord_of_disjoint (.inl (by omega))]
    exact hs.marks c hc
  · dsimp only
    rw [Bytes.number_setWord_self hfits, UInt64.toNat_ofNat']

/-- Outside of the copied objects the image is as it was read. -/
theorem unmarked_append (hs : s.Copied p b h cs) (hsize : headerSize ≤ o.size) (j : Nat)
    (hj : ∀ c ∈ cs ++ [⟨region, o, dest⟩], j < c.span.offset ∨ c.span.stop ≤ j) :
    Bytes.get (Bytes.setWord s.image o.offset (UInt64.ofNat dest)) j = Bytes.get b j := by
  have hword : headerSize = wordSize + wordSize := rfl
  obtain ⟨hjs, hjo⟩ := List.forall_mem_append.mp hj
  have hout := hjo ⟨region, o, dest⟩ (List.mem_singleton.mpr rfl)
  rw [ObjectSpan.stop] at hout
  dsimp only at hout
  rw [Bytes.get_setWord_of_outside (by omega)]
  exact hs.unmarked j hjs

/-- The bit of an object is that of the heap word in which it starts, also if it starts inside. -/
theorem starts_append (hs : s.Copied p b h cs) (hfits : o.offset + wordSize ≤ s.image.size)
    (i : Nat) : (s.starts.insert (o.offset / wordSize)).contains i = true ↔
      ∃ c ∈ cs ++ [⟨region, o, dest⟩], c.span.offset / wordSize = i := by
  have hlt : o.offset / wordSize < s.starts.size := by
    rw [hs.sizeStarts, ← hs.size]
    exact BitMap.div_lt_div_of_add_le (by decide) hfits
  rw [BitMap.contains_insert hlt, Bool.or_eq_true, decide_eq_true_eq, hs.starts i]
  simp only [List.mem_append, List.mem_singleton, or_and_right, exists_or, exists_eq_left]
  exact Or.comm

/-- **One more object** is copied from behind those before it. -/
theorem object (hs : s.Copied p b h cs)
    (hbehind : ∀ c ∈ cs, headerSize ≤ c.span.size ∧ c.span.stop ≤ o.offset)
    (hsize : headerSize ≤ o.size) (hinside : o.stop ≤ b.size)
    (hrun : Runs (CopyStep.copyObject p region o) s u t) :
    ∃ dest, t.Copied p b h (cs ++ [⟨region, o, dest⟩]) := by
  obtain ⟨dest, heap, hfills, himage, rfl⟩ :=
    CopyStep.fills_of_runs_copyObject hs.wellFormed (by rwa [hs.size]) hrun
  have hword : headerSize = wordSize + wordSize := rfl
  have hfits : o.offset + wordSize ≤ s.image.size := by
    rw [ObjectSpan.stop, ← hs.size] at hinside
    omega
  refine ⟨dest, ?_⟩
  constructor
  case wellFormed => exact hfills.wellFormed
  case keeps => exact fun a n hb => hfills.keeps a n (hs.keeps a n hb)
  case holds =>
    exact List.forall_mem_append.mpr ⟨fun c hc => hfills.keeps _ _ (hs.holds c hc),
      List.forall_mem_singleton.mpr hfills.holds⟩
  case apart =>
    refine List.pairwise_append.mpr ⟨hs.apart, List.pairwise_singleton .., ?_⟩
    intro c hc d hd
    rw [List.mem_singleton.mp hd]
    exact hfills.fresh _ _ (hs.holds c hc)
  case fresh =>
    exact List.forall_mem_append.mpr ⟨hs.fresh, List.forall_mem_singleton.mpr fun a n hb =>
      hfills.fresh a n (hs.keeps a n hb)⟩
  case outside =>
    intro x hx
    obtain ⟨hxs, hxo⟩ := List.forall_mem_append.mp hx
    rw [← hs.outside x hxs]
    exact hfills.outside x (hxo ⟨region, o, dest⟩ (List.mem_singleton.mpr rfl))
  case contents => exact hs.contents_append hfills himage hbehind
  case size =>
    dsimp only
    rw [Bytes.size_setWord]
    exact hs.size
  case marks =>
    dsimp only
    exact hs.marks_append hfits hbehind
  case unmarked =>
    dsimp only
    exact hs.unmarked_append hsize
  case sizeStarts =>
    dsimp only
    rw [BitMap.size_insert]
    exact hs.sizeStarts
  case starts =>
    dsimp only
    exact hs.starts_append hfits
  case blocks => exact hs.blocks.extendBlocks ⟨region, o, dest⟩
  case objects =>
    rw [List.length_append, ← hs.objects]
    rfl
  case stream =>
    refine List.pairwise_append.mpr ⟨hs.stream, List.pairwise_singleton .., ?_⟩
    intro c hc d hd
    rw [List.mem_singleton.mp hd]
    exact (hbehind c hc).2
  case counts =>
    rw [List.map_append, List.sum_append, LoadCounts.addNatives_add, ← hs.counts]
    rfl

end Object

/-- A row of objects is copied from behind what has been copied before. -/
theorem row {region : Region} {xs : List ObjectSpan} {start stop : Nat} (hs : s.Copied p b h cs)
    (hbehind : ∀ c ∈ cs, headerSize ≤ c.span.size ∧ c.span.stop ≤ start)
    (htiles : Tiles ObjectSpan.offset ObjectSpan.size start xs stop) (hstop : stop ≤ b.size)
    (hsize : ∀ o ∈ xs, headerSize ≤ o.size)
    (hrun : Runs (xs.forM (CopyStep.copyObject p region)) s u t) :
    ∃ ds, t.Copied p b h (cs ++ ds) ∧ (∀ d ∈ ds, d.region = region) ∧ ds.map Copy.span = xs := by
  induction xs generalizing s cs start with
  | nil =>
    rw [runs_forM_nil] at hrun
    subst hrun
    exact ⟨[], (List.append_nil cs).symm ▸ hs, fun _ hd => (nomatch hd), rfl⟩
  | cons o xs ih =>
    obtain ⟨s', hobject, hrest⟩ := runs_forM_cons.mp hrun
    obtain ⟨hoffset, htiles⟩ := htiles
    have hheader := hsize o (List.mem_cons_self ..)
    have hinside : o.stop ≤ b.size := by
      rw [ObjectSpan.stop, hoffset]
      exact Nat.le_trans htiles.le hstop
    -- The induction is on the objects; all copies so far stop where the next object starts.
    obtain ⟨dest, hs'⟩ := hs.object (hoffset ▸ hbehind) hheader hinside hobject
    have hnext : ∀ c ∈ cs ++ [⟨region, o, dest⟩],
        headerSize ≤ c.span.size ∧ c.span.stop ≤ start + o.size := by
      refine List.forall_mem_append.mpr ⟨?_, List.forall_mem_singleton.mpr ⟨hheader, ?_⟩⟩
      · intro c hc
        obtain ⟨hc, hle⟩ := hbehind c hc
        exact ⟨hc, Nat.le_add_right_of_le hle⟩
      · exact Nat.le_of_eq (congrArg (· + o.size) hoffset)
    obtain ⟨ds, ht, hregion, hspans⟩ := ih hs' hnext htiles
      (fun o ho => hsize o (List.mem_cons_of_mem _ ho)) hrest
    refine ⟨⟨region, o, dest⟩ :: ds, ?_, ?_, ?_⟩
    · rwa [List.append_assoc] at ht
    · exact List.forall_mem_cons.mpr ⟨rfl, hregion⟩
    · rw [List.map_cons, hspans]

/-- The objects of a region are copied. They are those of the image as it was before anything had
been copied. -/
theorem region {region : Region} {e : Extent} (hs : s.Copied p b h cs)
    (he : p.header.range region = e) (hle : e.bottom ≤ e.top) (htop : e.top ≤ b.size)
    (hbehind : ∀ c ∈ cs, headerSize ≤ c.span.size ∧ c.span.stop ≤ e.bottom)
    (hrun : Runs (CopyStep.materializeRegion p region) s u t) :
    ∃ ds, t.Copied p b h (cs ++ ds) ∧ (∀ d ∈ ds, d.region = region) ∧
      ObjectSpan.Row b p.types p.slotSize e.bottom (ds.map Copy.span) e.top := by
  subst he
  obtain ⟨xs, hrow, hcopy⟩ := CopyStep.of_runs_materializeRegion hle hrun
  obtain ⟨ds, ht, hregion, rfl⟩ := hs.row hbehind hrow.tiles htop
    (fun o ho => (hrow.found o ho).headerSize_le) hcopy
  refine ⟨ds, ht, hregion, hrow.congr hs.size.symm ?_⟩
  intro j hlow _
  refine (hs.unmarked j fun c hc => .inr ?_).symm
  exact Nat.le_trans (hbehind c hc).2 hlow

end CopyState.Copied

/-! ## The first pass -/

/-- The copies from each region are those of all its objects, in image order. -/
def CopyPlan.Complete (p : CopyPlan) (b : ByteArray) (cs : List Copy) : Prop :=
  ∀ region, ObjectSpan.Row b p.types p.slotSize (p.header.range region).bottom
    ((cs.filter fun c => c.region = region).map Copy.span) (p.header.range region).top

/-- Copies of one region, filtered by region. -/
theorem filter_region {cs : List Copy} {region : Region} (h : ∀ c ∈ cs, c.region = region)
    (wanted : Region) :
    cs.filter (fun c => c.region = wanted) = if region = wanted then cs else [] := by
  split
  · rename_i heq
    rw [List.filter_eq_self]
    intro c hc
    rw [h c hc, heq, decide_eq_true_eq]
  · rename_i hne
    rw [List.filter_eq_nil_iff]
    intro c hc
    rw [h c hc, decide_eq_true_eq]
    exact hne

/-- **The first pass** copies all objects of the image. -/
theorem CopyState.Copied.all {s t : CopyState Arena} {p : CopyPlan} {b : ByteArray} {h : Arena}
    {u : Unit} (hs : s.Copied p b h []) (hregions : p.header.SoundRegions)
    (hsize : b.size = p.header.imageLength.toNat)
    (hrun : Runs (CopyStep.materialize p) s u t) :
    ∃ cs, t.Copied p b h cs ∧ p.Complete b cs := by
  have hzero : p.header.openOffset.toNat = 0 := by
    rw [hregions.openOffset]
    rfl
  have hopenSize := hregions.openSize_le
  have hclosed := hregions.closedStop_le
  have hopened : p.header.range .opened =
      ⟨p.header.openOffset.toNat, p.header.openOffset.toNat + p.header.openSize.toNat⟩ := rfl
  have hclosed' : p.header.range .closed =
      ⟨p.header.closedOffset.toNat, p.header.closedOffset.toNat + p.header.closedSize.toNat⟩ := rfl
  rw [CopyStep.materialize, Region.all, runs_forM_cons] at hrun
  obtain ⟨s', hopen, hrun⟩ := hrun
  obtain ⟨t', hclose, hrun⟩ := runs_forM_cons.mp hrun
  rw [runs_forM_nil] at hrun
  subst hrun
  -- The open region is copied first. Its copies stop in front of the closed region, so they are in
  -- front of all that comes next.
  obtain ⟨ds, hs', hds, hrow⟩ := hs.region hopened (Nat.le_add_right ..) (by dsimp only; omega)
    (fun _ hc => nomatch hc) hopen
  rw [List.nil_append] at hs'
  have hbehind : ∀ d ∈ ds,
      headerSize ≤ d.span.size ∧ d.span.stop ≤ p.header.closedOffset.toNat := by
    intro d hd
    have hfound := hrow.found _ (List.mem_map_of_mem hd)
    have hstop := hfound.stop_le
    dsimp only at hstop
    exact ⟨hfound.headerSize_le, by omega⟩
  obtain ⟨es, ht, hes, hrow'⟩ := hs'.region hclosed' (Nat.le_add_right ..) (by dsimp only; omega)
    hbehind hclose
  refine ⟨ds ++ es, ht, ?_⟩
  intro region
  rw [List.filter_append, filter_region hds, filter_region hes]
  cases region with
  | opened =>
    rw [if_pos rfl, if_neg nofun, List.append_nil, hopened]
    exact hrow
  | closed =>
    rw [if_neg nofun, if_pos rfl, List.nil_append, hclosed']
    exact hrow'

end HeapImage
