import HeapImage.Proofs.LoadedMembers
import HeapImage.Proofs.MappedMembers
import HeapImage.Proofs.SoundArchives

/-! # Loading makes no reference null

Zero stands for null in every encoding, so a load that stores zero for an object loses it. This does
not happen as long as nothing is loaded to address zero: a slot that holds a reference in the image
of a dump holds one after the load.

* `Archive.HoldsMembers.referent_of_marked`: a marked slot that is not null refers to a member.
* `Archive.HoldsMembers.ne_zero_of_mapImage`, `Archive.HoldsMembers.ne_zero_of_copyImage`: the two
  ways to load an image.
* `Archive.ne_zero_of_load`: both, for every dump. -/

namespace HeapImage

/-- The block that a copy belongs to has it at the same distance from its start in the heap as in
the image. -/
theorem Grouped.exists_block {blocks : List Block} {cs : List Copy} (h : Grouped blocks cs)
    {c : Copy} (hc : c ∈ cs) : ∃ b ∈ blocks, b.region = c.region ∧
      b.streamOffset ≤ c.span.offset ∧ c.span.stop ≤ b.streamTop ∧
      c.dest + b.streamOffset = b.dest.bottom + c.span.offset := by
  obtain ⟨groups, rfl, rfl, hcovers⟩ := h
  obtain ⟨group, hgroup, hc⟩ := List.mem_flatMap.mp hc
  have hcover := hcovers group hgroup
  obtain ⟨hlow, hhigh⟩ := hcover.stream.bounds c hc
  have hdistance := hcover.dest.offset_add hcover.stream hc
  exact ⟨group.1, List.mem_map_of_mem hgroup, (hcover.region c hc).symm, hlow, hhigh,
    hdistance.trans (Nat.add_comm ..)⟩

namespace Archive

namespace HoldsMembers

variable {a : Archive} {g : ObjectGraph} {r : TypeRegistry} {roots : List ObjectId}
variable {native : Extent} {members : Region → List Placed} {ref : ObjectId → Nat}
variable {runtime : ReferenceEncoding} {delta : UInt64} {region : Region} {bit : Nat}

/-- A marked slot that is not null is that of a cell which refers to a member. -/
theorem referent_of_marked (hm : a.HoldsMembers g r roots native members ref)
    (hbit : a.Refers region bit) : ∃ x ∈ members region, ∃ c ∈ x.member.cells a.slotSize, ∃ i,
      c.value = .reference (some i) ∧ c.width = a.slotSize ∧
        x.offset + c.offset = a.slotOffset region bit ∧
        ∃ region', ∃ y ∈ members region', y.member.id = some i := by
  have hslot : IsSlotSize a.slotSize := a.encoding.isSlotSize
  obtain ⟨hmarked, hne⟩ := hbit
  obtain ⟨x, hx, k, hk, hplace⟩ := ((hm.marks region).references bit).mp hmarked
  have hof := hm.of region x hx
  obtain ⟨c, hc, rfl, target, hv⟩ := (hof.mem_referenceOffsets hslot).mp hk
  have hwidth := (hof.width_of_reference hslot hc hv).1
  have hheld : Bytes.number (Bytes.get a.image) (x.offset + c.offset) c.width =
      c.value.number ref id := (hm.held region x hx).cells c hc
  -- The map marks null references as well; that the slot is not null tells the cell's target.
  cases target with
  | none =>
    rw [hwidth, hplace, hv] at hheld
    rw [slotValue, Bytes.valueAt_eq_number] at hne
    exact absurd hheld hne
  | some i => exact ⟨x, hx, c, hc, i, hv, hwidth, hplace, hm.referents region x hx c hc i hv⟩

/-- What is stored for a member at a new place is not zero unless the place is. -/
theorem storedAt_ne_zero (hm : a.HoldsMembers g r roots native members ref) {e : ReferenceEncoding}
    {place : Nat → Nat} {y : Placed} (hy : y ∈ members region) {i : ObjectId}
    (hid : y.member.id = some i) (hplace : place y.offset ≠ 0) {value : Nat}
    (hvalue : e.encode (place y.offset) = .ok value) :
    Placed.storedAt e (moved members place) i ≠ 0 := by
  rw [hm.storedAt_moved hy hid hvalue]
  exact ReferenceEncoding.encode_ne_zero hplace hvalue

/-- **A mapped image** has no null in place of a reference, unless its base is zero. -/
theorem ne_zero_of_mapImage (hm : a.HoldsMembers g r roots native members ref) {μ : Type}
    [MappingHost μ] {host host' : μ} {image : MappedImage}
    (hmap : mapImage a host runtime delta = (.ok image, host')) (hbase : image.heap.base ≠ 0)
    (htop : image.heap.base + a.image.size ≤ 2 ^ 64) :
    image.root ≠ 0 ∧ ∀ region bit, a.Refers region bit →
      Bytes.valueAt image.heap.image (a.slotOffset region bit) runtime.slotSize ≠ 0 := by
  obtain ⟨hcheck, -, -, hroot, -, p, hpatch, himage, -⟩ := of_mapImage hmap
  have hfits := hm.fits hcheck hbase htop
  have hslot : a.slotSize = runtime.slotSize := hfits.slotSize
  constructor
  · rw [hroot]
    omega
  · intro region bit hbit
    obtain ⟨x, hx, c, hc, i, hv, hwidth, hplace, region', y, hy, hid⟩ := hm.referent_of_marked hbit
    rw [hslot] at hc hwidth
    obtain ⟨-, hmembers⟩ := hm.held_of_patchImage hfits hpatch
    obtain ⟨hheld, hvalues⟩ := hmembers region x hx
    obtain ⟨offset, new, hnew⟩ := hvalues c hc i hv
    have hencode := hm.encode_of_value hfits (of_patchImage hpatch).1 hy hid hnew
    have hcell := hheld.cells c hc
    rw [hwidth, hv, hplace] at hcell
    rw [himage, Bytes.valueAt_eq_number, hcell]
    exact hm.storedAt_ne_zero hy hid (by omega) hencode

/-- **The copies of an image** have no null in place of a reference, unless some memory of the heap
is at address zero. -/
theorem ne_zero_of_copyImage (hm : a.HoldsMembers g r roots native members ref) {h h' : Arena}
    {o : CopiedObjects} (hw : h.WellFormed) (hcopy : copyImage a h runtime delta = (.ok o, h'))
    (haddress : h'.Addressable) :
    o.root ≠ 0 ∧ ∀ region bit, a.Refers region bit → ∃ b ∈ o.blocks.toList, b.region = region ∧
      b.streamOffset ≤ a.slotOffset region bit ∧
      a.slotOffset region bit + a.slotSize ≤ b.streamTop ∧
      ∃ v, Memory.readValue? h' (b.dest.bottom + (a.slotOffset region bit - b.streamOffset))
        runtime.slotSize = some v ∧ v ≠ 0 := by
  obtain ⟨hslot, cs, hloads⟩ := hm.exists_loads hw hcopy haddress
  change a.slotSize = runtime.slotSize at hslot
  constructor
  · obtain ⟨c, hc, -, hroot⟩ := hloads.root
    rw [← hroot]
    exact (hloads.place c hc).1
  · intro region bit hbit
    obtain ⟨x, hx, c, hc, i, hv, hwidth, hplace, region', y, hy, hid⟩ := hm.referent_of_marked hbit
    rw [hslot] at hc hwidth
    have hof := hm.of region x hx
    obtain ⟨-, hfits⟩ := hof.bounds runtime.isSlotSize hc
    obtain ⟨copy, hcopy, rfl, hspan, haddressOf⟩ := hm.copy_of_member hslot hloads.all hx
    obtain ⟨b, hb, hregion, hlow, hhigh, hdistance⟩ := hloads.blocks.exists_block hcopy
    rw [ObjectSpan.stop, hspan] at hhigh
    rw [hspan] at hlow hdistance
    change x.offset + x.member.size runtime.slotSize ≤ b.streamTop at hhigh
    change b.streamOffset ≤ x.offset at hlow
    change copy.dest + b.streamOffset = b.dest.bottom + x.offset at hdistance
    refine ⟨b, hb, hregion, by omega, by omega, ?_⟩
    -- Both the object and its cell lie in the block at the same distance as in the image.
    have hdest : b.dest.bottom + (a.slotOffset copy.region bit - b.streamOffset) =
        copy.dest + c.offset := by omega
    have hholds := hloads.holds copy hcopy
    rw [hspan] at hholds
    change h'.Holds copy.dest (x.member.size runtime.slotSize) at hholds
    rw [hdest]
    refine ⟨_, (hholds.part (Nat.le_add_right ..) (by omega)).readValue? hloads.wellFormed
      runtime.isSlotSize.pos, ?_⟩
    obtain ⟨hheld, hvalues⟩ := hm.held_of_loads hslot hloads hx
    obtain ⟨value, hencode⟩ := hvalues c hc i hv region' y hy hid
    obtain ⟨copy', hcopy', -, -, haddressOf'⟩ := hm.copy_of_member hslot hloads.all hy
    have hcell := hheld.cells c hc
    rw [Placed.moveTo, haddressOf, hwidth, hv] at hcell
    rw [hcell]
    -- The referent has been copied too, and no copy starts at address zero.
    refine hm.storedAt_ne_zero hy hid ?_ hencode
    rw [haddressOf']
    exact (hloads.place copy' hcopy').1

end HoldsMembers

/-- **A load makes no reference null** as long as nothing is loaded to address zero. This holds of
every dump, and under every encoding of the running heap. -/
theorem ne_zero_of_load {r : TypeRegistry} {g : ObjectGraph} {selection : Selection}
    {o : DumpOptions} {a : Archive} (hwords : o.InWords) (hdump : dump r g selection o = .ok a) :
    (∀ {μ : Type} [MappingHost μ] (host host' : μ) runtime delta (image : MappedImage),
      mapImage a host runtime delta = (.ok image, host') → image.heap.base ≠ 0 →
        image.heap.base + a.image.size ≤ 2 ^ 64 →
        image.root ≠ 0 ∧ ∀ region bit, a.Refers region bit →
          Bytes.valueAt image.heap.image (a.slotOffset region bit) runtime.slotSize ≠ 0) ∧
    ∀ (h h' : Arena) runtime delta (copied : CopiedObjects), h.Reachable →
      copyImage a h runtime delta = (.ok copied, h') → h'.Addressable →
        copied.root ≠ 0 ∧ ∀ region bit, a.Refers region bit →
          ∃ b ∈ copied.blocks.toList, b.region = region ∧
            b.streamOffset ≤ a.slotOffset region bit ∧
            a.slotOffset region bit + a.slotSize ≤ b.streamTop ∧
            ∃ v, Memory.readValue? h' (b.dest.bottom + (a.slotOffset region bit - b.streamOffset))
              runtime.slotSize = some v ∧ v ≠ 0 := by
  obtain ⟨members, ref, hm⟩ := holdsMembers_of_dump hwords hdump
  constructor
  · intro μ _ host host' runtime delta image hmap hbase htop
    exact hm.ne_zero_of_mapImage hmap hbase htop
  · intro h h' runtime delta copied hreachable hcopy haddress
    exact hm.ne_zero_of_copyImage hreachable.wellFormed hcopy haddress

/-- The cycle of two pairs has a reference, and it can be mapped and copied. -/
theorem exists_references_cycle : ∃ a image h copied h',
    dump .pairs .cycle .cycle .small = .ok a ∧ a.Refers .opened 4 ∧
    mapImage a Arena.standard (.narrow 0 3) 0 = (.ok image, h) ∧ image.heap.base ≠ 0 ∧
    image.heap.base + a.image.size ≤ 2 ^ 64 ∧
    copyImage a Arena.standard (.narrow 0 3) 0 = (.ok copied, h') ∧ h'.Addressable := by
  have hok : ((dump .pairs .cycle .cycle .small).toOption.any fun a =>
      (mapImage a Arena.standard (.narrow 0 3) 0).1.toOption.any fun image =>
        (copyImage a Arena.standard (.narrow 0 3) 0).1.toOption.any fun _ =>
          decide (a.Refers .opened 4 ∧ image.heap.base ≠ 0 ∧
            image.heap.base + a.image.size ≤ 2 ^ 64 ∧
            (copyImage a Arena.standard (.narrow 0 3) 0).2.Addressable)) = true := by
    decide +kernel
  obtain ⟨a, hdump, hok⟩ := Except.exists_of_any hok
  obtain ⟨image, h, hmap, hok⟩ := Except.exists_of_any_state (p := fun _ _ => _) hok
  obtain ⟨copied, h', hcopy, hok⟩ := Except.exists_of_any_state
    (p := fun _ h' => decide (_ ∧ _ ∧ _ ∧ Arena.Addressable h')) hok
  obtain ⟨hrefers, hbase, htop, haddress⟩ := of_decide_eq_true hok
  exact ⟨a, image, h, copied, h', hdump, hrefers, hmap, hbase, htop, hcopy, haddress⟩

/-- The first field of the cycle's first object stays a reference in both modes. -/
theorem ne_zero_of_load_cycle : ∃ a image h copied h', DumpOptions.small.InWords ∧
    dump .pairs .cycle .cycle .small = .ok a ∧ a.Refers .opened 4 ∧
    mapImage a Arena.standard (.narrow 0 3) 0 = (.ok image, h) ∧ image.root ≠ 0 ∧
    Bytes.valueAt image.heap.image (a.slotOffset .opened 4) 4 ≠ 0 ∧
    copyImage a Arena.standard (.narrow 0 3) 0 = (.ok copied, h') ∧ copied.root ≠ 0 ∧
    ∃ b ∈ copied.blocks.toList, ∃ v, Memory.readValue? h'
      (b.dest.bottom + (a.slotOffset .opened 4 - b.streamOffset)) 4 = some v ∧ v ≠ 0 := by
  obtain ⟨a, image, h, copied, h', hdump, hrefers, hmap, hbase, htop, hcopy, haddress⟩ :=
    exists_references_cycle
  obtain ⟨hmapped, hcopied⟩ := ne_zero_of_load DumpOptions.inWords_small hdump
  obtain ⟨hroot, hslots⟩ := hmapped _ _ _ _ image hmap hbase htop
  obtain ⟨hroot', hblocks⟩ := hcopied _ _ _ _ copied .standard hcopy haddress
  obtain ⟨b, hb, -, -, -, hread⟩ := hblocks .opened 4 hrefers
  exact ⟨a, image, h, copied, h', DumpOptions.inWords_small, hdump, hrefers, hmap, hroot,
    hslots .opened 4 hrefers, hcopy, hroot', b, hb, hread⟩

end Archive

end HeapImage
