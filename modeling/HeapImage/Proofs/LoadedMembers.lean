import HeapImage.Proofs.CopiedMembers
import HeapImage.Proofs.MovedMembers

/-! # Members of a loaded image

A dumped image whose objects have been copied presents the members of its graph at the places of
their copies, with references for the running heap and with native pointers into the moved native
image.

* `Arena.length_le_of_chunks`: there are no more places in an arena than bytes.
* `Archive.HoldsMembers.held_of_loads`: the members of a copied image.
* `Archive.HoldsMembers.exists_loads`, `Archive.HoldsMembers.root_of_loads`: a copied dump and its
  root.
* `Archive.HoldsMembers.ofHeap_of_copyImage`: the snapshot of a copied image. -/

namespace HeapImage

/-! ## Counting addresses -/

/-- The extent of an arena is the number of addresses in its chunks. -/
theorem Arena.extent_eq (h : Arena) :
    h.extent = (h.chunks.toList.flatMap fun c => List.range' c.base c.size).length := by
  rw [extent, ← Array.foldl_toList, List.length_flatMap]
  generalize h.chunks.toList = chunks
  have hsum : ∀ n, chunks.foldl (fun n c => n + c.size) n =
      n + (chunks.map fun c => (List.range' c.base c.size).length).sum := by
    induction chunks with
    | nil => exact fun n => rfl
    | cons c chunks ih =>
      intro n
      rw [List.foldl_cons, ih, List.map_cons, List.sum_cons, List.length_range', Nat.add_assoc]
  rw [hsum, Nat.zero_add]

/-- There are no more places in an arena than it has bytes. -/
theorem Arena.length_le_of_chunks {h : Arena} {places : List Nat} (hnodup : places.Nodup)
    (hchunks : ∀ a ∈ places, ∃ c ∈ h.chunks.toList, c.base ≤ a ∧ a < c.base + c.size) :
    places.length ≤ h.extent := by
  rw [extent_eq]
  refine (List.subperm_of_subset hnodup ?_).length_le
  intro a ha
  obtain ⟨c, hc, hbounds⟩ := hchunks a ha
  exact List.mem_flatMap.mpr ⟨c, hc, List.mem_range'_1.mpr hbounds⟩

/-- No more places hold memory than the arena has addresses. -/
theorem Arena.length_le_extent {h : Arena} {places : List Nat} (hnodup : places.Nodup)
    (hholds : ∀ a ∈ places, ∃ n, 0 < n ∧ h.Holds a n) (hw : h.WellFormed) :
    places.length ≤ h.extent := by
  refine length_le_of_chunks hnodup fun a ha => ?_
  obtain ⟨n, hn, c, hc, hbase, htop⟩ := hholds a ha
  have hle := hw.top_le c hc
  exact ⟨c, hc, hbase, by omega⟩

/-- Allocated memory shows its bytes. -/
theorem Arena.Holds.shows {h : Arena} {a n : Nat} (hh : h.Holds a n) (hw : h.WellFormed) :
    Memory.Shows h h.byte a n := by
  intro i len hlen hlow hhigh
  exact (hh.part hlow hhigh).read? hw hlen

/-! ## Members -/

/-- A copy of a member, before its references are replaced, is the member with other native
pointers. -/
theorem Copy.HoldsImage.held {c : Copy} {p : CopyPlan} {b : ByteArray} {v : Nat → UInt8}
    {g : ObjectGraph} {r : TypeRegistry} {roots : List ObjectId} {ref : ObjectId → Nat}
    {native : Extent} {x : Placed} (h : c.HoldsImage p (Bytes.get b) v)
    (hof : x.member.Of g r roots) (hspan : c.span = x.span p.slotSize)
    (hheld : x.Held p.slotSize ref id (Bytes.get b))
    (hnatives : ∀ i, i ∈ c.natives p ↔
      Placed.NativeAt [⟨x.member, c.dest⟩] p.slotSize native i) :
    Placed.Held ⟨x.member, c.dest⟩ p.slotSize ref (movedNative native p.delta) v := by
  obtain ⟨w, hrewrites, hsame⟩ := h
  have hslot := p.isSlotSize
  have hsize : c.span.size = x.member.size p.slotSize := by
    rw [hspan]
    rfl
  have hoffset : c.span.offset = x.offset := by
    rw [hspan]
    rfl
  have hbefore : Placed.Held ⟨x.member, c.dest⟩ p.slotSize ref id
      (fun k => Bytes.get b (c.span.offset + (k - c.dest))) := by
    apply Member.HeldAt.congr hheld hof hslot
    intro k _
    rw [hoffset, Nat.add_sub_cancel_left]
  have hrow : Placed.Row p.slotSize c.dest [⟨x.member, c.dest⟩]
      (c.dest + x.member.size p.slotSize) := ⟨rfl, rfl⟩
  -- Moving the native pointers is a pass over the copy alone; the other copies do not matter here.
  have hafter : Placed.Held ⟨x.member, c.dest⟩ p.slotSize ref (movedNative native p.delta) w := by
    apply Placed.Held.rewrite_natives (List.mem_singleton.mpr rfl) hbefore
      (List.forall_mem_singleton.mpr hof) hslot hrow.disjoint hrewrites hnatives
    · intro i y hin new hnew
      have hmoved : movedNative native p.delta y = y + p.delta := if_pos hin
      rw [hmoved]
      exact hnew.trans (by rw [id, UInt64.ofNat_toNat])
    · intro y hout
      rw [movedNative, hout]
      rfl
  apply Member.HeldAt.congr hafter hof hslot
  intro k hk
  exact hsame k (hsize ▸ hk)

/-- Copies that differ lie apart. -/
theorem CopyPlan.Loads.apart_of_ne {p : CopyPlan} {b : ByteArray} {h h' : Arena} {o : CopiedObjects}
    {cs : List Copy} (hloads : p.Loads b h o h' cs) {c d : Copy} (hc : c ∈ cs) (hd : d ∈ cs)
    (hne : c ≠ d) : c.stop ≤ d.dest ∨ d.stop ≤ c.dest := by
  have hsymm : Std.Symm fun c d : Copy => c.stop ≤ d.dest ∨ d.stop ≤ c.dest :=
    ⟨fun _ _ => Or.symm⟩
  exact hloads.apart.forall hc hd hne

namespace Archive.HoldsMembers

variable {a : Archive} {g : ObjectGraph} {r : TypeRegistry} {roots : List ObjectId}
variable {native : Extent} {members : Region → List Placed} {ref : ObjectId → Nat}
variable {runtime : ReferenceEncoding} {delta : UInt64} {cs : List Copy}
variable {h h' : Arena} {o : CopiedObjects}

/-- A replaced reference is the stored form of the address of the copy that it leads to. -/
theorem encode_of_relinks (hm : a.HoldsMembers g r roots native members ref)
    (hslot : a.encoding.slotSize = runtime.slotSize)
    (hall : (a.plan runtime delta).Complete a.image cs) {region : Region} {y : Placed}
    (hy : y ∈ members region) {i : ObjectId} (hid : y.member.id = some i) {position new : Nat}
    (hrelinks : (a.plan runtime delta).Relinks cs position (ref i) new) :
    runtime.encode (addressOfCopy cs y.offset) = .ok new := by
  have hstored := hm.stored region y hy i hid
  have hbase := hm.regions.base_ne_zero
  have hbelow := hm.below
  have hstop := hm.stop_le hy
  rw [Placed.stop] at hstop
  have hne := ReferenceEncoding.encode_ne_zero (by omega) hstored
  have hdecode := ReferenceEncoding.decode_encode (by omega) hstored
  generalize ref i = old at hrelinks hne hdecode
  cases hrelinks with
  | null => exact absurd rfl hne
  | @target _ _ c _ hc htarget hencode =>
    have hoffset : y.offset = c.span.offset := Nat.add_left_cancel (hdecode.symm.trans htarget)
    rw [hoffset, hm.addressOfCopy_eq hslot hall hc]
    exact hencode

/-- The marked references of all copies are the slots of all members. -/
theorem mem_flatMap_references (hm : a.HoldsMembers g r roots native members ref)
    (hslot : a.encoding.slotSize = runtime.slotSize)
    (hall : (a.plan runtime delta).Complete a.image cs) {i : Nat} :
    i ∈ (cs.flatMap fun c => c.references (a.plan runtime delta)) ↔
      i ∈ Placed.slots (moved members (addressOfCopy cs)) runtime.slotSize := by
  rw [List.mem_flatMap, Placed.mem_slots]
  constructor
  · rintro ⟨c, hc, hi⟩
    obtain ⟨x, hx, hspan⟩ := hm.member_of_copy hslot hall hc
    obtain ⟨k, hk, rfl⟩ := (hm.mem_references hslot hx hspan).mp hi
    have haddress := hm.addressOfCopy_eq hslot hall hc
    rw [hspan] at haddress
    exact ⟨_, moveTo_mem_moved hx, k, hk, congrArg (· + k) haddress.symm⟩
  · rintro ⟨x, hx, k, hk, rfl⟩
    obtain ⟨region, x, hx', rfl⟩ := mem_moved.mp hx
    obtain ⟨c, hc, rfl, hspan, haddress⟩ := hm.copy_of_member hslot hall hx'
    exact ⟨c, hc, (hm.mem_references hslot hx' hspan).mpr ⟨k, hk, congrArg (· + k) haddress⟩⟩

/-- The copies of different members lie apart. -/
theorem eq_or_apart_of_loads (hm : a.HoldsMembers g r roots native members ref)
    (hslot : a.encoding.slotSize = runtime.slotSize)
    (hloads : (a.plan runtime delta).Loads a.image h o h' cs) {region region' : Region}
    {x y : Placed} (hx : x ∈ members region) (hy : y ∈ members region') : x = y ∨
      addressOfCopy cs x.offset + x.member.size runtime.slotSize ≤ addressOfCopy cs y.offset ∨
      addressOfCopy cs y.offset + y.member.size runtime.slotSize ≤ addressOfCopy cs x.offset := by
  obtain ⟨c, hc, -, hcspan, hcdest⟩ := hm.copy_of_member hslot hloads.all hx
  obtain ⟨d, hd, -, hdspan, hddest⟩ := hm.copy_of_member hslot hloads.all hy
  by_cases heq : c = d
  · rw [heq, hdspan] at hcspan
    have hoffset : y.offset = x.offset := congrArg ObjectSpan.offset hcspan
    exact .inl (hm.eq_of_offset_eq hx hy hoffset.symm).2
  · have happart := hloads.apart_of_ne hc hd heq
    rw [Copy.stop, Copy.stop, hcspan, hdspan, ← hcdest, ← hddest] at happart
    exact .inr happart

/-- The copies of members lie apart. -/
theorem disjoint_moved (hm : a.HoldsMembers g r roots native members ref)
    (hslot : a.encoding.slotSize = runtime.slotSize)
    (hloads : (a.plan runtime delta).Loads a.image h o h' cs) :
    Placed.Disjoint runtime.slotSize (moved members (addressOfCopy cs)) := by
  intro x hx y hy
  obtain ⟨region, x, hx', rfl⟩ := mem_moved.mp hx
  obtain ⟨region', y, hy', rfl⟩ := mem_moved.mp hy
  rcases hm.eq_or_apart_of_loads hslot hloads hx' hy' with rfl | happart
  · exact .inl rfl
  · exact .inr happart

/-- The copy of a member, before its references are replaced. -/
theorem held_of_copy (hm : a.HoldsMembers g r roots native members ref)
    (hslot : a.encoding.slotSize = runtime.slotSize) {c : Copy} {v : Nat → UInt8} {x : Placed}
    (hcopy : c.HoldsImage (a.plan runtime delta) (Bytes.get a.image) v) (hx : x ∈ members c.region)
    (hspan : c.span = x.span runtime.slotSize) :
    Placed.Held ⟨x.member, c.dest⟩ runtime.slotSize ref (movedNative native delta) v := by
  have hheld := hm.held c.region x hx
  rw [hslot] at hheld
  exact hcopy.held (hm.of c.region x hx) hspan hheld fun i => hm.mem_natives hslot hx hspan

/-- **Copying an image** gives all its members the referents at their new addresses, and moves their
native pointers. All members that are referred to can be stored. -/
theorem held_of_loads (hm : a.HoldsMembers g r roots native members ref)
    (hslot : a.encoding.slotSize = runtime.slotSize)
    (hloads : (a.plan runtime delta).Loads a.image h o h' cs) {region : Region} {x : Placed}
    (hx : x ∈ members region) :
    (x.moveTo (addressOfCopy cs)).Held runtime.slotSize
      (Placed.storedAt runtime (moved members (addressOfCopy cs))) (movedNative native delta)
      h'.byte ∧
    ∀ c ∈ x.member.cells runtime.slotSize, ∀ i, c.value = .reference (some i) →
      ∀ region', ∀ y ∈ members region', y.member.id = some i →
        ∃ value, runtime.encode (addressOfCopy cs y.offset) = .ok value := by
  obtain ⟨v, hcopies, hrewrites⟩ := hloads.contents
  have hof := hm.of region x hx
  obtain ⟨copy, hcopy, hregion, hspan, haddress⟩ := hm.copy_of_member hslot hloads.all hx
  -- Before its references are replaced, a copy has those of the image.
  have hbefore : (x.moveTo (addressOfCopy cs)).Held runtime.slotSize ref
      (movedNative native delta) v := by
    rw [Placed.moveTo, haddress]
    exact hm.held_of_copy hslot (hcopies copy hcopy) (hregion ▸ hx) hspan
  have hof' : ∀ y ∈ moved members (addressOfCopy cs), y.member.Of g r roots := by
    intro y hy
    obtain ⟨region', y, hy', rfl⟩ := mem_moved.mp hy
    exact hm.of region' y hy'
  constructor
  · apply Placed.Held.rewrite_references (moveTo_mem_moved hx) hbefore hof' runtime.isSlotSize
      (hm.disjoint_moved hslot hloads) hrewrites
      (fun i => hm.mem_flatMap_references hslot hloads.all)
    intro c hc target hv new hnew
    rw [hv] at hnew ⊢
    cases target with
    | none =>
      generalize hold : FieldValue.number ref (movedNative native delta) (.reference none) = old
        at hnew
      cases hnew with
      | null => rfl
      | target hne => exact absurd hold.symm hne
    | some i =>
      obtain ⟨region', y, hy, hid⟩ := hm.referents region x hx c (hslot.symm ▸ hc) i hv
      exact (hm.storedAt_moved hy hid (hm.encode_of_relinks hslot hloads.all hy hid hnew)).symm
  · -- The reference has been replaced by the stored form of an address, so there is one.
    intro c hc i hv region' y hy hid
    have hoffset := (hof.mem_referenceOffsets runtime.isSlotSize).mpr ⟨c, hc, rfl, _, hv⟩
    have hplace : copy.dest + c.offset ∈ cs.flatMap fun c => c.references (a.plan runtime delta) :=
      List.mem_flatMap.mpr ⟨copy, hcopy,
        (hm.mem_references hslot (hregion ▸ hx) hspan).mpr ⟨c.offset, hoffset, rfl⟩⟩
    have hnew := hrewrites.inside _ hplace
    have hold := hbefore.cells c hc
    rw [(hof.width_of_reference runtime.isSlotSize hc hv).1, hv, Placed.moveTo, haddress,
      FieldValue.number] at hold
    rw [show (a.plan runtime delta).slotSize = runtime.slotSize from rfl, hold] at hnew
    exact ⟨_, hm.encode_of_relinks hslot hloads.all hy hid hnew⟩

/-- **The members of a copied image** stand where their copies are. -/
theorem presents_of_loads (hm : a.HoldsMembers g r roots native members ref)
    (hslot : a.encoding.slotSize = runtime.slotSize)
    (hloads : (a.plan runtime delta).Loads a.image h o h' cs) :
    Presents h' runtime g r roots (movedNative native delta) (moved members (addressOfCopy cs))
      (Placed.storedAt runtime (moved members (addressOfCopy cs))) := by
  refine hm.presents_of_held (v := h'.byte) hslot ?_ ?_ ?_ ?_
  · intro region x hx
    obtain ⟨c, hc, -, hspan, haddress⟩ := hm.copy_of_member hslot hloads.all hx
    have hholds := hloads.holds c hc
    rw [hspan, ← haddress] at hholds
    exact ⟨(hm.held_of_loads hslot hloads hx).1, hholds.shows hloads.wellFormed⟩
  · intro region x hx
    obtain ⟨c, hc, -, -, haddress⟩ := hm.copy_of_member hslot hloads.all hx
    rw [haddress]
    exact ⟨(hloads.place c hc).1, hloads.dest_lt c hc⟩
  · intro region x hx region' y hy heq
    -- Copies that start at one address would overlap, as none of them is empty.
    have hxpos := x.member.size_pos runtime.slotSize
    have hypos := y.member.size_pos runtime.slotSize
    rcases hm.eq_or_apart_of_loads hslot hloads hx hy with hsame | hxy | hyx
    · exact hsame
    · omega
    · omega
  · intro region x hx c hc i hv region' y hy hid
    exact (hm.held_of_loads hslot hloads hx).2 c hc i hv region' y hy hid

/-- A dump that is copied has the slots of the running heap, and all of it is loaded. -/
theorem exists_loads (hm : a.HoldsMembers g r roots native members ref) (hw : h.WellFormed)
    (hcopy : copyImage a h runtime delta = (.ok o, h')) (haddress : h'.Addressable) :
    a.encoding.slotSize = runtime.slotSize ∧
      ∃ cs, (a.plan runtime delta).Loads a.image h o h' cs := by
  obtain ⟨hcheck, -⟩ := of_copyImage hcopy
  exact ⟨(checkEncodings_eq_ok hcheck).1,
    loads_of_copyImage hm.regions hm.size (.inl hm.aligned) hw hcopy haddress⟩

/-- The root that a load gives is the copy of the root array. -/
theorem root_of_loads (hm : a.HoldsMembers g r roots native members ref)
    (hslot : a.encoding.slotSize = runtime.slotSize)
    (hloads : (a.plan runtime delta).Loads a.image h o h' cs) :
    ∃ x ∈ moved members (addressOfCopy cs), x.member.id = none ∧ x.offset = o.root := by
  obtain ⟨x, hx, hid, hoffset⟩ := hm.root
  obtain ⟨c, hc, hroot, hdest⟩ := hloads.root
  refine ⟨x.moveTo (addressOfCopy cs), moveTo_mem_moved hx, hid, ?_⟩
  rw [Placed.moveTo, hoffset, ← hdest, ← hm.addressOfCopy_eq hslot hloads.all hc]
  exact congrArg (addressOfCopy cs) hroot.symm

/-- **The snapshot of a copied image** is that of the graph. -/
theorem ofHeap_of_copyImage (hm : a.HoldsMembers g r roots native members ref) (hw : h.WellFormed)
    (hcopy : copyImage a h runtime delta = (.ok o, h')) (haddress : h'.Addressable) :
    ∃ s, Snapshot.ofGraph g r roots (movedNative native delta) = .ok s ∧
      Snapshot.ofHeap h' o.types o.encoding o.root = .ok s := by
  obtain ⟨-, htypes, hencoding, -⟩ := of_copyImage hcopy
  obtain ⟨hslot, cs, hloads⟩ := hm.exists_loads hw hcopy haddress
  have hpresents := hm.presents_of_loads hslot hloads
  obtain ⟨x, hx, hid, hroot⟩ := hm.root_of_loads hslot hloads
  -- The walk has steps for all members: they are in allocated memory at places of their own.
  have hextent : (moved members (addressOfCopy cs)).length ≤ h'.extent := by
    rw [← List.length_map (f := Placed.offset)]
    apply Arena.length_le_extent hpresents.offsets
    · intro p hp
      obtain ⟨y, hy, rfl⟩ := List.mem_map.mp hp
      obtain ⟨region, y, hy', rfl⟩ := mem_moved.mp hy
      obtain ⟨d, hd, -, -, hplace⟩ := hm.copy_of_member hslot hloads.all hy'
      refine ⟨d.span.size, hloads.all.size_pos hd, ?_⟩
      rw [Placed.moveTo, hplace]
      exact hloads.holds d hd
    · exact hloads.wellFormed
  obtain ⟨s, hgraph, hheap⟩ := hpresents.ofHeap_eq hx hid hextent
  refine ⟨s, hgraph, ?_⟩
  rw [htypes, hm.types, hencoding, ← hroot]
  exact hheap

end Archive.HoldsMembers

end HeapImage
