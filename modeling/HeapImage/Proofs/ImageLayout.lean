import HeapImage.Proofs.DumpImage
import Mathlib.Order.Bounds.Defs

/-! # The layout of a dumped image

The header of a dump says in machine words where the regions of its image are. They are large enough
for all numbers of a dump, so what is known of the session holds of the archive.

* `DumpSession.Standing.base_add_le`, `DumpSession.Complete.length_eq`: sizes and counts of a dump.
* `Archive.Layout`: the layout of an image, with the members of both regions.
* `Archive.layout_of_dump`: every dump has this layout. -/

namespace HeapImage

/-! ## Sizes and counts of a dump -/

/-- The image ends below the heap end. -/
theorem DumpSession.Standing.base_add_le {s : DumpSession} {q : RequestedRegions} {g : ObjectGraph}
    {roots : List ObjectId} {os cs : List Placed} {ref : ObjectId → Nat}
    (h : s.Standing q g roots os cs ref) :
    q.opened.bottom + s.imageSize ≤ s.options.heapEnd := by
  rw [h.base_add]
  exact alignDown_le _ _

/-- Every entry of the selection has a member, and the root array has one. -/
theorem DumpSession.Complete.length_eq {s : DumpSession} {q : RequestedRegions} {g : ObjectGraph}
    {selection : Selection} {os cs : List Placed} {ref : ObjectId → Nat}
    (h : s.Complete q g selection os cs ref) :
    (os ++ cs).length = selection.entries.length + 1 := by
  have hos := congrArg List.length h.openIds
  have hcs := congrArg List.length h.closedIds
  simp only [List.length_map, List.length_append, List.length_singleton] at hos hcs
  have hsplit := List.length_eq_length_filter_add
    (l := selection.entries) (fun e => decide (e.2 = Region.opened))
  have hnot : (fun e : ObjectId × Region => !decide (e.2 = Region.opened)) =
      fun e => decide (e.2 = Region.closed) := by
    funext e
    cases e.2 <;> rfl
  rw [hnot] at hsplit
  rw [List.length_append, hos, hcs, hsplit]
  omega

namespace Archive

/-! ## The header of a dump -/

/-- A header remembers the encoding that is stored in it. -/
theorem encoding_withEncoding (e : ReferenceEncoding) :
    (ArchiveHeader.blank.withEncoding e).encoding = e := by
  cases e with
  | wide =>
    rw [ArchiveHeader.encoding]
    exact if_neg (by decide)
  | narrow base shift =>
    rw [ArchiveHeader.encoding]
    exact if_pos (show (0 ||| ArchiveHeader.narrowFlag) &&& ArchiveHeader.narrowFlag != 0 by decide)

/-- What the header of an archive says in numbers: the regions, the root array and the number of
objects. -/
structure HeaderSays (a : Archive) (s : DumpSession) (q : RequestedRegions) : Prop where
  encoding : a.encoding = s.options.encoding
  regionAlignment : a.header.regionAlignment.toNat = s.options.alignment
  requestedBase : a.header.requestedBase.toNat = q.opened.bottom
  openOffset : a.header.openOffset = 0
  openSize : a.header.openSize.toNat = s.openTop
  closedOffset : a.header.closedOffset.toNat = s.closedBottom
  closedStop : a.header.closedOffset.toNat + a.header.closedSize.toNat = s.closedTop
  imageLength : a.header.imageLength.toNat = s.imageSize
  rootOffset : a.header.rootOffset.toNat = s.rootOffset
  nativeBase : a.header.nativeBase.toNat = s.options.native.bottom
  nativeSize : a.header.nativeSize.toNat = s.options.native.length
  objectCount : a.header.objectCount.toNat = s.placements.size

/-- No number of a dump is cut off in its header. -/
theorem headerSays_assemble {s : DumpSession} {q : RequestedRegions} {g : ObjectGraph}
    (r : TypeRegistry) {roots : List ObjectId} (opened closed : RegionMaps) {os cs : List Placed}
    {ref : ObjectId → Nat} (h : s.Standing q g roots os cs ref) (hwords : s.options.InWords)
    (hcheck : s.options.check = .ok ()) :
    (assemble (headerOf s q) s.output r opened closed).HeaderSays s q := by
  obtain ⟨-, -, halign, hnative, -⟩ := DumpOptions.of_check hcheck
  have hend := hwords.heapEnd_lt
  have htop := hwords.native_lt
  have hbase := h.base_add_le
  have hopen := h.openTop_le
  have hclosed := h.closedRow.le
  have himage := h.closedTop_le
  obtain ⟨x, hx, -, hroot⟩ := h.root
  have hxstop := h.stop_le x (List.mem_append_left _ hx)
  have hcount : s.placements.size = (os ++ cs).length := by
    rw [← Array.length_toList, h.placements, List.length_map]
  have hlength := h.length_le
  have hword : UInt64.size = 2 ^ 64 := rfl
  rw [Placed.stop] at hxstop
  -- Every number is at most the end of the heap or that of the native image, which are words.
  refine ⟨?_, ?_, ?_, ?_, ?_, ?_, ?_, ?_, ?_, ?_, ?_, ?_⟩
  · exact encoding_withEncoding s.options.encoding
  · exact UInt64.toNat_ofNat_of_lt' (by omega)
  · exact UInt64.toNat_ofNat_of_lt' (by omega)
  · change (ArchiveHeader.blank.withEncoding s.options.encoding).openOffset = 0
    cases s.options.encoding <;> rfl
  · exact UInt64.toNat_ofNat_of_lt' (by omega)
  · exact UInt64.toNat_ofNat_of_lt' (by omega)
  · change (UInt64.ofNat s.closedBottom).toNat +
      (UInt64.ofNat (s.closedTop - s.closedBottom)).toNat = s.closedTop
    rw [UInt64.toNat_ofNat_of_lt' (by omega), UInt64.toNat_ofNat_of_lt' (by omega)]
    omega
  · change (UInt64.ofNat s.output.size).toNat = s.imageSize
    rw [h.size_output]
    exact UInt64.toNat_ofNat_of_lt' (by omega)
  · exact UInt64.toNat_ofNat_of_lt' (by omega)
  · exact UInt64.toNat_ofNat_of_lt' (by omega)
  · refine UInt64.toNat_ofNat_of_lt' ?_
    rw [Extent.length]
    omega
  · refine UInt64.toNat_ofNat_of_lt' ?_
    omega

/-- The regions are where the session has them. -/
theorem HeaderSays.range {a : Archive} {s : DumpSession} {q : RequestedRegions}
    (h : a.HeaderSays s q) (region : Region) : a.header.range region = s.range region := by
  cases region with
  | opened =>
    rw [ArchiveHeader.range, h.openOffset, h.openSize, UInt64.toNat_zero, Nat.zero_add]
    rfl
  | closed =>
    rw [ArchiveHeader.range, h.closedStop, h.closedOffset]
    rfl

/-! ## The layout -/

/-- How a dump lays out the selected objects of a graph. The open region holds the open entries in
order and the root array behind them, the closed region starts at the next multiple of the alignment
and holds the closed entries in order, and nothing else is in the image. -/
structure Layout (a : Archive) (r : TypeRegistry) (g : ObjectGraph) (selection : Selection)
    (o : DumpOptions) (os cs : List Placed) (ref : ObjectId → Nat) : Prop where
  openIds : os.map (fun x => x.member.id) =
    (selection.entries.filter fun e => e.2 = .opened).map (fun e => some e.1) ++ [none]
  openRow : Placed.Row o.encoding.slotSize 0 os a.header.openSize.toNat
  closedOffset : IsLeast {m | o.alignment ∣ m ∧ a.header.openSize.toNat ≤ m}
    a.header.closedOffset.toNat
  closedIds : cs.map (fun x => x.member.id) =
    (selection.entries.filter fun e => e.2 = .closed).map fun e => some e.1
  closedRow : Placed.Row o.encoding.slotSize a.header.closedOffset.toNat cs
    (a.header.closedOffset.toNat + a.header.closedSize.toNat)
  /-- Every selected object is one member. -/
  once : ∀ e ∈ selection.entries, ((os ++ cs).map fun x => x.member.id).count (some e.1) = 1
  /-- The members are the objects of the graph, with stored addresses for references. -/
  held : ∀ x ∈ os ++ cs, x.member.Of g r selection.roots ∧
    x.Held o.encoding.slotSize ref id (Bytes.get a.image)
  stored : ∀ x ∈ os ++ cs, ∀ i, x.member.id = some i →
    o.encoding.encode (a.header.requestedBase.toNat + x.offset) = .ok (ref i)
  /-- Members only refer to members. -/
  referents : ∀ x ∈ os ++ cs, ∀ c ∈ x.member.cells o.encoding.slotSize, ∀ i,
    c.value = .reference (some i) → ∃ y ∈ os ++ cs, y.member.id = some i
  /-- The first and the last byte of a member lie between the same multiples of the alignment. -/
  boundary : ∀ x ∈ os ++ cs,
    x.offset / o.alignment = (x.stop o.encoding.slotSize - 1) / o.alignment
  padding : ∀ j, a.header.openSize.toNat ≤ j ∧ j < a.header.closedOffset.toNat ∨
    a.header.closedOffset.toNat + a.header.closedSize.toNat ≤ j → Bytes.get a.image j = 0
  root : ∃ x ∈ os, x.member.id = none ∧ x.offset = a.header.rootOffset.toNat
  objectCount : a.header.objectCount.toNat = selection.entries.length + 1
  imageLength : a.header.imageLength.toNat = a.image.size
  closedStop_le : a.header.closedOffset.toNat + a.header.closedSize.toNat ≤ a.image.size
  base_ne_zero : a.header.requestedBase ≠ 0
  dvd_base : o.alignment ∣ a.header.requestedBase.toNat
  base_add : a.header.requestedBase.toNat + a.header.imageLength.toNat =
    o.alignment * (o.heapEnd / o.alignment)
  below : ∀ x ∈ os ++ cs,
    a.header.requestedBase.toNat + x.stop o.encoding.slotSize ≤ o.heapEnd

/-- **The layout of a dump.** Every dump that succeeds lays out its image like this. -/
theorem layout_of_dump {r : TypeRegistry} {g : ObjectGraph} {selection : Selection}
    {o : DumpOptions} {a : Archive} (hwords : o.InWords) (h : dump r g selection o = .ok a) :
    ∃ os cs ref, a.Layout r g selection o os cs ref := by
  obtain ⟨s, q, opened, closed, os, cs, rfl, rfl, hcheck, -, rfl, hs⟩ := complete_of_dump hwords h
  obtain ⟨ha, -⟩ := DumpOptions.of_check hcheck
  obtain ⟨-, -, hbase, -, hopen, hoffset, hstop, hlength, hroot, -, -, hcount⟩ :=
    headerSays_assemble s.registry opened closed hs.standing hwords hcheck
  refine ⟨os, cs, s.storedRef q, ?_⟩
  constructor
  case openIds => exact hs.openIds
  case openRow =>
    rw [hopen]
    exact hs.openRow
  -- A multiple of the alignment behind the open region is behind its aligned end.
  case closedOffset =>
    rw [hopen, hoffset, hs.closedBottom_eq]
    refine ⟨⟨dvd_alignUp ha _, le_alignUp _ _⟩, ?_⟩
    rintro m ⟨hdvd, hle⟩
    exact alignUp_le ha hdvd hle
  case closedIds => exact hs.closedIds
  case closedRow =>
    rw [hstop, hoffset]
    exact hs.closedRow
  case once => exact fun e he => List.count_eq_one_of_mem hs.distinct (hs.mem_ids he)
  case held => exact fun x hx => ⟨hs.of x hx, hs.held x hx⟩
  case stored =>
    rw [hbase]
    exact hs.stored
  case referents => exact hs.referents
  case boundary => exact fun x hx => (alignDown_eq_alignDown_iff ha).mp (hs.boundary x hx)
  case padding =>
    rw [hopen, hstop, hoffset]
    exact hs.zero
  case root =>
    rw [hroot]
    exact hs.root
  case objectCount =>
    rw [hcount, ← Array.length_toList, hs.placements, List.length_map, hs.length_eq]
  case imageLength => exact hlength.trans hs.size_output.symm
  case closedStop_le =>
    rw [hstop]
    exact Nat.le_trans hs.standing.closedTop_le (Nat.le_of_eq hs.size_output.symm)
  case base_ne_zero =>
    intro hzero
    apply hs.base_ne_zero
    rw [← hbase, hzero]
    rfl
  case dvd_base =>
    rw [hbase]
    exact hs.dvd_base
  case base_add =>
    rw [hbase, hlength, hs.base_add]
    exact alignDown_eq ha _
  -- The image ends at the last multiple of the alignment below the end of the heap.
  case below =>
    intro x hx
    rw [hbase]
    have := hs.standing.stop_le x hx
    have := hs.standing.closedTop_le
    have := hs.standing.base_add_le
    change q.opened.bottom + x.stop s.slotSize ≤ _
    omega

end Archive

/-! ## A cycle across the regions -/

/-- Root arrays, and pairs of a reference and a native pointer. -/
def TypeRegistry.pairs : TypeRegistry where
  types := #[.rootArray, ⟨"Pair", .record [.reference, .native]⟩]
  first := rfl
  supported := by decide
  distinct := by decide

/-- Two pairs that refer to each other; only the first one points into the native image. -/
def ObjectGraph.cycle : ObjectGraph where
  objects := #[⟨1, 1, .fields [.reference (some ⟨1⟩), .native 0x8010]⟩,
    ⟨1, 1, .fields [.reference (some ⟨0⟩), .native 0x10]⟩]

/-- One pair in each region, and both of them as roots. -/
def Selection.cycle : Selection where
  entries := [(⟨0⟩, .opened), (⟨1⟩, .closed)]
  roots := [⟨0⟩, ⟨1⟩]

/-- Options for a small heap with narrow references. -/
def DumpOptions.small : DumpOptions where
  alignment := 64
  heapEnd := 0x100008
  encoding := .narrow 0x1000 3
  native := ⟨0x8000, 0x9000⟩
  capacity := 4096

/-- The small options are in words. -/
theorem DumpOptions.inWords_small : DumpOptions.small.InWords := ⟨by decide, by decide, by decide⟩

/-- A session with the small options can be started. -/
theorem DumpSession.start?_small : start? .pairs .small = .ok (start .pairs .small) := rfl

namespace Archive

/-- The cycle of two pairs can be dumped. -/
theorem exists_dump_cycle : ∃ a, dump .pairs .cycle .cycle .small = .ok a := by
  have hok : (dump .pairs .cycle .cycle .small).isOk = true := by decide +kernel
  cases h : dump .pairs .cycle .cycle .small with
  | ok a => exact ⟨a, rfl⟩
  | error e =>
    rw [h] at hok
    cases hok

/-- The cycle is laid out in both regions. -/
theorem layout_of_dump_cycle : ∃ a os cs ref, DumpOptions.small.InWords ∧
    dump .pairs .cycle .cycle .small = .ok a ∧
      a.Layout .pairs .cycle .cycle .small os cs ref := by
  obtain ⟨a, ha⟩ := exists_dump_cycle
  obtain ⟨os, cs, ref, hlayout⟩ := layout_of_dump DumpOptions.inWords_small ha
  exact ⟨a, os, cs, ref, DumpOptions.inWords_small, ha, hlayout⟩

end Archive

end HeapImage
