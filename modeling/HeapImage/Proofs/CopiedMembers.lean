import HeapImage.Proofs.CopiedReferences
import HeapImage.Proofs.DumpedMembers

/-! # Copies of members

The objects that a load copies out of a dumped image are the members of its graph, so every member
has one copy, and every copy is that of a member. What the maps mark in a copy are the cells of the
member.

* `Archive.HoldsMembers.spans_eq`: the copied objects are the members.
* `Archive.HoldsMembers.copy_of_member`: the copy of a member.
* `Archive.HoldsMembers.mem_references`, `Archive.HoldsMembers.mem_natives`: the marked places. -/

namespace HeapImage

/-- The address of the copy of the object at an image offset. -/
def addressOfCopy (cs : List Copy) (offset : Nat) : Nat :=
  match cs.find? fun c => c.span.offset = offset with
  | some c => c.dest
  | none => 0

namespace Archive

/-- A plan has the maps of the archive. -/
theorem maps_plan (a : Archive) (runtime : ReferenceEncoding) (delta : UInt64) (region : Region) :
    (a.plan runtime delta).maps region = a.maps region := by
  cases region <;> rfl

namespace HoldsMembers

variable {a : Archive} {g : ObjectGraph} {r : TypeRegistry} {roots : List ObjectId}
variable {native : Extent} {members : Region → List Placed} {ref : ObjectId → Nat}
variable {runtime : ReferenceEncoding} {delta : UInt64} {cs : List Copy}

/-! ## Copies and members -/

/-- The objects that are copied from a region are its members. -/
theorem spans_eq (hm : a.HoldsMembers g r roots native members ref)
    (hslot : a.encoding.slotSize = runtime.slotSize)
    (hall : (a.plan runtime delta).Complete a.image cs) (region : Region) :
    (cs.filter fun c => c.region = region).map Copy.span =
      (members region).map (Placed.span runtime.slotSize) := by
  have hrow := (hm.row region).spans (hm.of region) (hm.held region) (hm.range_top_le region)
  rw [hslot, ← hm.types] at hrow
  exact (hall region).unique hrow

/-- Every copy is that of a member. -/
theorem member_of_copy (hm : a.HoldsMembers g r roots native members ref)
    (hslot : a.encoding.slotSize = runtime.slotSize)
    (hall : (a.plan runtime delta).Complete a.image cs) {c : Copy} (hc : c ∈ cs) :
    ∃ x ∈ members c.region, c.span = x.span runtime.slotSize := by
  have hspan := CopyPlan.Complete.mem_row hc
  rw [hm.spans_eq hslot hall, List.mem_map] at hspan
  obtain ⟨x, hx, heq⟩ := hspan
  exact ⟨x, hx, heq.symm⟩

/-- Copies of one object are one. -/
theorem eq_of_span_offset_eq (hm : a.HoldsMembers g r roots native members ref)
    (hslot : a.encoding.slotSize = runtime.slotSize)
    (hall : (a.plan runtime delta).Complete a.image cs) {c d : Copy} (hc : c ∈ cs) (hd : d ∈ cs)
    (heq : c.span.offset = d.span.offset) : c = d := by
  obtain ⟨x, hx, hcx⟩ := hm.member_of_copy hslot hall hc
  obtain ⟨y, hy, hdy⟩ := hm.member_of_copy hslot hall hd
  rw [hcx, hdy] at heq
  obtain ⟨hregion, -⟩ := hm.eq_of_offset_eq hx hy heq
  have hrow := hall c.region
  have hlt := hrow.tiles.pairwise_lt hrow.size_pos
  rw [List.map_map] at hlt
  have hnodup : ((cs.filter fun e => e.region = c.region).map
      (ObjectSpan.offset ∘ Copy.span)).Nodup := hlt.imp Nat.ne_of_lt
  refine List.inj_on_of_nodup_map hnodup (List.mem_filter.mpr ⟨hc, decide_eq_true rfl⟩)
    (List.mem_filter.mpr ⟨hd, decide_eq_true hregion.symm⟩) ?_
  rw [Function.comp_apply, Function.comp_apply, hcx, hdy]
  exact heq

/-- The copy of the object at an offset is found by it. -/
theorem addressOfCopy_eq (hm : a.HoldsMembers g r roots native members ref)
    (hslot : a.encoding.slotSize = runtime.slotSize)
    (hall : (a.plan runtime delta).Complete a.image cs) {c : Copy} (hc : c ∈ cs) :
    addressOfCopy cs c.span.offset = c.dest := by
  rw [addressOfCopy]
  split
  · rename_i d hd
    have heq := List.find?_some hd
    rw [decide_eq_true_eq] at heq
    rw [hm.eq_of_span_offset_eq hslot hall (List.mem_of_find?_eq_some hd) hc heq]
  · rename_i hnone
    have hne := List.find?_eq_none.mp hnone c hc
    rw [decide_eq_true_eq] at hne
    exact absurd rfl hne

/-- **Every member has a copy.** -/
theorem copy_of_member (hm : a.HoldsMembers g r roots native members ref)
    (hslot : a.encoding.slotSize = runtime.slotSize)
    (hall : (a.plan runtime delta).Complete a.image cs) {region : Region} {x : Placed}
    (hx : x ∈ members region) : ∃ c ∈ cs, c.region = region ∧ c.span = x.span runtime.slotSize ∧
      addressOfCopy cs x.offset = c.dest := by
  have hspan : x.span runtime.slotSize ∈ (members region).map (Placed.span runtime.slotSize) :=
    List.mem_map_of_mem hx
  rw [← hm.spans_eq hslot hall, List.mem_map] at hspan
  obtain ⟨c, hc, heq⟩ := hspan
  obtain ⟨hc, hregion⟩ := List.mem_filter.mp hc
  have haddress := hm.addressOfCopy_eq hslot hall hc
  rw [heq] at haddress
  exact ⟨c, hc, of_decide_eq_true hregion, heq, haddress⟩

/-! ## Marked places -/

/-- What a map marks in a copy, if it marks something in the members of its region. -/
theorem mem_places (hm : a.HoldsMembers g r roots native members ref)
    (hslot : a.encoding.slotSize = runtime.slotSize) {m : BitMap} {width : Nat}
    {Marked : Placed → Nat → Prop} {c : Copy} {x : Placed} (hwidth : 0 < width)
    (hword : width ∣ wordSize) (hx : x ∈ members c.region)
    (hspan : c.span = x.span runtime.slotSize)
    (hmarked : ∀ y ∈ members c.region, ∀ k, Marked y k →
      k + width ≤ y.member.size runtime.slotSize ∧ width ∣ k)
    (hmarks : ∀ i, m.contains i = true ↔ ∃ y ∈ members c.region, ∃ k, Marked y k ∧
      y.offset + k = (a.header.range c.region).bottom + i * width) {i : Nat} :
    i ∈ c.places m width (a.header.range c.region).bottom ↔
      ∃ k, Marked x k ∧ i = c.dest + k := by
  have hrow := hm.row c.region
  rw [hslot] at hrow
  obtain ⟨hle, -⟩ := hrow.bounds x hx
  obtain ⟨first, hfirst⟩ := Nat.dvd_trans hword
    ((hrow.dvd_sub fun y _ => y.member.wordSize_dvd_size runtime.slotSize).1 x hx)
  obtain ⟨count, hcount⟩ := Nat.dvd_trans hword (x.member.wordSize_dvd_size runtime.slotSize)
  have hfirst' : (x.offset - (a.header.range c.region).bottom) / width = first := by
    rw [hfirst, Nat.mul_div_cancel_left _ hwidth]
  have hcount' : x.member.size runtime.slotSize / width = count := by
    rw [hcount, Nat.mul_div_cancel_left _ hwidth]
  -- Bit `k` behind the first one of the copy is `k` widths behind its start.
  have hplace : ∀ k,
      (a.header.range c.region).bottom + (first + k) * width = x.offset + k * width := by
    intro k
    rw [Nat.add_mul, Nat.mul_comm first]
    omega
  rw [Copy.mem_places, hspan]
  change (∃ k, k < x.member.size runtime.slotSize / width ∧
    m.contains ((x.offset - (a.header.range c.region).bottom) / width + k) = true ∧
      i = c.dest + k * width) ↔ _
  rw [hfirst', hcount']
  constructor
  · rintro ⟨k, hk, hcontains, rfl⟩
    obtain ⟨y, hy, j, hj, heq⟩ := (hmarks _).mp hcontains
    rw [hplace] at heq
    obtain ⟨hjsize, -⟩ := hmarked y hy j hj
    have hin : k * width + width ≤ x.member.size runtime.slotSize := by
      rw [hcount, Nat.mul_comm width, ← Nat.succ_mul]
      exact Nat.mul_le_mul_right width hk
    rcases hrow.eq_or_apart hx hy with rfl | hxy | hyx
    · exact ⟨j, hj, by omega⟩
    · omega
    · omega
  · rintro ⟨j, hj, rfl⟩
    obtain ⟨hjsize, k, rfl⟩ := hmarked x hx j hj
    refine ⟨k, ?_, (hmarks _).mpr ⟨x, hx, _, hj, ?_⟩, by rw [Nat.mul_comm]⟩
    · apply Nat.lt_of_mul_lt_mul_left (a := width)
      omega
    · rw [hplace, Nat.mul_comm]

/-- The marked references of a copy are those of the member. -/
theorem mem_references (hm : a.HoldsMembers g r roots native members ref)
    (hslot : a.encoding.slotSize = runtime.slotSize) {c : Copy} {x : Placed}
    (hx : x ∈ members c.region) (hspan : c.span = x.span runtime.slotSize) {i : Nat} :
    i ∈ c.references (a.plan runtime delta) ↔
      ∃ k ∈ x.member.referenceOffsets runtime.slotSize, i = c.dest + k := by
  have hmarks := (hm.marks c.region).references
  rw [hslot] at hmarks
  rw [Copy.references, maps_plan]
  apply hm.mem_places hslot runtime.isSlotSize.pos runtime.isSlotSize.dvd_wordSize hx hspan _ hmarks
  intro y hy k hk
  obtain ⟨-, hstop, hdvd⟩ := (hm.of c.region y hy).bounds_of_referenceOffsets runtime.isSlotSize hk
  exact ⟨hstop, hdvd⟩

/-- The marked native pointers of a copy are those of the member into the native image. -/
theorem mem_natives (hm : a.HoldsMembers g r roots native members ref)
    (hslot : a.encoding.slotSize = runtime.slotSize) {c : Copy} {x : Placed}
    (hx : x ∈ members c.region) (hspan : c.span = x.span runtime.slotSize) {i : Nat} :
    i ∈ c.natives (a.plan runtime delta) ↔
      Placed.NativeAt [⟨x.member, c.dest⟩] runtime.slotSize native i := by
  have hmarks : ∀ i, (a.maps c.region).natives.contains i = true ↔
      ∃ y ∈ members c.region, ∃ k, (∃ d ∈ y.member.cells runtime.slotSize, ∃ v,
        d.value = .native v ∧ native.contains v.toNat = true ∧ d.offset = k) ∧
        y.offset + k = (a.header.range c.region).bottom + i * wordSize := by
    intro i
    rw [(hm.marks c.region).natives i, hslot]
    constructor
    · rintro ⟨y, hy, d, hd, v, hv, hin, heq⟩
      exact ⟨y, hy, d.offset, ⟨d, hd, v, hv, hin, rfl⟩, heq⟩
    · rintro ⟨y, hy, k, ⟨d, hd, v, hv, hin, rfl⟩, heq⟩
      exact ⟨y, hy, d, hd, v, hv, hin, heq⟩
  rw [Copy.natives, maps_plan]
  rw [show (a.plan runtime delta).bottom c.region = (a.header.range c.region).bottom from rfl]
  rw [hm.mem_places hslot (by decide) (Nat.dvd_refl _) hx hspan _ hmarks]
  · constructor
    · rintro ⟨k, ⟨d, hd, v, hv, hin, rfl⟩, rfl⟩
      exact ⟨_, List.mem_singleton.mpr rfl, d, hd, v, hv, hin, rfl⟩
    · rintro ⟨y, hy, d, hd, v, hv, hin, rfl⟩
      obtain rfl := List.mem_singleton.mp hy
      exact ⟨d.offset, ⟨d, hd, v, hv, hin, rfl⟩, rfl⟩
  · rintro y hy k ⟨d, hd, v, hv, -, rfl⟩
    obtain ⟨hwidth, hdvd⟩ := (hm.of c.region y hy).width_of_native runtime.isSlotSize hd hv
    have hbounds := ((hm.of c.region y hy).bounds runtime.isSlotSize hd).2
    rw [hwidth] at hbounds
    exact ⟨hbounds, hdvd⟩

end HoldsMembers

end Archive

end HeapImage
