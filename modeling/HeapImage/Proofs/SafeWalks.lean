import HeapImage.Proofs.ExactVerification
import HeapImage.Proofs.ReadableMemory

/-! # Walks through a verified heap

Verification goes through the objects of some extents from one to the next, and looks at each of
their references once. A walk goes from reference to reference instead, and reads every field on its
way. Where verification has accepted the extents, every walk from one of their objects comes to an
end and meets nothing but their objects.

* `VerifiedObject.of_walkAll`: what verification has seen.
* `SafeToWalk`, `Memory.Contiguous.safe_of_verifyHeap`: walks through contiguous memory.
* `safeToWalk_of_verifyHeap`: arenas and mapped images. -/

namespace HeapImage

variable {μ : Type} [Memory μ] {heap : μ} {types : TypeRegistry} {e : ReferenceEncoding}
variable {extents : List Extent} {report : VerifyReport}

/-! ## What verification has seen -/

namespace VerifiedObject

variable {o : VerifiedObject} {found : Array VerifiedObject}

/-- The same object as walks see it. -/
def view (o : VerifiedObject) : ObjectView := ⟨o.address, o.header, o.type⟩

/-- An object that verification finds is there for walks, too. -/
theorem atAddress_of_at? {a : Nat} (h : at? heap types a = .ok o) :
    ObjectView.atAddress heap types a = .ok o.view ∧
      o.type.kind.acceptsLength o.header.length = true := by
  obtain ⟨rfl, hfound⟩ := at?_eq_ok.mp h
  refine ⟨?_, hfound.accepts⟩
  rw [ObjectView.atAddress, Option.bind_eq_some_iff.mpr hfound.header]
  refine Except.bind_eq_ok.mpr ⟨o.type, TypeRegistry.require_eq_ok.mpr hfound.type, ?_⟩
  rw [if_pos hfound.accepts]
  rfl

/-- An object that is found has a header that can be read. -/
theorem isSome_read?_of_at? {a : Nat} (h : at? heap types a = .ok o) :
    (Memory.read? heap a headerSize).isSome = true := by
  obtain ⟨rfl, hfound⟩ := at?_eq_ok.mp h
  obtain ⟨bytes, hread, -⟩ := hfound.header
  rw [hread]
  rfl

/-- Every object that has been found is where it was found, inside one of the extents. -/
theorem of_walkAll {slot : Nat} (h : walkAll heap types slot extents = .ok found) :
    ∀ o ∈ found.toList, at? heap types o.address = .ok o ∧
      ∃ e ∈ extents, e.bottom ≤ o.address ∧ o.address + o.size slot ≤ e.top := by
  refine Except.foldlM_induction (fun done found => ∀ o ∈ found.toList,
    at? heap types o.address = .ok o ∧
      ∃ e ∈ done, e.bottom ≤ o.address ∧ o.address + o.size slot ≤ e.top) h ?_ ?_
  · exact fun o ho => absurd ho List.not_mem_nil
  · intro done e found found' _ hfound hwalk o ho
    obtain ⟨os, hrow, hlist⟩ := walkFrom_eq_ok.mp hwalk
    rw [hlist] at ho
    rcases List.mem_append.mp ho with ho | ho
    · obtain ⟨hat, e', he', hin⟩ := hfound o ho
      exact ⟨hat, e', List.mem_append_left _ he', hin⟩
    · exact ⟨hrow.found o ho, e, List.mem_append_right _ (List.mem_singleton.mpr rfl),
        hrow.tiles.bounds o ho⟩

/-- Fields lead to known addresses if all slots do. -/
theorem live_of_field {Live : Nat → Prop} {i b : Nat}
    (hleads : ∀ k, o.type.kind.FieldAt o.header.length e.slotSize .reference k →
      o.Leads heap e Live k)
    (hfield : o.view.field heap e i = .ok (.reference (some b))) : Live b := by
  -- A field that leads somewhere is one of the slots that have been checked.
  obtain ⟨k, hk, value, hread, hne, rfl⟩ := ObjectView.slot_of_field hfield
  obtain ⟨value', hread', hlive⟩ := hleads k (TypeKind.mem_referenceOffsets.mp hk)
  change Memory.readValue? heap (o.address + k) e.slotSize = some value at hread
  rw [hread', Option.some.injEq] at hread
  exact hread ▸ hlive (hread ▸ hne)

end VerifiedObject

/-! ## Walks -/

/-- Numbering never loses a key. -/
theorem Numbering.size_le_number (n : Numbering) (key : Nat) :
    n.keys.size ≤ (n.number key).2.keys.size := by
  rw [number]
  split
  · exact Nat.le_refl _
  · dsimp only
    rw [Array.size_push]
    exact Nat.le_succ _

namespace Snapshot

variable {v : ObjectView} {n i : Nat} {values values' : Array SnapshotValue}
variable {keys keys' : Numbering}

/-- An object with all its fields can be read. -/
theorem exists_readValues (hfield : ∀ i < v.length, ∃ value, v.field heap e i = .ok value)
    (hn : i + n ≤ v.length) (values : Array SnapshotValue) (keys : Numbering) :
    ∃ values' keys', readValues heap e v n i values keys = .ok (values', keys') := by
  induction n generalizing i values keys with
  | zero => exact ⟨values, keys, rfl⟩
  | succ n ih =>
    obtain ⟨value, hvalue⟩ := hfield i (by omega)
    rw [readValues, hvalue]
    cases value with
    | scalar | native | reference => exact ih (by omega) _ _

/-- Reading values never loses a key. -/
theorem size_le_of_readValues (h : readValues heap e v n i values keys = .ok (values', keys')) :
    keys.keys.size ≤ keys'.keys.size := by
  induction n generalizing i values keys with
  | zero =>
    cases h
    exact Nat.le_refl _
  | succ n ih =>
    rw [readValues] at h
    split at h
    · cases h
    · exact ih h
    · exact ih h
    · rename_i target _
      cases target with
      | none => exact ih h
      | some b => exact (keys.size_le_number b).trans (ih h)

end Snapshot

/-- Walks from the objects of some extents come to an end without a fault. They meet only objects of
the extents, each of them once, and no more than `limit` of them. -/
def SafeToWalk (heap : μ) (types : TypeRegistry) (e : ReferenceEncoding) (extents : List Extent)
    (limit : Nat) : Prop :=
  ∃ objects, VerifiedObject.walkAll heap types e.slotSize extents = .ok objects ∧
    ∀ o ∈ objects.toList, ∃ s visited,
      Snapshot.ofHeap heap types e o.address = .ok s ∧
      Snapshot.Explores (Snapshot.readAddress heap types e) (.start o.address) #[] visited
        s.nodes ∧
      s.size = visited.keys.size ∧ s.size ≤ limit ∧ visited.keys.toList.Nodup ∧
      ∀ a ∈ visited.keys.toList, ∃ p ∈ objects.toList, p.address = a ∧
        ∃ x ∈ extents, x.bottom ≤ a ∧ a + p.size e.slotSize ≤ x.top

namespace Memory.Contiguous

/-- Every object of the extents can be read with all its fields, and leads to objects of the
extents only. -/
theorem exists_readAddress (hmemory : Memory.Contiguous heap) {objects : List VerifiedObject}
    (hwhole : ∀ x ∈ extents, x.bottom < x.top →
      (Memory.read? heap x.bottom x.length).isSome = true)
    {o : VerifiedObject} (hat : VerifiedObject.at? heap types o.address = .ok o)
    (hin : ∃ x ∈ extents, x.bottom ≤ o.address ∧ o.address + o.size e.slotSize ≤ x.top)
    (hleads : ∀ k, o.type.kind.FieldAt o.header.length e.slotSize .reference k →
      o.Leads heap e (fun a => ∃ p ∈ objects, p.address = a) k)
    {keys : Numbering} (hkeys : keys.Among fun a => ∃ p ∈ objects, p.address = a) :
    ∃ node keys', Snapshot.readAddress heap types e o.address keys = .ok (node, keys') ∧
      keys'.Among (fun a => ∃ p ∈ objects, p.address = a) ∧
      keys.keys.size ≤ keys'.keys.size := by
  obtain ⟨hview, haccepts⟩ := VerifiedObject.atAddress_of_at? hat
  have hkind : o.view.type.kind.fault? = none := (ObjectView.of_atAddress hview).2
  obtain ⟨x, hx, hbottom, htop⟩ := hin
  have hpos := o.size_pos e.slotSize
  -- An extent that can be read as a whole can be read in any of its parts.
  have hreads : Memory.Readable heap o.address (o.size e.slotSize) := by
    refine (hmemory.readable _ _ (hwhole x hx (by omega))).part hbottom ?_
    rw [Extent.length]
    omega
  obtain ⟨values, keys', hvalues⟩ := Snapshot.exists_readValues
    (fun i hi => ObjectView.exists_field hkind haccepts hreads hi)
    (Nat.le_of_eq (Nat.zero_add o.view.length)) #[] keys
  refine ⟨⟨o.header.typeIndex, o.header.mark, values⟩, keys', ?_, ?_,
    Snapshot.size_le_of_readValues hvalues⟩
  · rw [Snapshot.readAddress]
    exact Except.bind_eq_ok.mpr ⟨o.view, hview, Except.bind_eq_ok.mpr ⟨_, hvalues, rfl⟩⟩
  · exact Snapshot.among_of_readValues (fun i b => VerifiedObject.live_of_field hleads) hkeys
      hvalues

/-- **Verified extents of contiguous memory** are safe to walk. -/
theorem safe_of_verifyHeap (hmemory : Memory.Contiguous heap)
    (hwhole : ∀ x ∈ extents, x.bottom < x.top →
      (Memory.read? heap x.bottom x.length).isSome = true)
    (hverify : verifyHeap heap types e extents = .ok report) :
    SafeToWalk heap types e extents report.objects := by
  obtain ⟨-, objects, hwalk, hleads, rfl⟩ := verifyHeap_eq_ok.mp hverify
  have hfound := VerifiedObject.of_walkAll hwalk
  refine ⟨objects, hwalk, ?_⟩
  intro o ho
  -- Keys are starts of objects, so there are no more of them than objects, nor than bytes.
  have hcount : ∀ n : Numbering, (n.Among fun a => ∃ p ∈ objects.toList, p.address = a) →
      n.keys.size ≤ objects.size ∧ n.keys.size ≤ Memory.extent heap := by
    intro n hn
    rw [← Array.length_toList]
    constructor
    · have hsubset : n.keys.toList ⊆ objects.toList.map VerifiedObject.address := by
        intro a ha
        obtain ⟨p, hp, rfl⟩ := hn.live a ha
        exact List.mem_map_of_mem hp
      have hle := (List.subperm_of_subset hn.sound.nodup hsubset).length_le
      rwa [List.length_map, Array.length_toList] at hle
    · refine hmemory.length_le _ hn.sound.nodup ?_
      intro a ha
      obtain ⟨p, hp, rfl⟩ := hn.live a ha
      exact ⟨headerSize, by decide, VerifiedObject.isSome_read?_of_at? (hfound p hp).1⟩
  have hstep : ∀ (n : Numbering) (nodes : Array SnapshotNode) key,
      ((n.Among fun a => ∃ p ∈ objects.toList, p.address = a) ∧ nodes.size ≤ n.keys.size) →
      n.keys.toList[nodes.size]? = some key → ∃ node m,
        Snapshot.readAddress heap types e key n = .ok (node, m) ∧
        (m.Among fun a => ∃ p ∈ objects.toList, p.address = a) ∧
        (nodes.push node).size ≤ m.keys.size := by
    rintro n nodes key ⟨hn, hnodes⟩ hkey
    obtain ⟨p, hp, rfl⟩ := hn.live key (List.mem_of_getElem? hkey)
    obtain ⟨node, m, hread, hm, hle⟩ := hmemory.exists_readAddress hwhole (hfound p hp).1
      (hfound p hp).2 (hleads p hp) hn
    have hlt := (List.getElem?_eq_some_iff.mp hkey).1
    rw [Array.length_toList] at hlt
    refine ⟨node, m, hread, hm, ?_⟩
    rw [Array.size_push]
    omega
  have hstart : ((Numbering.start o.address).Among fun a => ∃ p ∈ objects.toList, p.address = a) ∧
      (#[] : Array SnapshotNode).size ≤ (Numbering.start o.address).keys.size :=
    ⟨Numbering.among_start ⟨o, ho, rfl⟩, Nat.zero_le _⟩
  obtain ⟨visited, nodes, hexplores, ⟨hamong, -⟩, hsize⟩ := Snapshot.exists_explores
    (fun n nodes => (n.Among fun a => ∃ p ∈ objects.toList, p.address = a) ∧
      nodes.size ≤ n.keys.size) (fun n _ hn => ⟨hn.2, (hcount n hn.1).1⟩) hstep hstart
  obtain ⟨hobjects, hextent⟩ := hcount visited hamong
  refine ⟨⟨nodes⟩, visited, ?_, hexplores, hsize, ?_, hamong.sound.nodup, ?_⟩
  · rw [Snapshot.ofHeap, hexplores.explore_eq (by omega)]
    rfl
  · exact hsize.le.trans hobjects
  · intro a ha
    obtain ⟨p, hp, rfl⟩ := hamong.live a ha
    exact ⟨p, hp, rfl, (hfound p hp).2⟩

end Memory.Contiguous

/-- **A verified heap is safe to walk.** If verification accepts some extents of an arena or of a
mapped image, each of which can be read as a whole, then a walk from any object in them reads all
that it finds and comes to an end. It only visits starts of objects inside the extents, and finds no
more nodes than verification has reported objects. -/
theorem safeToWalk_of_verifyHeap (types : TypeRegistry) (e : ReferenceEncoding)
    (extents : List Extent) (report : VerifyReport) :
    (∀ heap : Arena, heap.Reachable →
      (∀ x ∈ extents, x.bottom < x.top →
        (Memory.read? heap x.bottom x.length).isSome = true) →
      verifyHeap heap types e extents = .ok report →
      SafeToWalk heap types e extents report.objects) ∧
    (∀ heap : MappedHeap,
      (∀ x ∈ extents, x.bottom < x.top →
        (Memory.read? heap x.bottom x.length).isSome = true) →
      verifyHeap heap types e extents = .ok report →
      SafeToWalk heap types e extents report.objects) := by
  constructor
  · intro heap hreachable hwhole hverify
    exact hreachable.wellFormed.contiguous.safe_of_verifyHeap hwhole hverify
  · intro heap hwhole hverify
    exact heap.contiguous.safe_of_verifyHeap hwhole hverify

/-- An object that refers to itself, in an arena and in a mapped image. -/
theorem safeToWalk_of_verifyHeap_loop :
    ∃ (bytes : ByteArray) (arena : Arena) (report : VerifyReport), arena.Reachable ∧
      verifyHeap arena .rootOnly .wide [⟨0x400000000, 0x400000018⟩] = .ok report ∧
      SafeToWalk arena .rootOnly .wide [⟨0x400000000, 0x400000018⟩] report.objects ∧
      verifyHeap (⟨0x400000000, bytes⟩ : MappedHeap) .rootOnly .wide
        [⟨0x400000000, 0x400000018⟩] = .ok report ∧
      SafeToWalk (⟨0x400000000, bytes⟩ : MappedHeap) .rootOnly .wide
        [⟨0x400000000, 0x400000018⟩] report.objects := by
  obtain ⟨bytes, hbytes⟩ : ∃ bytes, bytes =
      Bytes.ofList (Bytes.ofNat 8 7 ++ Bytes.ofNat 8 0x100000000 ++ Bytes.ofNat 8 0x400000000) :=
    ⟨_, rfl⟩
  obtain ⟨arena, harena⟩ : ∃ arena, arena =
      (Arena.standard.allocate ⟨.referenceArray, 0, 1, 24⟩).2.write 0x400000000 bytes := ⟨_, rfl⟩
  have hreachable : arena.Reachable := harena ▸ .write _ _ (.allocate _ .standard)
  obtain ⟨report, hreport, hone⟩ : ∃ report,
      verifyHeap arena .rootOnly .wide [⟨0x400000000, 0x400000018⟩] = .ok report ∧
        decide (report = ⟨1, 1, 0⟩) = true :=
    Except.exists_of_any (by rw [harena, hbytes]; decide +kernel)
  obtain ⟨report', hreport', hone'⟩ : ∃ report,
      verifyHeap (⟨0x400000000, bytes⟩ : MappedHeap) .rootOnly .wide
        [⟨0x400000000, 0x400000018⟩] = .ok report ∧ decide (report = ⟨1, 1, 0⟩) = true :=
    Except.exists_of_any (by rw [hbytes]; decide +kernel)
  obtain rfl : report' = report := (of_decide_eq_true hone').trans (of_decide_eq_true hone).symm
  refine ⟨bytes, arena, report', hreachable, hreport, ?_, hreport', ?_⟩
  · refine (safeToWalk_of_verifyHeap _ _ _ _).1 arena hreachable ?_ hreport
    refine List.forall_mem_singleton.mpr fun _ => ?_
    rw [harena, hbytes]
    decide +kernel
  · refine (safeToWalk_of_verifyHeap _ _ _ _).2 ⟨0x400000000, bytes⟩ ?_ hreport'
    refine List.forall_mem_singleton.mpr fun _ => ?_
    rw [hbytes]
    decide +kernel

end HeapImage
