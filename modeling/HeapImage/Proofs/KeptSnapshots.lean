import HeapImage.Proofs.CheckedWalks
import HeapImage.Proofs.KeptMemory
import HeapImage.Proofs.LoadedMembers

/-! # Snapshots of kept memory

A snapshot is read from memory and from nothing else. If every object that can be reached from its
root has been allocated, then it is the same in every heap that has kept this memory.

Nothing says that a root reaches no other memory: an image can come with references that its maps do
not mark, and a load takes them as they are. They may lead to bytes of a chunk that have not been
given to anyone yet, which read as zeros until they are.

* `Arena.Reaches`, `Arena.Encloses`: a root whose objects have all been allocated.
* `Arena.Keeps.readValue?_eq`, `Arena.Keeps.field_eq`: what is read from kept memory.
* `Snapshot.readValues_congr`, `Snapshot.among_of_readValues`: reading an object.
* `Arena.Keeps.ofHeap_eq`: snapshots of kept memory. -/

namespace HeapImage

/-! ## Reading -/

namespace ObjectView

variable {μ : Type} [Memory μ] {heap : μ} {types : TypeRegistry} {a : Nat} {v : ObjectView}

/-- An object is found where it is looked for, and its type is one that can be registered. -/
theorem of_atAddress (h : atAddress heap types a = .ok v) :
    v.address = a ∧ v.type.kind.fault? = none := by
  rw [atAddress] at h
  split at h
  · cases h
  · obtain ⟨type, htype, h⟩ := Except.bind_eq_ok.mp h
    have hmem := Array.mem_of_getElem? (TypeRegistry.require_eq_ok.mp htype)
    split at h
    · cases h
      exact ⟨rfl, types.supported type hmem⟩
    · cases h

/-- A field is read from its own bytes. -/
theorem fieldAt_congr {ν : Type} [Memory ν] {heap' : ν} {e : ReferenceEncoding} {kind : FieldKind}
    (h : valueAt heap' a (kind.width e.slotSize) = valueAt heap a (kind.width e.slotSize)) :
    fieldAt heap' e kind a = fieldAt heap e kind a := by
  cases kind with
  | scalar | native =>
    rw [FieldKind.width] at h
    rw [fieldAt, fieldAt, h]
  | reference =>
    rw [FieldKind.width] at h
    rw [fieldAt, fieldAt, referenceAt, referenceAt, h]

end ObjectView

namespace Arena

variable {h k : Arena} {a n : Nat} {types : TypeRegistry} {encoding : ReferenceEncoding}
variable {v : ObjectView} {root : Nat}

/-- Kept memory reads the same. -/
theorem Keeps.read?_eq (hk : h.Keeps k) (hw : h.WellFormed) (hh : h.Holds a n) (hn : 0 < n) :
    k.read? a n = h.read? a n := by
  obtain ⟨b, hb, hsize, hbytes⟩ := hh.read? hw hn
  obtain ⟨b', hb', hsize', hbytes'⟩ := (hk.holds a n hh).read? hk.wellFormed hn
  rw [hb, hb', Option.some.injEq]
  refine Bytes.ext_get (hsize'.trans hsize.symm) ?_
  intro i hi
  rw [hsize'] at hi
  rw [hbytes' i hi, hbytes i hi]
  exact hk.byte (a + i) (hh.part (by omega) (by omega))

/-- Numbers in kept memory are read as before. -/
theorem Keeps.readValue?_eq (hk : h.Keeps k) (hw : h.WellFormed) (hh : h.Holds a n) (hn : 0 < n) :
    Memory.readValue? k a n = Memory.readValue? h a n :=
  congrArg (Option.map fun b => Bytes.valueAt b 0 n) (hk.read?_eq hw hh hn)

/-- The object at an address whose header has been kept. -/
theorem Keeps.atAddress_eq (hk : h.Keeps k) (hw : h.WellFormed) (hh : h.Holds a headerSize) :
    ObjectView.atAddress k types a = ObjectView.atAddress h types a := by
  have hread : Memory.read? k a headerSize = Memory.read? h a headerSize :=
    hk.read?_eq hw hh (by decide)
  rw [ObjectView.atAddress, ObjectView.atAddress, hread]

/-- The fields of an object that has been kept. -/
theorem Keeps.field_eq (hk : h.Keeps k) (hw : h.WellFormed) (hkind : v.type.kind.fault? = none)
    (hh : h.Holds v.address (v.type.kind.objectSize v.header.length encoding.slotSize)) (i : Nat) :
    v.field k encoding i = v.field h encoding i := by
  have hslot := encoding.isSlotSize
  -- It is enough that the bytes of the object have been kept: each field lies among them.
  have hvalue : ∀ {offset len}, 0 < len →
      offset + len ≤ v.type.kind.objectSize v.header.length encoding.slotSize →
      ObjectView.valueAt k (v.address + offset) len =
        ObjectView.valueAt h (v.address + offset) len := by
    intro offset len hlen hstop
    rw [ObjectView.valueAt, ObjectView.valueAt,
      hk.readValue?_eq hw (hh.part (Nat.le_add_right ..) (by omega)) hlen]
  unfold ObjectView.field
  by_cases hi : v.length ≤ i
  · rw [if_pos hi, if_pos hi]
  rw [if_neg hi, if_neg hi]
  have hlt : i < v.header.length.toNat := Nat.not_le.mp hi
  cases hshape : v.type.kind with
  | record kinds =>
    rw [hshape] at hvalue
    dsimp only
    cases hfield : kinds[i]? with
    | none => rfl
    | some kind =>
      cases hoffset : (RecordLayout.compute kinds encoding.slotSize).offsets[i]? with
      | none => rfl
      | some offset =>
        have hmem : (kind, offset) ∈ kinds.zip
            (RecordLayout.fieldOffsets encoding.slotSize headerSize kinds) :=
          List.mem_of_getElem? (List.getElem?_zip_eq_some.mpr ⟨hfield, hoffset⟩)
        have hpos : 0 < kind.width encoding.slotSize := by
          cases kind with
          | scalar | native => exact (by decide : 0 < wordSize)
          | reference => exact hslot.pos
        exact ObjectView.fieldAt_congr (hvalue hpos (TypeKind.field_stop_le hslot hmem).2)
  | scalarArray size =>
    rw [hshape] at hkind hvalue
    dsimp only
    rw [hvalue (TypeKind.elementSize_pos hkind) (TypeKind.element_stop_le hlt)]
  | referenceArray =>
    rw [hshape] at hvalue
    dsimp only
    rw [ObjectView.referenceAt, ObjectView.referenceAt,
      hvalue hslot.pos (TypeKind.element_stop_le hlt)]

/-! ## What can be reached -/

/-- The addresses that a walk from a root can come to. -/
inductive Reaches (h : Arena) (types : TypeRegistry) (encoding : ReferenceEncoding) (root : Nat) :
    Nat → Prop
  | root : Reaches h types encoding root root
  | step {a b i : Nat} {v : ObjectView} : Reaches h types encoding root a →
    ObjectView.atAddress h types a = .ok v →
    v.field h encoding i = .ok (.reference (some b)) → Reaches h types encoding root b

/-- All that can be reached from a root has been allocated: the header at every address, and the
object that starts there if there is one. -/
def Encloses (h : Arena) (types : TypeRegistry) (encoding : ReferenceEncoding) (root : Nat) :
    Prop :=
  ∀ a, h.Reaches types encoding root a → h.Holds a headerSize ∧
    ∀ v, ObjectView.atAddress h types a = .ok v →
      h.Holds a (v.type.kind.objectSize v.header.length encoding.slotSize)

end Arena

/-! ## Walks -/

namespace Snapshot

variable {μ ν : Type} [Memory μ] [Memory ν] {heap : μ} {heap' : ν} {e : ReferenceEncoding}
variable {v : ObjectView} {Live : Nat → Prop}

/-- Fields that are the same are numbered the same. -/
theorem readValues_congr (hfield : ∀ i, v.field heap' e i = v.field heap e i) (n i : Nat)
    (values : Array SnapshotValue) (keys : Numbering) :
    readValues heap' e v n i values keys = readValues heap e v n i values keys := by
  induction n generalizing i values keys with
  | zero => rfl
  | succ n ih =>
    rw [readValues, readValues, hfield]
    split
    · rfl
    · exact ih ..
    · exact ih ..
    · exact ih ..

/-- Reading an object only finds what its references lead to. -/
theorem among_of_readValues (hlive : ∀ i b, v.field heap e i = .ok (.reference (some b)) → Live b)
    {n i : Nat} {values values' : Array SnapshotValue} {keys keys' : Numbering}
    (hkeys : keys.Among Live) (h : readValues heap e v n i values keys = .ok (values', keys')) :
    keys'.Among Live := by
  induction n generalizing i values keys with
  | zero =>
    cases h
    exact hkeys
  | succ n ih =>
    rw [readValues] at h
    split at h
    · cases h
    · exact ih hkeys h
    · exact ih hkeys h
    · rename_i target hfield
      refine ih ?_ h
      cases target with
      | none => exact hkeys
      | some b => exact hkeys.number (hlive i b hfield)

end Snapshot

/-! ## Snapshots -/

namespace Arena

variable {h k : Arena} {types : TypeRegistry} {encoding : ReferenceEncoding} {root a : Nat}

/-- The node at an address of kept memory. -/
theorem Keeps.readAddress_eq (hk : h.Keeps k) (hw : h.WellFormed)
    (hh : h.Encloses types encoding root) (ha : h.Reaches types encoding root a)
    (keys : Numbering) :
    Snapshot.readAddress k types encoding a keys =
      Snapshot.readAddress h types encoding a keys := by
  obtain ⟨hheader, hobject⟩ := hh a ha
  rw [Snapshot.readAddress, Snapshot.readAddress, hk.atAddress_eq hw hheader]
  cases hview : ObjectView.atAddress h types a with
  | error e => rfl
  | ok v =>
    obtain ⟨rfl, hkind⟩ := ObjectView.of_atAddress hview
    have hvalues := Snapshot.readValues_congr (hk.field_eq hw hkind (hobject v hview)) v.length 0
      #[] keys
    exact congrArg (fun r => r >>= fun p => pure (SnapshotNode.mk v.header.typeIndex v.header.mark
      p.1, p.2)) hvalues

/-- Reading a node only finds what can be reached. -/
theorem among_of_readAddress (ha : h.Reaches types encoding root a) {keys keys' : Numbering}
    {node : SnapshotNode} (hkeys : keys.Among (h.Reaches types encoding root))
    (hread : Snapshot.readAddress h types encoding a keys = .ok (node, keys')) :
    keys'.Among (h.Reaches types encoding root) := by
  obtain ⟨v, hview, hread⟩ := Except.bind_eq_ok.mp hread
  obtain ⟨⟨values, m⟩, hvalues, hread⟩ := Except.bind_eq_ok.mp hread
  cases hread
  exact Snapshot.among_of_readValues (fun i b hfield => .step ha hview hfield) hkeys hvalues

/-- No more can be reached than there are bytes. -/
theorem Encloses.length_le (hh : h.Encloses types encoding root) (hk : h.Keeps k)
    {keys : List Nat} (hnodup : keys.Nodup)
    (hlive : ∀ key ∈ keys, h.Reaches types encoding root key) : keys.length ≤ k.extent :=
  length_le_extent hnodup (fun a ha => ⟨headerSize, by decide,
    hk.holds a headerSize (hh a (hlive a ha)).1⟩) hk.wellFormed

/-- **Snapshots of kept memory** are the same. -/
theorem Keeps.ofHeap_eq (hk : h.Keeps k) (hw : h.WellFormed)
    (hh : h.Encloses types encoding root) :
    Snapshot.ofHeap k types encoding root = Snapshot.ofHeap h types encoding root := by
  have hextent : ∀ {l : Arena}, Memory.extent l = l.extent := rfl
  -- Both walks may go on until they have been at as many addresses as either heap has bytes.
  have hbound : ∀ keys : List Nat, keys.Nodup →
      (∀ key ∈ keys, h.Reaches types encoding root key) →
      keys.length ≤ min h.extent k.extent := by
    intro keys hnodup hlive
    exact Nat.le_min.mpr ⟨hh.length_le (.refl hw) hnodup hlive, hh.length_le hk hnodup hlive⟩
  have hnodes : Snapshot.explore (Snapshot.readAddress k types encoding) (Memory.extent k + 1)
        (.start root) #[] =
      Snapshot.explore (Snapshot.readAddress h types encoding) (Memory.extent h + 1)
        (.start root) #[] := by
    refine Snapshot.explore_congr _ hbound ?_ ?_ (Numbering.among_start .root) (Nat.zero_le _) ?_ ?_
    · exact fun a keys ha => hk.readAddress_eq hw hh ha keys
    · exact fun a keys node m ha hkeys hread => among_of_readAddress ha hkeys hread
    · rw [hextent]
      exact Nat.lt_succ_of_le (Nat.min_le_left ..)
    · rw [hextent]
      exact Nat.lt_succ_of_le (Nat.min_le_right ..)
  rw [Snapshot.ofHeap, Snapshot.ofHeap, hnodes]

end Arena

/-! ## Members -/

/-- The object at a member's address has the size of the member. -/
theorem Placed.objectSize_view (x : Placed) (slot : Nat) :
    x.view.type.kind.objectSize x.view.header.length slot = x.member.size slot := rfl

/-- From a member only members can be reached. -/
theorem Presents.exists_of_reaches {heap : Arena} {e : ReferenceEncoding} {g : ObjectGraph}
    {r : TypeRegistry} {roots : List ObjectId} {native : UInt64 → UInt64} {xs : List Placed}
    {ref : ObjectId → Nat} {x : Placed} {a : Nat}
    (h : Presents heap e g r roots native xs ref) (hx : x ∈ xs)
    (ha : heap.Reaches r e x.offset a) : ∃ y ∈ xs, y.offset = a := by
  obtain ⟨v, hv⟩ := h.shows
  induction ha with
  | root => exact ⟨x, hx, rfl⟩
  | @step _ b i w _ hview hfield ih =>
    obtain ⟨y, hy, rfl⟩ := ih
    obtain ⟨hheld, hshows⟩ := hv y hy
    have hof := h.of y hy
    rw [Placed.atAddress_eq hof hheld hshows, Except.ok.injEq] at hview
    subst hview
    have hlength : y.view.length = (y.member.cells e.slotSize).length := by
      rw [Placed.length_cells]
      exact SourceObject.toNat_length hof.length_lt
    have hi : i < y.view.length := by
      rw [ObjectView.field] at hfield
      split at hfield
      · cases hfield
      · rename_i hlt
        exact Nat.not_le.mp hlt
    obtain ⟨c, hcell⟩ : ∃ c, (y.member.cells e.slotSize)[i]? = some c :=
      ⟨_, List.getElem?_eq_getElem (hlength ▸ hi)⟩
    -- A field that leads somewhere shows a cell of the member, which refers to another member.
    rw [Placed.field_eq hof hheld hshows (fun c hc j hj => h.ref_ne_zero hy hc hj) hcell] at hfield
    cases hvalue : c.value with
    | scalar | native =>
      rw [hvalue] at hfield
      cases hfield
    | reference target =>
      cases target with
      | none =>
        rw [hvalue] at hfield
        cases hfield
      | some j =>
        obtain ⟨z, hz, -, -, hdecode⟩ :=
          h.referents y hy c (List.mem_of_getElem? hcell) j hvalue
        rw [hvalue] at hfield
        cases hfield
        exact ⟨z, hz, hdecode.symm⟩

/-- **What a dump loads** lies in allocated memory: nothing else can be reached from the root. -/
theorem Archive.HoldsMembers.encloses_of_copyImage {a : Archive} {g : ObjectGraph}
    {r : TypeRegistry} {roots : List ObjectId} {native : Extent} {members : Region → List Placed}
    {ref : ObjectId → Nat} {runtime : ReferenceEncoding} {delta : UInt64} {h h' : Arena}
    {o : CopiedObjects} (hm : a.HoldsMembers g r roots native members ref) (hw : h.WellFormed)
    (hcopy : copyImage a h runtime delta = (.ok o, h')) (haddress : h'.Addressable) :
    h'.Encloses o.types o.encoding o.root := by
  obtain ⟨-, htypes, hencoding, -⟩ := of_copyImage hcopy
  obtain ⟨hslot, cs, hloads⟩ := hm.exists_loads hw hcopy haddress
  have hpresents := hm.presents_of_loads hslot hloads
  obtain ⟨x, hx, -, hroot⟩ := hm.root_of_loads hslot hloads
  rw [htypes, hm.types, hencoding, ← hroot]
  intro p hp
  obtain ⟨y, hy, rfl⟩ := hpresents.exists_of_reaches hx hp
  obtain ⟨v, hv⟩ := hpresents.shows
  obtain ⟨hheld, hshows⟩ := hv y hy
  -- Each member is where its copy is, and that has been allocated as a whole.
  have hholds : h'.Holds y.offset (y.member.size runtime.slotSize) := by
    obtain ⟨region, z, hz, rfl⟩ := mem_moved.mp hy
    obtain ⟨d, hd, -, hspan, hplace⟩ := hm.copy_of_member hslot hloads.all hz
    have hcopied := hloads.holds d hd
    rw [hspan, ← hplace] at hcopied
    exact hcopied
  refine ⟨hholds.part (Nat.le_refl _)
    (Nat.add_le_add_left (y.member.headerSize_le_size _) _), ?_⟩
  intro w hview
  rw [Placed.atAddress_eq (hpresents.of y hy) hheld hshows, Except.ok.injEq] at hview
  rw [← hview, Placed.objectSize_view]
  exact hholds

end HeapImage
