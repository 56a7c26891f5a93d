import HeapImage.Proofs.ImageLayout

/-! # Selections that can be linked

Linking looks up every referent before it writes anything. It succeeds exactly if what has been
staged is closed under references, and then it fills all reference slots and touches nothing else.
Otherwise it leaves the buffer as it is.

* `SourceObject.RefersAt`, `SourceObject.PlainAt`: where the references of an object are, and where
  its header, its scalars and its native pointers are.
* `StagingBuffer.Reachable`, `StagingBuffer.Reachable.stocks`: buffers that calls lead to.
* `StagingBuffer.Closed`, `StagingBuffer.Stocks.closed_iff`: everything referred to is staged.
* `StagingBuffer.Filled`, `StagingBuffer.Stocks.filled`: what linking makes of a buffer.
* `StagingBuffer.link_iff_closed`: linking is exact, and all or nothing. -/

namespace HeapImage

/-! ## Places in an object -/

/-- The fields of a record and their offsets are its cells. -/
theorem exists_fieldCell {slot start k : Nat} {vs : List FieldValue} {v : FieldValue} :
    (∃ i : Nat, vs[i]? = some v ∧
        (RecordLayout.fieldOffsets slot start (vs.map FieldValue.kind))[i]? = some k) ↔
      ∃ c ∈ fieldCells slot start vs, c.offset = k ∧ c.value = v := by
  have hvalue : ∀ i : Nat, vs[i]? = ((fieldCells slot start vs)[i]?).map Cell.value := by
    intro i
    rw [← List.getElem?_map, values_fieldCells]
  rw [fieldOffsets_eq]
  constructor
  · rintro ⟨i, hv, hk⟩
    rw [List.getElem?_map, Option.map_eq_some_iff] at hk
    obtain ⟨c, hc, rfl⟩ := hk
    rw [hvalue, hc] at hv
    exact ⟨c, List.mem_of_getElem? hc, rfl, Option.some.inj hv⟩
  · rintro ⟨c, hc, rfl, rfl⟩
    obtain ⟨i, hi⟩ := List.mem_iff_getElem?.mp hc
    refine ⟨i, ?_, ?_⟩
    · rw [hvalue, hi]
      rfl
    · rw [List.getElem?_map, hi]
      rfl

/-- The elements of an array are its cells. -/
theorem exists_elementCell {width start k : Nat} {vs : List FieldValue} {v : FieldValue} :
    (∃ i : Nat, vs[i]? = some v ∧ start + i * width = k) ↔
      ∃ c ∈ elementCells width start vs, c.offset = k ∧ c.value = v := by
  constructor
  · rintro ⟨i, hv, rfl⟩
    refine ⟨⟨start + i * width, width, v⟩, ?_, rfl, rfl⟩
    rw [elementCells_eq, List.mem_map]
    exact ⟨(v, i), List.mem_zipIdx_iff_getElem?.mpr hv, rfl⟩
  · rintro ⟨c, hc, rfl, rfl⟩
    obtain ⟨i, hi⟩ := List.mem_iff_getElem?.mp hc
    obtain ⟨hoffset, -, hv⟩ := getElem?_elementCells hi
    exact ⟨i, hv, hoffset.symm⟩

namespace SourceObject

variable {o : SourceObject} {kind : TypeKind} {slot k n : Nat} {target : Option ObjectId}

/-- An object of some kind has a reference slot at an offset, and this is what the graph has for it.
-/
inductive RefersAt (slot : Nat) (o : SourceObject) (kind : TypeKind) :
    Nat → Option ObjectId → Prop
  | field {values : List FieldValue} {layout : RecordLayout} {i k : Nat}
    {target : Option ObjectId} : o.payload = .fields values → kind.layout? slot = some layout →
    values[i]? = some (.reference target) → layout.offsets[i]? = some k →
    RefersAt slot o kind k target
  | element {targets : List (Option ObjectId)} {i : Nat} {target : Option ObjectId} :
    o.payload = .references targets → targets[i]? = some target →
    RefersAt slot o kind (headerSize + i * slot) target

/-- Some bytes of an object of some kind, given by offset and number, are its header, or a scalar or
a native pointer. -/
inductive PlainAt (slot : Nat) (o : SourceObject) (kind : TypeKind) : Nat → Nat → Prop
  | header : PlainAt slot o kind 0 headerSize
  | field {values : List FieldValue} {layout : RecordLayout} {i k : Nat} {value : FieldValue} :
    o.payload = .fields values → kind.layout? slot = some layout → values[i]? = some value →
    value.kind ≠ .reference → layout.offsets[i]? = some k → PlainAt slot o kind k wordSize
  | element {values : List UInt64} {size i : Nat} : o.payload = .scalars values →
    kind = .scalarArray size → i < values.length →
    PlainAt slot o kind (headerSize + i * size) size

/-- The reference slots of an object are its cells with references. -/
theorem refersAt_iff (hslot : IsSlotSize slot) (hfits : o.Fits kind) :
    o.RefersAt slot kind k target ↔
      ∃ c ∈ o.cells kind slot, c.offset = k ∧ c.value = .reference target := by
  -- The kind decides which payload there is, and only one constructor is about this payload.
  cases kind with
  | record kinds =>
    obtain ⟨values, hpayload, rfl⟩ := hfits
    rw [cells, hpayload, Payload.values, ← exists_fieldCell]
    constructor
    · rintro (⟨hvalues, hlayout, hv, hk⟩ | ⟨htargets, -⟩)
      · obtain rfl := Option.some.inj hlayout
        obtain rfl := Payload.fields.inj (hpayload.symm.trans hvalues)
        rw [RecordLayout.compute, hslot.slotWidth_eq] at hk
        exact ⟨_, hv, hk⟩
      · cases hpayload.symm.trans htargets
    · rintro ⟨i, hv, hk⟩
      refine .field hpayload rfl hv ?_
      rw [RecordLayout.compute, hslot.slotWidth_eq]
      exact hk
  | scalarArray size =>
    obtain ⟨values, hpayload, -⟩ := hfits
    rw [cells, hpayload, Payload.values, ← exists_elementCell]
    constructor
    · rintro (⟨hvalues, -⟩ | ⟨htargets, -⟩)
      · cases hpayload.symm.trans hvalues
      · cases hpayload.symm.trans htargets
    · rintro ⟨i, hv, -⟩
      rw [List.getElem?_map, Option.map_eq_some_iff] at hv
      obtain ⟨x, -, hx⟩ := hv
      cases hx
  | referenceArray =>
    obtain ⟨targets, hpayload⟩ := hfits
    rw [cells, hpayload, Payload.values, ← exists_elementCell]
    constructor
    · rintro (⟨hvalues, -⟩ | ⟨htargets, hv⟩)
      · cases hpayload.symm.trans hvalues
      · obtain rfl := Payload.references.inj (hpayload.symm.trans htargets)
        exact ⟨_, by rw [List.getElem?_map, hv]; rfl, rfl⟩
    · rintro ⟨i, hv, rfl⟩
      rw [List.getElem?_map, Option.map_eq_some_iff] at hv
      obtain ⟨target, htarget, hv⟩ := hv
      cases hv
      exact .element hpayload htarget

/-- What is plain in an object is its header or one of its other cells. -/
theorem PlainAt.cases_cell (hslot : IsSlotSize slot) (hfits : o.Fits kind)
    (h : o.PlainAt slot kind k n) : (k = 0 ∧ n = headerSize) ∨
      ∃ c ∈ o.cells kind slot, c.offset = k ∧ c.width = n ∧ c.value.kind ≠ .reference := by
  cases h with
  | header => exact .inl ⟨rfl, rfl⟩
  | @field values layout i k value hvalues hlayout hv hkind hk =>
    refine .inr ?_
    cases kind with
    | record kinds =>
      obtain ⟨values', hpayload, rfl⟩ := hfits
      obtain rfl := Payload.fields.inj (hpayload.symm.trans hvalues)
      obtain rfl := Option.some.inj hlayout
      rw [RecordLayout.compute, hslot.slotWidth_eq] at hk
      obtain ⟨c, hc, hoffset, rfl⟩ := exists_fieldCell.mp ⟨i, hv, hk⟩
      refine ⟨c, ?_, hoffset, ?_, hkind⟩
      · rw [cells, hpayload]
        exact hc
      · rw [(aligned_of_mem_fieldCells hslot hc).1]
        cases hvalue : c.value with
        | reference target => exact absurd (congrArg FieldValue.kind hvalue) hkind
        | scalar x | native x => rfl
    | scalarArray size => cases hlayout
    | referenceArray => cases hlayout
  | @element values size i hvalues hkind hi =>
    -- Only arrays of scalars have plain elements.
    subst hkind
    have hscalar : (values.map FieldValue.scalar)[i]? = some (.scalar values[i]) := by
      rw [List.getElem?_map, List.getElem?_eq_getElem hi]
      rfl
    obtain ⟨c, hc, hoffset, hvalue⟩ := exists_elementCell.mp ⟨i, hscalar, rfl⟩
    refine .inr ⟨c, ?_, hoffset, width_of_mem_elementCells hc, ?_⟩
    · rw [cells, hvalues]
      exact hc
    · rw [hvalue]
      exact FieldKind.noConfusion

end SourceObject

/-- The graph has the object and the type of a member. -/
theorem Member.Of.resolve_eq_ok {m : Member} {g : ObjectGraph} {r : TypeRegistry}
    {roots : List ObjectId} (h : m.Of g r roots) {id : ObjectId} (hid : m.id = some id)
    {source : SourceObject} {type : TypeInfo} :
    g.resolve r id = .ok (source, type) ↔ source = m.object ∧ type = m.type := by
  rw [ObjectGraph.resolve_eq_ok, h.object id hid, Option.some.injEq]
  constructor
  · rintro ⟨rfl, htype⟩
    exact ⟨rfl, Option.some.inj (htype.symm.trans h.type)⟩
  · rintro ⟨rfl, rfl⟩
    exact ⟨rfl, h.type⟩

namespace StagingBuffer

variable {s t : StagingBuffer} {g : ObjectGraph} {r : TypeRegistry} {roots : List ObjectId}
variable {ref : ObjectId → Nat} {xs : List Placed} {p n : Nat} {target : Option ObjectId}

/-! ## Buffers -/

/-- A buffer that calls over one graph lead to. A call that fails leaves the buffer as it is. -/
inductive Reachable (g : ObjectGraph) (r : TypeRegistry) : StagingBuffer → Prop
  | empty (capacity slotSize alignment : Nat) : Reachable g r (empty capacity slotSize alignment)
  | allocate {s t : StagingBuffer} {id : ObjectId} {region : Region} {p : Nat} :
    Reachable g r s → s.allocate? g r id region = .ok (p, t) → Reachable g r t
  | allocateRoots {s t : StagingBuffer} {roots : List ObjectId} {p : Nat} :
    Reachable g r s → s.allocateRoots? roots = .ok (p, t) → Reachable g r t

/-- **Reachable buffers** hold members, and nothing in place of references yet. -/
theorem Reachable.stocks (h : Reachable g r s) (hslot : IsSlotSize s.slotSize) :
    ∃ roots xs, s.Stocks g r roots (fun _ => 0) xs := by
  induction h with
  | empty capacity slotSize alignment => exact ⟨[], [], stocks_empty ..⟩
  | allocate _ hcall ih =>
    rw [allocate?, Except.bind_eq_ok] at hcall
    obtain ⟨object, hprepare, hcall⟩ := hcall
    obtain ⟨rfl, rfl⟩ := Prod.mk.inj (Except.pure_eq_ok.mp hcall)
    obtain ⟨roots, xs, hs⟩ := ih hslot
    obtain ⟨x, -, -, hpush⟩ := hs.push hslot hprepare _
    exact ⟨roots, xs ++ [x], hpush⟩
  | allocateRoots _ hcall ih =>
    rw [allocateRoots?, Except.bind_eq_ok] at hcall
    obtain ⟨array, hprepare, hcall⟩ := hcall
    obtain ⟨rfl, rfl⟩ := Prod.mk.inj (Except.pure_eq_ok.mp hcall)
    obtain ⟨roots, xs, hs⟩ := ih hslot
    obtain ⟨x, -, hpush⟩ := hs.pushRoots hslot hprepare
    exact ⟨_, xs ++ [x], hpush⟩

/-- An object of the graph is staged at an offset. -/
def Holds (s : StagingBuffer) (id : ObjectId) (p : Nat) : Prop :=
  ∃ o ∈ s.objects.toList, o.source = id ∧ o.slot = p

/-- Every object that something staged refers to is staged itself. -/
structure Closed (s : StagingBuffer) (g : ObjectGraph) : Prop where
  referents : ∀ o ∈ s.objects.toList, ∃ source, g.get? o.source = some source ∧
    ∀ id ∈ source.payload.referents, ∃ p, s.Holds id p
  roots : ∀ root, s.roots = some root → ∀ id ∈ root.roots, ∃ p, s.Holds id p

/-- There is a reference slot at an offset of the buffer, and this is what has to be in it: what the
graph has for a field or an element of a staged object, or an element of the root array. -/
inductive SlotAt (s : StagingBuffer) (g : ObjectGraph) (r : TypeRegistry) :
    Nat → Option ObjectId → Prop
  | object {o : StagedObject} {source : SourceObject} {type : TypeInfo} {k : Nat}
    {target : Option ObjectId} : o ∈ s.objects.toList → g.resolve r o.source = .ok (source, type) →
    source.RefersAt s.slotSize type.kind k target → SlotAt s g r (o.slot + k) target
  | root {root : StagedRoots} {i : Nat} {id : ObjectId} : s.roots = some root →
    root.roots[i]? = some id → SlotAt s g r (root.slot + (headerSize + i * s.slotSize)) (some id)

/-- Some bytes of the buffer, given by offset and number, are the header of something staged, or a
scalar or a native pointer. -/
inductive PlainAt (s : StagingBuffer) (g : ObjectGraph) (r : TypeRegistry) : Nat → Nat → Prop
  | object {o : StagedObject} {source : SourceObject} {type : TypeInfo} {k n : Nat} :
    o ∈ s.objects.toList → g.resolve r o.source = .ok (source, type) →
    source.PlainAt s.slotSize type.kind k n → PlainAt s g r (o.slot + k) n
  | root {root : StagedRoots} : s.roots = some root → PlainAt s g r root.slot headerSize

/-- `t` is the buffer `s` with its references filled in: slots for null hold zero, all others an
identity that stands for the place of the referent and for no other, and everything else is as it
was. -/
structure Filled (s t : StagingBuffer) (g : ObjectGraph) (r : TypeRegistry) : Prop where
  frame : t = { s with bytes := t.bytes }
  size : t.size = s.size
  null : ∀ p, s.SlotAt g r p none → Bytes.valueAt t.bytes p s.slotSize = 0
  referent : ∀ p id, s.SlotAt g r p (some id) →
    ∃ q, slotOfIdentity? (Bytes.valueAt t.bytes p s.slotSize) = some q ∧
      ∀ q', s.Holds id q' ↔ q' = q
  plain : ∀ p n, s.PlainAt g r p n → ∀ k < n, Bytes.get t.bytes (p + k) = Bytes.get s.bytes (p + k)
  outside : ∀ j, (∀ p target, s.SlotAt g r p target → j < p ∨ p + s.slotSize ≤ j) →
    Bytes.get t.bytes j = Bytes.get s.bytes j

/-! ## Members -/

/-- What is staged is a member. -/
theorem Stages.exists_member (h : s.Stages g r roots ref xs) {o : StagedObject}
    (ho : o ∈ s.objects.toList) : ∃ x ∈ xs, x.member.id = some o.source ∧ x.offset = o.slot := by
  rw [h.objects] at ho
  obtain ⟨x, hx, hstaged⟩ := List.mem_filterMap.mp ho
  rw [stagedOf, Option.map_eq_some_iff] at hstaged
  obtain ⟨id, hid, rfl⟩ := hstaged
  exact ⟨x, hx, hid, rfl⟩

/-- A member that is an object of the graph is staged. -/
theorem Stages.exists_staged (h : s.Stages g r roots ref xs) {x : Placed} (hx : x ∈ xs)
    {id : ObjectId} (hid : x.member.id = some id) :
    ∃ o ∈ s.objects.toList, o.source = id ∧ o.slot = x.offset := by
  refine ⟨⟨id, x.member.region, x.offset, x.member.size s.slotSize⟩, ?_, rfl, rfl⟩
  rw [h.objects]
  refine List.mem_filterMap.mpr ⟨x, hx, ?_⟩
  rw [stagedOf, hid, Option.map_some]

/-- The table of places says where objects are staged. -/
theorem Stages.holds_iff (h : s.Stages g r roots ref xs) {id : ObjectId} :
    s.Holds id p ↔ s.slotOf? id = some p := by
  rw [h.slotOf]
  constructor
  · rintro ⟨o, ho, rfl, rfl⟩
    exact h.exists_member ho
  · rintro ⟨x, hx, hid, rfl⟩
    exact h.exists_staged hx hid

namespace Stocks

/-- The reference slots of a buffer are the cells of its members that hold references. -/
theorem slotAt_iff (h : s.Stocks g r roots ref xs) (hslot : IsSlotSize s.slotSize) :
    s.SlotAt g r p target ↔ ∃ x ∈ xs, ∃ c ∈ x.member.cells s.slotSize,
      c.value = .reference target ∧ x.offset + c.offset = p := by
  constructor
  · rintro (⟨ho, hresolve, hrefers⟩ | ⟨hroot, hi⟩)
    · obtain ⟨x, hx, hid, hoffset⟩ := h.stages.exists_member ho
      obtain ⟨rfl, rfl⟩ := ((h.stages.of x hx).resolve_eq_ok hid).mp hresolve
      obtain ⟨c, hc, rfl, hv⟩ :=
        (SourceObject.refersAt_iff hslot (h.stages.of x hx).fits).mp hrefers
      exact ⟨x, hx, c, hc, hv, by rw [hoffset]⟩
    · obtain ⟨x, hx, hid, rfl⟩ := h.rooted _ hroot
      exact ⟨x, hx, _, (mem_cells_root (h.stages.of x hx) hid).mpr
        ⟨_, _, List.mem_zipIdx_iff_getElem?.mpr hi, rfl⟩, rfl, rfl⟩
  · rintro ⟨x, hx, c, hc, hv, rfl⟩
    -- A member is an object of the graph or the root array.
    cases hid : x.member.id with
    | some id =>
      obtain ⟨o, ho, rfl, hoffset⟩ := h.stages.exists_staged hx hid
      rw [← hoffset]
      exact .object ho (((h.stages.of x hx).resolve_eq_ok hid).mpr ⟨rfl, rfl⟩)
        ((SourceObject.refersAt_iff hslot (h.stages.of x hx).fits).mpr ⟨c, hc, rfl, hv⟩)
    | none =>
      obtain ⟨id, i, hmem, rfl⟩ := (mem_cells_root (h.stages.of x hx) hid).mp hc
      cases hv
      exact .root (h.roots_eq hx hid) (List.mem_zipIdx_iff_getElem?.mp hmem)

/-- What is plain in a buffer is the header or another cell of a member. -/
theorem cases_of_plainAt (h : s.Stocks g r roots ref xs) (hslot : IsSlotSize s.slotSize)
    (hplain : s.PlainAt g r p n) : ∃ x ∈ xs, (p = x.offset ∧ n = headerSize) ∨
      ∃ c ∈ x.member.cells s.slotSize, p = x.offset + c.offset ∧ n = c.width ∧
        c.value.kind ≠ .reference := by
  cases hplain with
  | object ho hresolve hplain =>
    obtain ⟨x, hx, hid, hoffset⟩ := h.stages.exists_member ho
    obtain ⟨rfl, rfl⟩ := ((h.stages.of x hx).resolve_eq_ok hid).mp hresolve
    refine ⟨x, hx, ?_⟩
    rcases hplain.cases_cell hslot (h.stages.of x hx).fits with ⟨rfl, rfl⟩ | ⟨c, hc, rfl, rfl, hv⟩
    · exact .inl ⟨hoffset.symm, rfl⟩
    · exact .inr ⟨c, hc, by rw [hoffset], rfl, hv⟩
  | root hroot =>
    obtain ⟨x, hx, -, rfl⟩ := h.rooted _ hroot
    exact ⟨x, hx, .inl ⟨rfl, rfl⟩⟩

/-- **A buffer is closed** if all reference slots of its members have staged referents. -/
theorem closed_iff (h : s.Stocks g r roots ref xs) : s.Closed g ↔
    ∀ y ∈ xs, ∀ c ∈ y.member.cells s.slotSize, ∀ id, c.value = .reference (some id) →
      ∃ p, s.slotOf? id = some p := by
  -- What an object of the graph refers to is what its cells refer to.
  have hreferents : ∀ {x : Placed} {id : ObjectId}, id ∈ x.member.object.payload.referents ↔
      ∃ c ∈ x.member.cells s.slotSize, c.value = .reference (some id) := by
    intro x id
    rw [Payload.mem_referents, Member.cells, ← SourceObject.values_cells _ x.member.type.kind
      s.slotSize, List.mem_map]
  simp only [← h.stages.holds_iff]
  constructor
  · intro hclosed y hy c hc id hv
    cases hid : y.member.id with
    | some source =>
      obtain ⟨o, ho, rfl, -⟩ := h.stages.exists_staged hy hid
      obtain ⟨object, hobject, hall⟩ := hclosed.referents o ho
      obtain rfl := Option.some.inj (((h.stages.of y hy).object _ hid).symm.trans hobject)
      exact hall id (hreferents.mpr ⟨c, hc, hv⟩)
    | none =>
      obtain ⟨id', i, hmem, rfl⟩ := (mem_cells_root (h.stages.of y hy) hid).mp hc
      cases hv
      exact hclosed.roots _ (h.roots_eq hy hid) id
        (List.mem_of_getElem? (List.mem_zipIdx_iff_getElem?.mp hmem))
  · intro hall
    constructor
    · intro o ho
      obtain ⟨x, hx, hid, -⟩ := h.stages.exists_member ho
      refine ⟨_, (h.stages.of x hx).object _ hid, fun id hreferent => ?_⟩
      obtain ⟨c, hc, hv⟩ := hreferents.mp hreferent
      exact hall x hx c hc id hv
    · intro root hroot id hlisted
      obtain ⟨x, hx, hid, rfl⟩ := h.rooted root hroot
      obtain ⟨i, hi⟩ := List.mem_iff_getElem?.mp hlisted
      exact hall x hx _ ((mem_cells_root (h.stages.of x hx) hid).mpr
        ⟨id, i, List.mem_zipIdx_iff_getElem?.mpr hi, rfl⟩) id rfl

/-! ## Linking -/

/-- **Linking fills** the references of a buffer. -/
theorem filled {ls : List Link} (h : s.Stocks g r roots (fun _ => 0) xs)
    (hslot : IsSlotSize s.slotSize) (hcapacity : s.capacity / wordSize < 256 ^ s.slotSize)
    (hlinks : s.links g r = .ok ls) (happly : s.applyLinks ls = (.ok (), t)) :
    s.Filled t g r := by
  obtain ⟨hframe, hlinked, hreferents, hkept⟩ :=
    h.link hslot (fun _ _ => h.stages.identity_lt hcapacity) hlinks happly
  have hslotSize : t.slotSize = s.slotSize := by rw [hframe]
  -- The members stand where they stood, with identities in place of references.
  have hvalue : ∀ {x : Placed} {c : Cell}, x ∈ xs → c ∈ x.member.cells s.slotSize → ∀ {target},
      c.value = .reference target → Bytes.valueAt t.bytes (x.offset + c.offset) s.slotSize =
        c.value.number s.identity id := by
    intro x c hx hc target hv
    have hheld := (hlinked.held x hx).cells c (hslotSize.symm ▸ hc)
    rwa [((h.stages.of x hx).width_of_reference hslot hc hv).1, ← Bytes.valueAt_eq_number] at hheld
  refine ⟨hframe, ?_, ?_, ?_, ?_, ?_⟩
  · have hrow := hlinked.row
    rw [hslotSize] at hrow
    exact (Tiles.add_sum hrow).symm.trans (Tiles.add_sum h.stages.row)
  · intro p hp
    obtain ⟨x, hx, c, hc, hv, rfl⟩ := (h.slotAt_iff hslot).mp hp
    rw [hvalue hx hc hv, hv]
    rfl
  · intro p id hp
    obtain ⟨x, hx, c, hc, hv, rfl⟩ := (h.slotAt_iff hslot).mp hp
    obtain ⟨q, hq⟩ := hreferents x hx c hc id hv
    obtain ⟨y, hy, -, rfl⟩ := (h.stages.slotOf id q).mp hq
    have hdvd := (h.stages.row.dvd (Nat.dvd_zero _) fun y _ => y.member.wordSize_dvd_size _).1 y hy
    refine ⟨y.offset, ?_, fun q' => ?_⟩
    · rw [hvalue hx hc hv, hv, FieldValue.number, identity, hq, Option.getD_some,
        DumpSession.slotOfIdentity?_identityOf hdvd]
    · rw [h.stages.holds_iff, hq, Option.some.injEq, eq_comm]
  · -- Only links are written, and no link touches a header or a cell that refers to nothing.
    intro p n hplain k hk
    refine hkept _ fun y hy l hl => ?_
    obtain ⟨x, hx, ⟨rfl, rfl⟩ | ⟨c, hc, rfl, rfl, hv⟩⟩ := h.cases_of_plainAt hslot hplain
    · have hapart := h.stages.header_apart hslot hx hy hl
      omega
    · have hplain : ¬ ∃ id, c.value = .reference (some id) := by
        rintro ⟨id, hid⟩
        exact hv (by rw [hid]; rfl)
      have hapart := h.stages.cell_apart hslot hx hy hl hc hplain
      omega
  · intro j hj
    refine hkept j fun y hy l hl => ?_
    obtain ⟨c, hc, id, p, hv, -, rfl⟩ := hl
    exact hj _ _ ((h.slotAt_iff hslot).mpr ⟨y, hy, c, hc, hv, rfl⟩)

end Stocks

/-- **Linking is exact, and all or nothing.** A buffer to which calls over a graph have led, with
slots wide enough for the number of any of its words, is linked if and only if all referents of its
objects and all listed roots are staged. If linking fails, the buffer is as it was. If it succeeds,
every reference slot holds zero for null or an identity that stands for the place of its referent,
and all headers, scalars and native pointers are as they were. -/
theorem link_iff_closed (h : s.Reachable g r)
    (hwidth : s.slotSize = 8 ∧ s.capacity < 2 ^ 64 ∨
      s.slotSize = 4 ∧ s.capacity / wordSize < 2 ^ 32 - 1) :
    ((s.link g r).1 = .ok () ↔ s.Closed g) ∧
      (∀ e, (s.link g r).1 = .error e → (s.link g r).2 = s) ∧
      ((s.link g r).1 = .ok () → s.Filled (s.link g r).2 g r) := by
  have hslot : IsSlotSize s.slotSize := (hwidth.imp And.left And.left).symm
  have hcapacity : s.capacity / wordSize < 256 ^ s.slotSize := by
    rcases hwidth with ⟨hslot, hcapacity⟩ | ⟨hslot, hcapacity⟩
    · rw [hslot]
      exact Nat.lt_of_le_of_lt (Nat.div_le_self ..) hcapacity
    · rw [hslot]
      exact Nat.lt_of_lt_of_le hcapacity (by decide)
  obtain ⟨roots, xs, hs⟩ := h.stocks hslot
  rw [hs.closed_iff, ← exists_links_iff hs hslot, link]
  cases hlinks : s.links g r with
  | error e =>
    -- A look-up has failed, and all of them come before the first write.
    refine ⟨⟨nofun, fun ⟨_, h⟩ => nomatch h⟩, fun _ _ => rfl, nofun⟩
  | ok ls =>
    -- The graph is the one that was staged, so the links lie in the buffer.
    have happly := hs.applyLinks_eq_ok hslot hlinks
    refine ⟨⟨fun _ => ⟨ls, rfl⟩, fun _ => happly⟩, fun e he => ?_, fun _ => ?_⟩
    · exact nomatch happly.symm.trans he
    · exact hs.filled hslot hcapacity hlinks (Prod.ext happly rfl)

/-- One of two pairs that refer to each other cannot be linked, but both of them can. -/
theorem link_iff_closed_cycle : ∃ s e t, Reachable .cycle .pairs s ∧ Reachable .cycle .pairs t ∧
    s.link .cycle .pairs = (.error e, s) ∧ ¬ s.Closed .cycle ∧
    (t.link .cycle .pairs).1 = .ok () ∧ t.Closed .cycle ∧
    t.Filled (t.link .cycle .pairs).2 .cycle .pairs := by
  have hok : (((empty 4096 4 64).allocate? .cycle .pairs ⟨0⟩ .opened).toOption.any fun s =>
      (decide (s.2.slotSize = 4 ∧ s.2.capacity = 4096) && !(s.2.link .cycle .pairs).1.isOk) &&
        (s.2.allocate? .cycle .pairs ⟨1⟩ .closed).toOption.any fun t =>
          (t.2.allocateRoots? [⟨0⟩, ⟨1⟩]).toOption.any fun u =>
            decide (u.2.slotSize = 4 ∧ u.2.capacity = 4096) && (u.2.link .cycle .pairs).1.isOk) =
      true := by
    decide +kernel
  obtain ⟨⟨p, s⟩, hs, hok⟩ := Except.exists_of_any hok
  simp only [Bool.and_eq_true, decide_eq_true_eq, Bool.not_eq_true'] at hok
  obtain ⟨⟨⟨hslot, hcapacity⟩, hfail⟩, hok⟩ := hok
  obtain ⟨⟨q, t⟩, ht, hok⟩ := Except.exists_of_any hok
  obtain ⟨⟨q', u⟩, hu, hok⟩ := Except.exists_of_any hok
  simp only [Bool.and_eq_true, decide_eq_true_eq] at hok
  obtain ⟨⟨hslot', hcapacity'⟩, hlink⟩ := hok
  -- The first pair is staged, then the other one and the roots.
  have hreached : Reachable .cycle .pairs s := .allocate (.empty 4096 4 64) hs
  have hreached' : Reachable .cycle .pairs u := .allocateRoots (.allocate hreached ht) hu
  obtain ⟨hclosed, hkept, -⟩ := link_iff_closed hreached
    (.inr ⟨hslot, by rw [hcapacity]; decide⟩)
  obtain ⟨hclosed', -, hfilled⟩ := link_iff_closed hreached'
    (.inr ⟨hslot', by rw [hcapacity']; decide⟩)
  have hlinked := Except.eq_ok_of_isOk hlink
  cases herror : (s.link .cycle .pairs).1 with
  | ok u =>
    rw [herror] at hfail
    cases hfail
  | error e =>
    refine ⟨s, e, u, hreached, hreached', Prod.ext herror (hkept e herror), fun hall => ?_, hlinked,
      hclosed'.mp hlinked, hfilled hlinked⟩
    rw [hclosed.mpr hall] at herror
    cases herror

end StagingBuffer

end HeapImage
