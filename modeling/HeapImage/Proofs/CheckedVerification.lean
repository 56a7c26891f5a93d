import HeapImage.Checked.Outcome
import HeapImage.Proofs.CheckedMapping
import HeapImage.Proofs.SafeWalks

/-! # Checked reads of a verified heap

Verification adds sizes and offsets to addresses, and works out the address that a stored value
stands for before it knows whether anything is there. Where it accepts some extents with ends that
are addresses, all of these sums were addresses: objects end where their extents end or before, and
references lead to objects. The same goes for a walk from one of the objects.

* `Checked.walkFrom_eq_ok`, `Checked.checkReferences_eq_ok`: the two passes of a verification.
* `Checked.verifyHeap_eq_ok`, `Checked.verifyOutcome_eq_ok`: a verification that accepts.
* `Checked.field_eq_ok`, `Checked.readAddress_eq_ok`: reading an object.
* `Checked.ofHeap_eq_ok`: a snapshot of a verified heap. -/

namespace HeapImage.Checked

variable {μ : Type} [Memory μ] {space : AddressSpace} {heap : μ} {types : TypeRegistry}
variable {e : ReferenceEncoding} {extents : List Extent} {report report' : VerifyReport}
variable {o : VerifiedObject} {objects : Array VerifiedObject}

/-- A checked result stays one where a computation may also stop. -/
theorem orStop_eq_ok {ε α : Type} {c : Checked α} {x : α} (h : c = .ok x) :
    (c.orStop : Except (Stop ε) α) = .ok x := by
  rw [h]
  rfl

/-! ## Verification -/

/-- A walk that gets to the end of an extent has met no address beyond it. -/
theorem walkFrom_eq_ok {slot a : Nat} {x : Extent} {found found' : Array VerifiedObject}
    (htop : space.Has x.top)
    (h : VerifiedObject.walkFrom heap types slot x a found = .ok found') :
    walkFrom space heap types slot x a found = .ok found' := by
  fun_induction VerifiedObject.walkFrom heap types slot x a found with
  | case1 => cases h
  | case2 a found hlt o hat ih =>
    obtain ⟨os, hrow, -⟩ := VerifiedObject.walkFrom_eq_ok.mp h
    have hsum := AddressSpace.add_eq_ok (htop.mono hrow.tiles.le)
    rw [walkFrom, if_pos hlt, hat]
    dsimp only
    split
    · rename_i fault hfault
      rw [hsum] at hfault
      cases hfault
    · rename_i next hnext
      obtain rfl := AddressSpace.eq_of_add_eq_ok hnext
      exact ih h
  | case3 found hlt =>
    rw [walkFrom, if_neg hlt, if_pos rfl]
    exact congrArg Except.ok (Except.ok.inj h)
  | case4 => cases h

/-- Walks over extents whose ends are in the range find what the plain ones find. -/
theorem walkAll_eq_ok {slot : Nat} (hspace : ∀ x ∈ extents, space.Has x.top)
    (h : VerifiedObject.walkAll heap types slot extents = .ok objects) :
    walkAll space heap types slot extents = .ok objects :=
  Except.foldlM_mono (fun x hx _ _ hwalk => walkFrom_eq_ok (hspace x hx) hwalk) h

/-- A slot that is accepted has an address, and so has what it leads to. -/
theorem checkSlot_eq_ok {starts : Std.TreeSet Nat} {offset : Nat}
    (hplace : space.Has (o.address + offset))
    (hstarts : ∀ a, starts.contains a = true → space.Has a)
    (h : o.checkSlot heap e starts report offset = .ok report') :
    checkSlot space heap e starts o report offset = .ok report' := by
  rw [VerifiedObject.checkSlot] at h
  rw [checkSlot, orStop_eq_ok (AddressSpace.add_eq_ok hplace), ok_bind]
  cases hread : Memory.readValue? heap (o.address + offset) e.slotSize with
  | none =>
    rw [hread] at h
    cases h
  | some value =>
    rw [hread] at h
    dsimp only at h ⊢
    split at h
    · rename_i hzero
      rw [if_pos hzero]
      exact congrArg Except.ok (Except.ok.inj h)
    · rename_i hne
      split at h
      · rename_i hcontains
        rw [if_neg hne, orStop_eq_ok (decode_eq_ok (hstarts _ hcontains)), ok_bind,
          if_pos hcontains]
        exact congrArg Except.ok (Except.ok.inj h)
      · cases h

/-- **The slots of an object** that are accepted have addresses, as the object ends at one. -/
theorem checkReferences_eq_ok {starts : Std.TreeSet Nat}
    (htop : space.Has (o.address + o.size e.slotSize))
    (hstarts : ∀ a, starts.contains a = true → space.Has a)
    (h : VerifiedObject.checkReferences heap e starts report o = .ok report') :
    checkReferences space heap e starts report o = .ok report' := by
  rw [VerifiedObject.checkReferences, TypeKind.foldReferences_eq] at h
  rw [checkReferences, TypeKind.foldReferences_eq]
  refine Except.foldlM_mono (fun offset hoffset s t hslot => ?_) h
  have hstop := (TypeKind.bounds_of_mem_referenceOffsets e.isSlotSize hoffset).2
  refine checkSlot_eq_ok (htop.mono ?_) hstarts hslot
  rw [VerifiedObject.size]
  omega

/-- An object of extents that end at addresses ends at one. -/
theorem has_of_walkAll {slot : Nat} (hspace : ∀ x ∈ extents, space.Has x.top)
    (hwalk : VerifiedObject.walkAll heap types slot extents = .ok objects)
    (ho : o ∈ objects.toList) : space.Has (o.address + o.size slot) := by
  obtain ⟨-, x, hx, -, htop⟩ := VerifiedObject.of_walkAll hwalk o ho
  exact (hspace x hx).mono htop

/-- **A verification that accepts** some extents comes to no sum that is too large, if their ends
are addresses. -/
theorem verifyHeap_eq_ok (hspace : ∀ x ∈ extents, space.Has x.top)
    (h : HeapImage.verifyHeap heap types e extents = .ok report) :
    verifyHeap space heap types e extents = .ok (.ok report) := by
  obtain ⟨⟨⟩, hcheck, h⟩ := Except.bind_eq_ok.mp h
  have hextents : HeapImage.checkExtents heap types e extents = .ok report := by
    split at h
    · rename_i report' hok
      rw [hok]
      exact congrArg Except.ok (Except.ok.inj h)
    · cases h
  obtain ⟨objects, hwalk, hcheckAll⟩ := Except.bind_eq_ok.mp hextents
  have hstarts : ∀ a, (objects.foldl (fun s o => s.insert o.address)
      (∅ : Std.TreeSet Nat)).contains a = true → space.Has a := by
    intro a ha
    obtain ⟨o, ho, rfl⟩ := VerifiedObject.contains_starts.mp ha
    exact (has_of_walkAll hspace hwalk ho).mono (Nat.le_add_right ..)
  have hchecked : checkExtents space heap types e extents = .ok report := by
    refine Except.bind_eq_ok.mpr ⟨objects, walkAll_eq_ok hspace hwalk, ?_⟩
    refine Except.foldlM_mono (fun o ho s t hslots => ?_) hcheckAll
    exact checkReferences_eq_ok (has_of_walkAll hspace hwalk ho) hstarts hslots
  rw [verifyHeap, hcheck, hchecked]
  rfl

/-- **What was loaded** is verified without a fault, if verification accepts it and its objects end
at addresses. -/
theorem verifyOutcome_eq_ok {ν : Type} [Destination ν] {checks : Checks} {heap : ν}
    {outcome : LoadOutcome} (htops : ∀ x ∈ outcome.extents, checks.space.Has x.top)
    (h : HeapImage.verifyOutcome heap outcome = .ok report) :
    verifyOutcome checks heap outcome = .ok (.ok report) := by
  cases outcome with
  | mapped m => exact verifyHeap_eq_ok htops h
  | loaded c => exact verifyHeap_eq_ok htops h
  | disabled reason => exact congrArg Except.ok h

/-! ## Snapshots -/

section

variable {v : ObjectView} {a i n : Nat} {value : ViewValue} {values values' : Array SnapshotValue}
variable {keys keys' : Numbering} {node : SnapshotNode}

/-- A reference that leads to an address is decoded to it. -/
theorem referenceAt_eq_ok (hlive : ∀ b, value = .reference (some b) → space.Has b)
    (h : ObjectView.referenceAt heap e a = .ok value) :
    referenceAt space heap e a = .ok value := by
  obtain ⟨stored, hstored, h⟩ := Except.bind_eq_ok.mp h
  obtain rfl := Except.pure_eq_ok.mp h
  refine Except.bind_eq_ok.mpr ⟨stored, Except.mapError_eq_ok.mpr hstored, ?_⟩
  split
  · rfl
  · rename_i hne
    rw [if_neg hne] at hlive
    rw [orStop_eq_ok (decode_eq_ok (hlive _ rfl))]
    rfl

/-- A field that lies below an address has one. -/
theorem fieldAt_eq_ok {kind : FieldKind} {offset : Nat} (hplace : space.Has (v.address + offset))
    (hlive : ∀ b, value = .reference (some b) → space.Has b)
    (h : ObjectView.fieldAt heap e kind (v.address + offset) = .ok value) :
    fieldAt space heap e v kind offset = .ok value := by
  rw [fieldAt, orStop_eq_ok (AddressSpace.add_eq_ok hplace), ok_bind]
  cases kind with
  | scalar | native => exact Except.mapError_eq_ok.mpr h
  | reference => exact referenceAt_eq_ok hlive h

/-- **A field of an object** that ends at an address is read. -/
theorem field_eq_ok
    (htop : space.Has (v.address + v.type.kind.objectSize v.header.length e.slotSize))
    (hlive : ∀ b, value = .reference (some b) → space.Has b)
    (h : v.field heap e i = .ok value) : field space heap e v i = .ok value := by
  have hslot := e.isSlotSize
  unfold ObjectView.field at h
  rw [field]
  split at h
  · cases h
  rename_i hi
  have hlt : i < v.header.length.toNat := Nat.not_le.mp hi
  rw [if_neg hi]
  cases hshape : v.type.kind with
  | record kinds =>
    rw [hshape] at h htop
    dsimp only at h ⊢
    cases hfield : kinds[i]? with
    | none =>
      rw [hfield] at h
      cases h
    | some kind =>
      cases hoffset : (RecordLayout.compute kinds e.slotSize).offsets[i]? with
      | none =>
        rw [hfield, hoffset] at h
        cases h
      | some offset =>
        rw [hfield, hoffset] at h
        have hmem : (kind, offset) ∈ kinds.zip
            (RecordLayout.fieldOffsets e.slotSize headerSize kinds) :=
          List.mem_of_getElem? (List.getElem?_zip_eq_some.mpr ⟨hfield, hoffset⟩)
        have hstop : offset + kind.width e.slotSize ≤
            (TypeKind.record kinds).objectSize v.header.length e.slotSize :=
          (TypeKind.field_stop_le hslot hmem).2
        exact fieldAt_eq_ok (htop.mono (by omega)) hlive h
  | scalarArray size =>
    rw [hshape] at h htop
    obtain ⟨stored, hstored, h⟩ := Except.bind_eq_ok.mp h
    have hstop : headerSize + i * size + size ≤
        (TypeKind.scalarArray size).objectSize v.header.length e.slotSize :=
      TypeKind.element_stop_le hlt
    dsimp only
    rw [orStop_eq_ok (AddressSpace.add_eq_ok (htop.mono (by omega))), ok_bind]
    refine Except.bind_eq_ok.mpr ⟨stored, Except.mapError_eq_ok.mpr hstored, ?_⟩
    exact congrArg Except.ok (Except.ok.inj h)
  | referenceArray =>
    rw [hshape] at h htop
    have hstop : headerSize + i * e.slotSize + e.slotSize ≤
        TypeKind.referenceArray.objectSize v.header.length e.slotSize :=
      TypeKind.element_stop_le hlt
    exact fieldAt_eq_ok (htop.mono (by omega)) hlive h

/-- Fields that are read one by one are read in a row. -/
theorem readValues_eq_ok
    (hfield : ∀ i value, v.field heap e i = .ok value → field space heap e v i = .ok value)
    (h : Snapshot.readValues heap e v n i values keys = .ok (values', keys')) :
    readValues space heap e v n i values keys = .ok (values', keys') := by
  induction n generalizing i values keys with
  | zero => exact congrArg Except.ok (Except.ok.inj h)
  | succ n ih =>
    rw [Snapshot.readValues] at h
    cases hvalue : v.field heap e i with
    | error fault =>
      rw [hvalue] at h
      cases h
    | ok value =>
      rw [hvalue] at h
      rw [readValues, hfield i value hvalue]
      cases value with
      | scalar | native | reference => exact ih h

end

/-- **An object of a verified heap** that is read has all its sums among the addresses, and leads to
objects of the heap. -/
theorem readAddress_eq_ok (hspace : ∀ x ∈ extents, space.Has x.top)
    (hwalk : VerifiedObject.walkAll heap types e.slotSize extents = .ok objects)
    (ho : o ∈ objects.toList)
    (hleads : ∀ k, o.type.kind.FieldAt o.header.length e.slotSize .reference k →
      o.Leads heap e (fun a => ∃ p ∈ objects.toList, p.address = a) k)
    {node : SnapshotNode} {keys keys' : Numbering}
    (hkeys : keys.Among fun a => ∃ p ∈ objects.toList, p.address = a)
    (h : Snapshot.readAddress heap types e o.address keys = .ok (node, keys')) :
    readAddress space heap types e o.address keys = .ok (node, keys') ∧
      keys'.Among fun a => ∃ p ∈ objects.toList, p.address = a := by
  have hview := (VerifiedObject.atAddress_of_at? (VerifiedObject.of_walkAll hwalk o ho).1).1
  obtain ⟨v, hv, h⟩ := Except.bind_eq_ok.mp h
  obtain rfl : o.view = v := Except.ok.inj (hview.symm.trans hv)
  obtain ⟨⟨values, numbering⟩, hvalues, h⟩ := Except.bind_eq_ok.mp h
  cases h
  have hlive : ∀ i b, o.view.field heap e i = .ok (.reference (some b)) →
      ∃ p ∈ objects.toList, p.address = b := fun i b => VerifiedObject.live_of_field hleads
  refine ⟨?_, Snapshot.among_of_readValues hlive hkeys hvalues⟩
  have htop : space.Has (o.address + o.size e.slotSize) := has_of_walkAll hspace hwalk ho
  have hfield : ∀ i value, o.view.field heap e i = .ok value →
      field space heap e o.view i = .ok value := by
    intro i value hvalue
    refine field_eq_ok htop ?_ hvalue
    rintro b rfl
    obtain ⟨p, hp, rfl⟩ := hlive i b hvalue
    exact (has_of_walkAll hspace hwalk hp).mono (Nat.le_add_right ..)
  exact Except.bind_eq_ok.mpr ⟨o.view, Except.mapError_eq_ok.mpr hv,
    Except.bind_eq_ok.mpr ⟨_, readValues_eq_ok hfield hvalues, rfl⟩⟩

/-- **A snapshot of a verified heap** comes to no sum that is too large, if the ends of the extents
are addresses. -/
theorem ofHeap_eq_ok (hspace : ∀ x ∈ extents, space.Has x.top)
    (hverify : HeapImage.verifyHeap heap types e extents = .ok report)
    (hwalk : VerifiedObject.walkAll heap types e.slotSize extents = .ok objects) {root : Nat}
    (hroot : ∃ o ∈ objects.toList, o.address = root) {s : Snapshot}
    (h : Snapshot.ofHeap heap types e root = .ok s) :
    ofHeap space heap types e root = .ok (.ok s) := by
  obtain ⟨-, objects', hwalk', hleads, -⟩ := HeapImage.verifyHeap_eq_ok.mp hverify
  obtain rfl : objects' = objects := Except.ok.inj (hwalk'.symm.trans hwalk)
  obtain ⟨nodes, hnodes, h⟩ := Except.bind_eq_ok.mp h
  cases h
  have hexplore : Snapshot.explore (readAddress space heap types e) (Memory.extent heap + 1)
      (.start root) #[] = .ok nodes := by
    refine Snapshot.explore_mono (fun a => ∃ p ∈ objects'.toList, p.address = a) ?_
      (Numbering.among_start hroot) hnodes
    rintro key n node m ⟨p, hp, rfl⟩ hn hread
    exact readAddress_eq_ok hspace hwalk hp (hleads p hp) hn hread
  rw [ofHeap, hexplore]
  rfl

end HeapImage.Checked
