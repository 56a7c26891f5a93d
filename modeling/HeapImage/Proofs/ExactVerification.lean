import HeapImage.Proofs.FieldPlaces
import HeapImage.Proofs.HeapVerification
import Mathlib.Data.Finset.Card
import Mathlib.Data.Finset.Range

/-! # What verification decides

Verification is a walk through each extent and then a pass over all reference slots, which stops at
the first fault. It accepts exactly if objects stand back to back in the extents and no slot leads
away from them, and its report counts those objects and their slots.

* `VerifiedObject.Found`, `VerifiedObject.at?_eq_ok`: an object stands at an address.
* `VerifiedObject.Leads`, `VerifiedObject.checkReferences_eq_ok`: where the slots of an object lead.
* `VerifiedObject.countSlots`, `VerifiedObject.count_nulls`: slots counted by what they hold.
* `verifyHeap_eq_ok`: the verification as the walk and the pass that it makes.
* `verifyHeap_iff_closed`: the verification as a statement about the heap. -/

namespace HeapImage

variable {μ : Type} [Memory μ] {heap : μ} {types : TypeRegistry} {e : ReferenceEncoding}
variable {extents : List Extent} {report report' : VerifyReport}

namespace VerifiedObject

variable {o : VerifiedObject} {os : List VerifiedObject} {k : Nat}

/-! ## Objects -/

/-- An object stands where it says: its header can be read there, and names a registered type that
accepts the length. -/
structure Found (heap : μ) (types : TypeRegistry) (o : VerifiedObject) : Prop where
  header : ∃ bytes, Memory.read? heap o.address headerSize = some bytes ∧
    ObjectHeader.read? bytes 0 = some o.header
  type : types.get? o.header.typeIndex = some o.type
  accepts : o.type.kind.acceptsLength o.header.length = true

/-- **What stands at an address** is found there. -/
theorem at?_eq_ok {a : Nat} : at? heap types a = .ok o ↔ o.address = a ∧ o.Found heap types := by
  constructor
  · intro h
    obtain rfl := address_of_at? h
    refine ⟨rfl, ?_⟩
    rw [at?] at h
    split at h
    · cases h
    · rename_i header hheader
      split at h
      · cases h
      · rename_i type htype
        split at h
        · rename_i haccepts
          rw [Except.ok.injEq] at h
          rw [← h]
          exact ⟨Option.bind_eq_some_iff.mp hheader, htype, haccepts⟩
        · cases h
  · rintro ⟨rfl, hfound⟩
    rw [at?, Option.bind_eq_some_iff.mpr hfound.header]
    dsimp only
    rw [hfound.type]
    dsimp only
    rw [if_pos hfound.accepts]

/-- Objects tile an extent as they are found if each of them stands there. -/
theorem row_iff {slot start stop : Nat} : Row heap types slot start os stop ↔
    Tiles address (fun o => o.size slot) start os stop ∧ ∀ o ∈ os, o.Found heap types := by
  constructor
  · intro h
    exact ⟨h.tiles, fun o ho => (at?_eq_ok.mp (h.found o ho)).2⟩
  · rintro ⟨htiles, hfound⟩
    exact ⟨htiles, fun o ho => at?_eq_ok.mpr ⟨rfl, hfound o ho⟩⟩

/-- The same for several extents. -/
theorem rows_iff {slot : Nat} {rows : List (List VerifiedObject)} :
    List.Forall₂ (fun x os => Row heap types slot x.bottom os x.top) extents rows ↔
      List.Forall₂ (fun x os => Tiles address (fun o => o.size slot) x.bottom os x.top)
        extents rows ∧ ∀ o ∈ rows.flatten, o.Found heap types := by
  induction extents generalizing rows with
  | nil =>
    rw [List.forall₂_nil_left_iff, List.forall₂_nil_left_iff]
    exact ⟨fun h => ⟨h, h ▸ nofun⟩, And.left⟩
  | cons x extents ih =>
    cases rows with
    | nil => exact ⟨nofun, nofun⟩
    | cons os rows =>
      rw [List.forall₂_cons, List.forall₂_cons, row_iff, ih, List.flatten_cons,
        List.forall_mem_append, and_and_and_comm]

/-! ## Slots -/

/-- The slot at an offset can be read, and holds null or a reference to a known address. -/
def Leads (heap : μ) (e : ReferenceEncoding) (Live : Nat → Prop) (o : VerifiedObject)
    (offset : Nat) : Prop :=
  ∃ value, Memory.readValue? heap (o.address + offset) e.slotSize = some value ∧
    (value ≠ 0 → Live (e.decode value))

/-- The reference slots of an object, each of them as whether it holds null. -/
def nulls (heap : μ) (e : ReferenceEncoding) (o : VerifiedObject) : List Bool :=
  (o.type.kind.referenceOffsets o.header.length e.slotSize).map fun k =>
    Memory.readValue? heap (o.address + k) e.slotSize = some 0

/-- **One slot** is accepted exactly if it leads to a known address, and is counted then. -/
theorem checkSlot_eq_ok {starts : Std.TreeSet Nat} :
    checkSlot heap e starts o report k = .ok report' ↔
      o.Leads heap e (fun a => starts.contains a = true) k ∧
        report' = report.addSlot (Memory.readValue? heap (o.address + k) e.slotSize = some 0) := by
  rw [checkSlot, Leads]
  cases Memory.readValue? heap (o.address + k) e.slotSize with
  | none => simp only [reduceCtorEq, false_and, exists_false]
  | some value =>
    dsimp only
    simp only [Option.some.injEq, exists_eq_left']
    -- Null is counted without being decoded, so it need not lead anywhere.
    by_cases hzero : value = 0
    · rw [if_pos hzero, decide_eq_true hzero, Except.ok.injEq, eq_comm]
      exact ⟨fun h => ⟨fun hne => absurd hzero hne, h⟩, And.right⟩
    · rw [if_neg hzero, decide_eq_false hzero]
      by_cases hcontains : starts.contains (e.decode value) = true
      · rw [if_pos hcontains, Except.ok.injEq, eq_comm]
        exact ⟨fun h => ⟨fun _ => hcontains, h⟩, And.right⟩
      · rw [if_neg hcontains]
        simp only [reduceCtorEq, false_iff]
        exact fun h => hcontains (h.1 hzero)

/-- **The slots of an object** are accepted exactly if all of them lead to known addresses. -/
theorem checkReferences_eq_ok {starts : Std.TreeSet Nat} :
    checkReferences heap e starts report o = .ok report' ↔
      (∀ k, o.type.kind.FieldAt o.header.length e.slotSize .reference k →
        o.Leads heap e (fun a => starts.contains a = true) k) ∧
      report' = (o.nulls heap e).foldl VerifyReport.addSlot report := by
  rw [checkReferences, TypeKind.foldReferences_eq,
    Except.foldlM_eq_ok (f := checkSlot heap e starts o) fun _ _ _ _ => checkSlot_eq_ok, nulls,
    List.foldl_map]
  simp only [TypeKind.mem_referenceOffsets]

/-- The slots of an object that can be read and hold a number that passes a test. -/
def countSlots (heap : μ) (e : ReferenceEncoding) (test : Nat → Bool) (o : VerifiedObject) : Nat :=
  ((Finset.range (o.size e.slotSize)).filter fun k =>
    o.type.kind.FieldAt o.header.length e.slotSize .reference k ∧
      (Memory.readValue? heap (o.address + k) e.slotSize).any test = true).card

/-- A pass over the slots of an object meets each of them once. -/
theorem countSlots_eq_countP (test : Nat → Bool) : o.countSlots heap e test =
    (o.type.kind.referenceOffsets o.header.length e.slotSize).countP fun k =>
      (Memory.readValue? heap (o.address + k) e.slotSize).any test := by
  have hnodup : (o.type.kind.referenceOffsets o.header.length e.slotSize).Nodup :=
    TypeKind.nodup_referenceOffsets e.isSlotSize.pos
  -- No offset is listed twice, so the length of the list is the size of the set.
  rw [List.countP_eq_length_filter, ← List.toFinset_card_of_nodup (hnodup.filter _), countSlots]
  congr 1
  ext k
  rw [List.mem_toFinset, List.mem_filter, Finset.mem_filter, Finset.mem_range,
    ← TypeKind.mem_referenceOffsets]
  refine ⟨And.right, fun h => ⟨?_, h⟩⟩
  have hbound := (TypeKind.bounds_of_mem_referenceOffsets e.isSlotSize h.1).2
  have hpos := e.isSlotSize.pos
  rw [size]
  omega

/-- Slots that hold null and slots that lead somewhere are counted apart. -/
theorem count_nulls {Live : Nat → Prop}
    (h : ∀ k, o.type.kind.FieldAt o.header.length e.slotSize .reference k → o.Leads heap e Live k) :
    (o.nulls heap e).count false = o.countSlots heap e (fun value => decide (value ≠ 0)) ∧
      (o.nulls heap e).count true = o.countSlots heap e (fun value => decide (value = 0)) := by
  rw [countSlots_eq_countP, countSlots_eq_countP, nulls, List.count_eq_countP,
    List.count_eq_countP, List.countP_map, List.countP_map]
  constructor
  all_goals
    refine List.countP_congr fun k hk => ?_
    obtain ⟨value, hread, -⟩ := h k (TypeKind.mem_referenceOffsets.mp hk)
    simp [Function.comp_apply, hread]

/-- The slots of several objects are counted object by object. -/
theorem count_nulls_flatMap {Live : Nat → Prop} (h : ∀ o ∈ os, ∀ k,
      o.type.kind.FieldAt o.header.length e.slotSize .reference k → o.Leads heap e Live k) :
    (os.flatMap fun o => o.nulls heap e).count false =
        (os.map fun o => o.countSlots heap e fun value => decide (value ≠ 0)).sum ∧
      (os.flatMap fun o => o.nulls heap e).count true =
        (os.map fun o => o.countSlots heap e fun value => decide (value = 0)).sum := by
  rw [List.count_flatMap, List.count_flatMap]
  constructor
  · exact congrArg List.sum (List.map_congr_left fun o ho => (count_nulls (h o ho)).1)
  · exact congrArg List.sum (List.map_congr_left fun o ho => (count_nulls (h o ho)).2)

end VerifiedObject

/-! ## Verification -/

/-- The two passes of a verification: the objects of the extents are found, and then all of their
slots lead to objects among them. -/
theorem checkExtents_eq_ok : checkExtents heap types e extents = .ok report ↔
    ∃ objects, VerifiedObject.walkAll heap types e.slotSize extents = .ok objects ∧
      (∀ o ∈ objects.toList, ∀ k, o.type.kind.FieldAt o.header.length e.slotSize .reference k →
        o.Leads heap e (fun a => ∃ p ∈ objects.toList, p.address = a) k) ∧
      report = ⟨objects.size,
        (objects.toList.flatMap fun o => o.nulls heap e).count false,
        (objects.toList.flatMap fun o => o.nulls heap e).count true⟩ := by
  rw [checkExtents, Except.bind_eq_ok]
  refine exists_congr fun objects => and_congr_right fun _ => ?_
  dsimp only
  rw [Except.foldlM_eq_ok (f := VerifiedObject.checkReferences heap e _)
    fun _ _ _ _ => VerifiedObject.checkReferences_eq_ok, ← List.foldl_flatMap,
    VerifyReport.foldl_addSlot]
  simp only [VerifiedObject.contains_starts, Nat.zero_add]

/-- **The verification** as the passes that it makes. -/
theorem verifyHeap_eq_ok : verifyHeap heap types e extents = .ok report ↔
    e.check = .ok () ∧
    ∃ objects, VerifiedObject.walkAll heap types e.slotSize extents = .ok objects ∧
      (∀ o ∈ objects.toList, ∀ k, o.type.kind.FieldAt o.header.length e.slotSize .reference k →
        o.Leads heap e (fun a => ∃ p ∈ objects.toList, p.address = a) k) ∧
      report = ⟨objects.size,
        (objects.toList.flatMap fun o => o.nulls heap e).count false,
        (objects.toList.flatMap fun o => o.nulls heap e).count true⟩ := by
  rw [verifyHeap, Except.bind_eq_ok, ← checkExtents_eq_ok]
  constructor
  · rintro ⟨⟨⟩, hcheck, h⟩
    refine ⟨hcheck, ?_⟩
    split at h
    · rename_i report' hextents
      cases h
      exact hextents
    · cases h
  · rintro ⟨hcheck, hextents⟩
    refine ⟨⟨⟩, hcheck, ?_⟩
    rw [hextents]
    rfl

/-- **Verification is exact.** Some extents of any memory are accepted if and only if each of them
is tiled by objects that end where it ends, whose headers can be read and name registered types that
accept their lengths, and every reference slot of these objects can be read and holds null or leads
to the start of one of them, in whichever extent. The report counts the objects, their slots that
are not null and their slots that are. -/
theorem verifyHeap_iff_closed (heap : μ) (types : TypeRegistry) (e : ReferenceEncoding)
    (extents : List Extent) (report : VerifyReport) :
    verifyHeap heap types e extents = .ok report ↔
      e.check = .ok () ∧ ∃ rows : List (List VerifiedObject),
        List.Forall₂ (fun x os => Tiles VerifiedObject.address (fun o => o.size e.slotSize)
          x.bottom os x.top) extents rows ∧
        (∀ o ∈ rows.flatten, o.Found heap types ∧
          ∀ k, o.type.kind.FieldAt o.header.length e.slotSize .reference k →
            o.Leads heap e (fun a => ∃ p ∈ rows.flatten, p.address = a) k) ∧
        report = ⟨rows.flatten.length,
          (rows.flatten.map fun o => o.countSlots heap e fun value => decide (value ≠ 0)).sum,
          (rows.flatten.map fun o => o.countSlots heap e fun value => decide (value = 0)).sum⟩ := by
  rw [verifyHeap_eq_ok]
  refine and_congr_right fun _ => ?_
  constructor
  · rintro ⟨objects, hwalk, hleads, rfl⟩
    obtain ⟨rows, hrows, hlist⟩ := VerifiedObject.walkAll_eq_ok.mp hwalk
    obtain ⟨htiles, hfound⟩ := VerifiedObject.rows_iff.mp hrows
    rw [hlist] at hleads
    -- A slot that has been checked is counted once, as a reference or as null.
    obtain ⟨hreferences, hnulls⟩ := VerifiedObject.count_nulls_flatMap hleads
    refine ⟨rows, htiles, fun o ho => ⟨hfound o ho, hleads o ho⟩, ?_⟩
    rw [← Array.length_toList, hlist, hreferences, hnulls]
  · rintro ⟨rows, htiles, hobjects, rfl⟩
    have hleads := fun o ho => (hobjects o ho).2
    obtain ⟨hreferences, hnulls⟩ := VerifiedObject.count_nulls_flatMap hleads
    refine ⟨rows.flatten.toArray, VerifiedObject.walkAll_eq_ok.mpr ⟨rows, ?_, rfl⟩, hleads, ?_⟩
    · exact VerifiedObject.rows_iff.mpr ⟨htiles, fun o ho => (hobjects o ho).1⟩
    · rw [hreferences, hnulls, List.size_toArray]

end HeapImage
