import HeapImage.Heap.Verify
import HeapImage.Proofs.CountedSlots
import HeapImage.Proofs.Steps

/-! # Verification of a heap

Verification accepts every heap that presents the members of a graph: it finds the members one after
another in the extents, and every reference that is not null names one of them. What it reports are
the numbers of the members and of their slots.

* `VerifiedObject.Row`, `VerifiedObject.walkFrom_eq_ok`: what a walk through an extent finds.
* `VerifiedObject.walkAll_eq_ok`: a walk through several extents.
* `VerifyReport.addSlot`: the report behind one more slot.
* `Presents.row_verified`: members that stand back to back in a heap.
* `Presents.verifyHeap_eq`: the report on a heap that presents members.
* `Archive.report`, `Archive.HoldsMembers.verifyHeap_eq`: the report on a dump. -/

namespace HeapImage

/-! ## Walks -/

namespace VerifiedObject

variable {μ : Type} [Memory μ] {heap : μ} {types : TypeRegistry} {encoding : ReferenceEncoding}
variable {slot : Nat} {e : Extent} {o : VerifiedObject}

/-- Some objects stand back to back between two addresses, each of them as it is found. -/
structure Row (heap : μ) (types : TypeRegistry) (slot start : Nat) (os : List VerifiedObject)
    (stop : Nat) : Prop where
  tiles : Tiles address (fun o => o.size slot) start os stop
  found : ∀ o ∈ os, at? heap types o.address = .ok o

/-- An object is found at the address where it was looked for. -/
theorem address_of_at? {a : Nat} (h : at? heap types a = .ok o) : o.address = a := by
  rw [at?] at h
  split at h
  · cases h
  · split at h
    · cases h
    · split at h
      · cases h
        rfl
      · cases h

/-- **A walk** succeeds exactly if objects stand back to back up to the end of the extent. -/
theorem walkFrom_eq_ok {a : Nat} {found found' : Array VerifiedObject} :
    walkFrom heap types slot e a found = .ok found' ↔
      ∃ os, Row heap types slot a os e.top ∧ found'.toList = found.toList ++ os := by
  -- By the recursion of the walk: each object brings it nearer to the end.
  fun_induction walkFrom heap types slot e a found with
  | case1 a found hlt fault hat =>
    constructor
    · exact nofun
    · rintro ⟨os, hrow, -⟩
      cases os with
      | nil => exact absurd hrow.tiles (Nat.ne_of_lt hlt)
      | cons o os =>
        have hfound := hrow.found o (List.mem_cons_self ..)
        rw [hrow.tiles.1, hat] at hfound
        cases hfound
  | case2 a found hlt o hat ih =>
    obtain rfl := address_of_at? hat
    rw [ih]
    constructor
    · rintro ⟨os, hrow, hlist⟩
      refine ⟨o :: os, ⟨⟨rfl, hrow.tiles⟩, List.forall_mem_cons.mpr ⟨hat, hrow.found⟩⟩, ?_⟩
      rw [hlist, Array.toList_push, List.append_assoc]
      rfl
    · rintro ⟨os, hrow, hlist⟩
      cases os with
      | nil => exact absurd hrow.tiles (Nat.ne_of_lt hlt)
      | cons o' os =>
        have hfound := hrow.found o' (List.mem_cons_self ..)
        rw [hrow.tiles.1, hat, Except.ok.injEq] at hfound
        subst hfound
        refine ⟨os, ⟨hrow.tiles.2, fun o ho => hrow.found o (List.mem_cons_of_mem _ ho)⟩, ?_⟩
        rw [hlist, Array.toList_push, List.append_assoc]
        rfl
  | case3 found hlt =>
    rw [Except.ok.injEq]
    constructor
    · rintro rfl
      exact ⟨[], ⟨rfl, nofun⟩, (List.append_nil _).symm⟩
    · rintro ⟨os, hrow, hlist⟩
      cases os with
      | nil =>
        rw [List.append_nil] at hlist
        exact Array.toList_inj.mp hlist.symm
      | cons o os =>
        have hpos := o.size_pos slot
        have hle := hrow.tiles.2.le
        dsimp only at hle
        omega
  | case4 a found hlt hne =>
    constructor
    · exact nofun
    · rintro ⟨os, hrow, -⟩
      have hle := hrow.tiles.le
      omega

/-- **A walk through several extents** succeeds exactly if objects tile each of them. -/
theorem walkAll_eq_ok {extents : List Extent} {found : Array VerifiedObject} :
    walkAll heap types slot extents = .ok found ↔ ∃ rows : List (List VerifiedObject),
      List.Forall₂ (fun x os => Row heap types slot x.bottom os x.top) extents rows ∧
        found.toList = rows.flatten := by
  -- On the extents that are left, with what has been found so far.
  suffices hgen : ∀ before : Array VerifiedObject,
      extents.foldlM (fun found e => walkFrom heap types slot e e.bottom found) before = .ok found ↔
        ∃ rows : List (List VerifiedObject),
          List.Forall₂ (fun x os => Row heap types slot x.bottom os x.top) extents rows ∧
            found.toList = before.toList ++ rows.flatten from hgen #[]
  induction extents with
  | nil =>
    intro before
    change (Except.ok before : Except VerifyFault _) = .ok found ↔ _
    simp only [Except.ok.injEq, List.forall₂_nil_left_iff, exists_eq_left, List.flatten_nil,
      List.append_nil, Array.toList_inj, eq_comm]
  | cons x extents ih =>
    intro before
    rw [List.foldlM_cons, Except.bind_eq_ok]
    constructor
    · rintro ⟨middle, hwalk, hrest⟩
      obtain ⟨os, hrow, hmiddle⟩ := walkFrom_eq_ok.mp hwalk
      obtain ⟨rows, hrows, hfound⟩ := (ih middle).mp hrest
      refine ⟨os :: rows, .cons hrow hrows, ?_⟩
      rw [hfound, hmiddle, List.flatten_cons, List.append_assoc]
    · rintro ⟨rows, hrows, hfound⟩
      obtain ⟨os, rows, hrow, hrest, rfl⟩ := List.forall₂_cons_left_iff.mp hrows
      rw [List.flatten_cons, ← List.append_assoc] at hfound
      refine ⟨(before.toList ++ os).toArray, walkFrom_eq_ok.mpr ⟨os, hrow, rfl⟩, ?_⟩
      exact (ih _).mpr ⟨rows, hrest, hfound⟩

/-- Objects that tile several extents are found. -/
theorem exists_walkAll {rows : List (Extent × List VerifiedObject)}
    (h : ∀ row ∈ rows, Row heap types slot row.1.bottom row.2 row.1.top) :
    ∃ found, walkAll heap types slot (rows.map Prod.fst) = .ok found ∧
      found.toList = rows.flatMap Prod.snd := by
  refine ⟨(rows.flatMap Prod.snd).toArray, walkAll_eq_ok.mpr ⟨rows.map Prod.snd, ?_, rfl⟩, rfl⟩
  exact List.forall₂_map_left_iff.mpr (List.forall₂_map_right_iff.mpr (List.forall₂_same.mpr h))

/-! ## References -/

/-- The addresses of all objects. -/
theorem contains_starts {objects : Array VerifiedObject} {p : Nat} :
    (objects.foldl (fun s o => s.insert o.address) (∅ : Std.TreeSet Nat)).contains p = true ↔
      ∃ o ∈ objects.toList, o.address = p := by
  rw [← Array.foldl_toList]
  generalize objects.toList = os
  suffices hgen : ∀ s : Std.TreeSet Nat,
      (os.foldl (fun s o => s.insert o.address) s).contains p = true ↔
        s.contains p = true ∨ ∃ o ∈ os, o.address = p by
    rw [hgen, Std.TreeSet.contains_emptyc]
    simp
  induction os with
  | nil => simp
  | cons o os ih =>
    intro s
    rw [List.foldl_cons, ih, Std.TreeSet.contains_insert]
    simp only [Bool.or_eq_true, beq_iff_eq, List.mem_cons, exists_eq_or_imp]
    rw [or_comm (a := compare o.address p = .eq), or_assoc]
    simp

end VerifiedObject

/-- A pass over the elements of a reference array goes from one to the next. -/
theorem TypeKind.foldElements_eq {σ ε : Type} (slot : Nat) (f : σ → Nat → Except ε σ) (n i : Nat)
    (s : σ) : foldElements slot f n i s =
      ((List.range' i n).map fun j => headerSize + j * slot).foldlM f s := by
  induction n generalizing i s with
  | zero => rfl
  | succ n ih =>
    rw [foldElements, List.range'_succ, List.map_cons, List.foldlM_cons]
    cases f s (headerSize + i * slot) with
    | error fault => rfl
    | ok s' => exact ih (i + 1) s'

/-- A pass over the slots of an object is a pass over their offsets. -/
theorem TypeKind.foldReferences_eq {σ ε : Type} (kind : TypeKind) (length : UInt32) (slot : Nat)
    (f : σ → Nat → Except ε σ) (s : σ) :
    kind.foldReferences length slot f s = (kind.referenceOffsets length slot).foldlM f s := by
  cases kind with
  | record fields => rfl
  | scalarArray size => rfl
  | referenceArray =>
    rw [foldReferences, foldElements_eq, referenceOffsets, List.range_eq_range']

/-! ## Reports -/

namespace VerifyReport

/-- The report behind one more slot, which holds null or refers to an object. -/
def addSlot (report : VerifyReport) (isNull : Bool) : VerifyReport :=
  if isNull then { report with nulls := report.nulls + 1 }
  else { report with references := report.references + 1 }

/-- A report counts the references that are null and those that are not. -/
theorem foldl_addSlot (nulls : List Bool) (report : VerifyReport) :
    nulls.foldl addSlot report = ⟨report.objects, report.references + nulls.count false,
      report.nulls + nulls.count true⟩ := by
  induction nulls generalizing report with
  | nil => rfl
  | cons isNull nulls ih =>
    rw [List.foldl_cons, ih]
    cases isNull <;> simp [addSlot, Nat.add_comm, Nat.add_left_comm]

end VerifyReport

/-! ## Members -/

namespace Placed

variable {μ : Type} [Memory μ] {heap : μ} {e : ReferenceEncoding} {x : Placed} {v : Nat → UInt8}
variable {g : ObjectGraph} {r : TypeRegistry} {roots : List ObjectId}
variable {ref : ObjectId → Nat} {native : UInt64 → UInt64}

/-- The object that verification finds where the member is. -/
def verified (x : Placed) : VerifiedObject := ⟨x.offset, x.member.object.header, x.member.type⟩

/-- A member in memory is the object that verification finds at its place. -/
theorem at?_eq (hof : x.member.Of g r roots) (hheld : x.Held e.slotSize ref native v)
    (hshows : Memory.Shows heap v x.offset (x.member.size e.slotSize)) :
    VerifiedObject.at? heap r x.offset = .ok x.verified := by
  have haccepts : x.member.type.kind.acceptsLength x.member.object.header.length = true :=
    SourceObject.acceptsLength hof.fits hof.length_lt
  have htype : r.get? x.member.object.header.typeIndex = some x.member.type := hof.type
  rw [VerifiedObject.at?, readHeader_eq hheld hshows]
  dsimp only
  rw [htype]
  dsimp only
  rw [haccepts]
  rfl

end Placed

namespace Presents

variable {μ : Type} [Memory μ] {heap : μ} {e : ReferenceEncoding} {g : ObjectGraph}
variable {r : TypeRegistry} {roots : List ObjectId} {native : UInt64 → UInt64}
variable {xs ys : List Placed} {ref : ObjectId → Nat} {x : Placed}

/-- Members that stand back to back are found so. -/
theorem row_verified (h : Presents heap e g r roots native xs ref) {start stop : Nat}
    (hrow : Placed.Row e.slotSize start ys stop) (hys : ∀ y ∈ ys, y ∈ xs) :
    VerifiedObject.Row heap r e.slotSize start (ys.map Placed.verified) stop := by
  obtain ⟨v, hv⟩ := h.shows
  refine ⟨Tiles.map (d := 0) hrow (fun _ _ => rfl) fun _ _ => rfl, ?_⟩
  refine List.forall_mem_map.mpr ?_
  intro y hy
  exact Placed.at?_eq (h.of y (hys y hy)) (hv y (hys y hy)).1 (hv y (hys y hy)).2

/-- A reference slot of a member holds null or names a member. -/
theorem checkSlot_eq (h : Presents heap e g r roots native xs ref) {starts : Std.TreeSet Nat}
    (hstarts : ∀ y ∈ xs, starts.contains y.offset = true) (hx : x ∈ xs) {v : Nat → UInt8}
    (hheld : x.Held e.slotSize ref native v)
    (hshows : Memory.Shows heap v x.offset (x.member.size e.slotSize)) {k : Nat}
    (hk : k ∈ x.member.referenceOffsets e.slotSize) (report : VerifyReport) :
    x.verified.checkSlot heap e starts report k =
      .ok (report.addSlot (Bytes.number v (x.offset + k) e.slotSize = 0)) := by
  have hof := h.of x hx
  obtain ⟨c, hc, rfl, target, hvalue⟩ := (hof.mem_referenceOffsets e.isSlotSize).mp hk
  have hwidth := (hof.width_of_reference e.isSlotSize hc hvalue).1
  have hread := Placed.readValue?_cell hof hheld hshows hc (hwidth.symm ▸ e.isSlotSize.pos)
  have hnumber := hheld.cells c hc
  rw [hwidth, hvalue] at hread hnumber
  have haddress : x.verified.address = x.offset := rfl
  rw [VerifiedObject.checkSlot, haddress, hread, hnumber]
  dsimp only
  -- Null is counted as null. The referent of another reference starts where it leads.
  cases target with
  | none => exact if_pos rfl
  | some i =>
    obtain ⟨y, hy, -, hne, hdecode⟩ := h.referents x hx c hc i hvalue
    have hzero : FieldValue.number ref native (.reference (some i)) = ref i := rfl
    rw [hzero, if_neg hne, hdecode, if_pos (hstarts y hy), VerifyReport.addSlot,
      decide_eq_false hne]
    rfl

/-- The slots of a member are counted. -/
theorem checkReferences_eq (h : Presents heap e g r roots native xs ref)
    {starts : Std.TreeSet Nat} (hstarts : ∀ y ∈ xs, starts.contains y.offset = true) (hx : x ∈ xs)
    (report : VerifyReport) : VerifiedObject.checkReferences heap e starts report x.verified =
      .ok ((x.member.nulls e.slotSize).foldl VerifyReport.addSlot report) := by
  obtain ⟨v, hv⟩ := h.shows
  obtain ⟨hheld, hshows⟩ := hv x hx
  rw [VerifiedObject.checkReferences, TypeKind.foldReferences_eq,
    ← Placed.map_referenceOffsets (h.of x hx) e.isSlotSize hheld fun c hc i hvalue =>
      h.ref_ne_zero hx hc hvalue, List.foldl_map]
  exact Except.foldlM_eq_foldl (fun k hk report =>
    h.checkSlot_eq hstarts hx hheld hshows hk report) report

/-- Verification finds the members that are presented, in the order of the extents. -/
theorem exists_walkAll (h : Presents heap e g r roots native xs ref)
    {rows : List (Extent × List Placed)}
    (hrows : ∀ row ∈ rows, Placed.Row e.slotSize row.1.bottom row.2 row.1.top)
    (hxs : (rows.flatMap Prod.snd).Perm xs) :
    ∃ objects, VerifiedObject.walkAll heap r e.slotSize (rows.map Prod.fst) = .ok objects ∧
      objects.toList = (rows.flatMap Prod.snd).map Placed.verified := by
  have hfound : ∀ row ∈ rows.map fun row => (row.1, row.2.map Placed.verified),
      VerifiedObject.Row heap r e.slotSize row.1.bottom row.2 row.1.top := by
    refine List.forall_mem_map.mpr ?_
    intro row hrow
    exact h.row_verified (hrows row hrow) fun y hy =>
      hxs.mem_iff.mp (List.mem_flatMap.mpr ⟨row, hrow, hy⟩)
  obtain ⟨objects, hwalk, hlist⟩ := VerifiedObject.exists_walkAll hfound
  rw [List.map_map] at hwalk
  rw [List.flatMap_map, ← List.map_flatMap] at hlist
  exact ⟨objects, hwalk, hlist⟩

/-- **A heap that presents members** in some extents is accepted, and all members and all their
slots are counted. -/
theorem verifyHeap_eq (h : Presents heap e g r roots native xs ref) (hcheck : e.check = .ok ())
    {rows : List (Extent × List Placed)}
    (hrows : ∀ row ∈ rows, Placed.Row e.slotSize row.1.bottom row.2 row.1.top)
    (hxs : (rows.flatMap Prod.snd).Perm xs) :
    verifyHeap heap r e (rows.map Prod.fst) = .ok ⟨xs.length,
      (xs.flatMap fun x => x.member.nulls e.slotSize).count false,
      (xs.flatMap fun x => x.member.nulls e.slotSize).count true⟩ := by
  have hmem : ∀ {x}, x ∈ rows.flatMap Prod.snd ↔ x ∈ xs := hxs.mem_iff
  obtain ⟨objects, hwalk, hlist⟩ := h.exists_walkAll hrows hxs
  have hstarts : ∀ y ∈ xs, (objects.foldl (fun s o => s.insert o.address)
      (∅ : Std.TreeSet Nat)).contains y.offset = true := by
    intro y hy
    refine VerifiedObject.contains_starts.mpr ⟨y.verified, ?_, rfl⟩
    rw [hlist]
    exact List.mem_map_of_mem (hmem.mpr hy)
  have hreferences : ∀ x ∈ rows.flatMap Prod.snd, ∀ report : VerifyReport,
      VerifiedObject.checkReferences heap e (objects.foldl (fun s o => s.insert o.address) ∅)
        report x.verified = .ok ((x.member.nulls e.slotSize).foldl VerifyReport.addSlot report) :=
    fun x hx report => h.checkReferences_eq hstarts (hmem.mp hx) report
  -- Members may be found in another order, which makes no difference to how many slots hold null.
  have hnulls := hxs.flatMap_right fun x => x.member.nulls e.slotSize
  have hsize : objects.size = xs.length := by
    rw [← Array.length_toList, hlist, List.length_map, hxs.length_eq]
  have hextents : checkExtents heap r e (rows.map Prod.fst) = .ok ⟨xs.length,
      (xs.flatMap fun x => x.member.nulls e.slotSize).count false,
      (xs.flatMap fun x => x.member.nulls e.slotSize).count true⟩ := by
    rw [checkExtents, Except.bind_eq_ok]
    refine ⟨objects, hwalk, ?_⟩
    rw [hlist, List.foldlM_map, Except.foldlM_eq_foldl hreferences, ← List.foldl_flatMap,
      VerifyReport.foldl_addSlot, hnulls.count_eq, hnulls.count_eq, hsize, Nat.zero_add,
      Nat.zero_add]
  rw [verifyHeap, hcheck, hextents]
  rfl

end Presents

/-! ## Dumps -/

namespace Archive

/-- What verification reports of the objects of an archive: all that the header counts, and all
slots that the maps mark. -/
def report (a : Archive) : VerifyReport where
  objects := a.header.objectCount.toNat
  references := a.slotValues.countP (· ≠ 0)
  nulls := a.slotValues.countP (· = 0)

/-- **A heap that presents the members of a dump** is accepted with the counts of the archive. -/
theorem HoldsMembers.verifyHeap_eq {μ : Type} [Memory μ] {heap : μ} {a : Archive}
    {e : ReferenceEncoding} {g : ObjectGraph} {r : TypeRegistry} {roots : List ObjectId}
    {native : Extent} {moveNative : UInt64 → UInt64} {members : Region → List Placed}
    {ref ref' : ObjectId → Nat} {place : Nat → Nat} {rows : List (Extent × List Placed)}
    (hm : a.HoldsMembers g r roots native members ref) (hslot : a.encoding.slotSize = e.slotSize)
    (h : Presents heap e g r roots moveNative (moved members place) ref')
    (hcheck : e.check = .ok ())
    (hrows : ∀ row ∈ rows, Placed.Row e.slotSize row.1.bottom row.2 row.1.top)
    (hmembers : (rows.flatMap Prod.snd).Perm (moved members place)) :
    verifyHeap heap r e (rows.map Prod.fst) = .ok a.report := by
  have hnulls : (moved members place).flatMap (fun x => x.member.nulls e.slotSize) =
      a.slotValues.map fun value => decide (value = 0) := by
    rw [hm.nulls_slotValues, moved, List.flatMap_map, hslot]
    rfl
  have hobjects : (moved members place).length = a.header.objectCount.toNat := by
    rw [moved, List.length_map, hm.objectCount]
    rfl
  rw [h.verifyHeap_eq hcheck hrows hmembers, hnulls, hobjects, report, List.count_eq_countP,
    List.count_eq_countP, List.countP_map, List.countP_map]
  simp [Function.comp_def]

end Archive

end HeapImage
