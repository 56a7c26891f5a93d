import HeapImage.Archive.File
import HeapImage.Proofs.DumpSteps
import HeapImage.Proofs.ImageLayout
import HeapImage.Proofs.NamelessFailures

/-! # Dumps under other numbers

The numbers of objects say how a graph and a selection refer to them, and nothing else. A dump of a
graph under other numbers is compared with the dump of the graph as it was, step by step: up to
linking the buffers differ in the numbers that they keep, and from then on nothing depends on those.

* `StagingBuffer.Renumbers`: two buffers that differ in the numbers of objects.
* `DumpSession.Twins`, `DumpSession.alike_allocate`, …: two sessions, and every step keeps them so.
* `Archive.dump_renumbers`: dumps of graphs that have what is selected under numbers of their own.
* `Archive.toBytes_dump_renumber`: permuted numbers, and objects that are not selected. -/

namespace HeapImage

variable {f : ObjectId → ObjectId} {g g' : ObjectGraph}

/-! ## Staging -/

/-- A staged object under another number. -/
def StagedObject.rename (f : ObjectId → ObjectId) (o : StagedObject) : StagedObject :=
  { o with source := f o.source }

/-- A staged root array of objects under other numbers. -/
def StagedRoots.rename (f : ObjectId → ObjectId) (x : StagedRoots) : StagedRoots :=
  { x with roots := x.roots.map f }

namespace StagingBuffer

/-- The buffers differ in the numbers of their objects only, and the graphs have those objects under
these numbers. -/
structure Renumbers (f : ObjectId → ObjectId) (g g' : ObjectGraph) (b b' : StagingBuffer) :
    Prop where
  capacity : b'.capacity = b.capacity
  slotSize : b'.slotSize = b.slotSize
  alignment : b'.alignment = b.alignment
  bytes : b'.bytes = b.bytes
  objects : b'.objects.toList = b.objects.toList.map (.rename f)
  slotOf : ∀ id, b'.slotOf? (f id) = b.slotOf? id
  roots : b'.roots = b.roots.map (.rename f)
  carried : ∀ o ∈ b.objects.toList, g.CarriesOver f g' o.source

/-- Empty buffers hold the same under any numbers. -/
theorem renumbers_empty (capacity slotSize alignment : Nat) :
    Renumbers f g g' (empty capacity slotSize alignment) (empty capacity slotSize alignment) where
  capacity := rfl
  slotSize := rfl
  alignment := rfl
  bytes := rfl
  objects := rfl
  slotOf id := by simp [slotOf?, empty]
  roots := rfl
  carried o ho := nomatch ho

namespace Renumbers

variable {b b' : StagingBuffer} {r : TypeRegistry} (h : Renumbers f g g' b b')

include h

/-- Renumbered buffers are of one size. -/
theorem size : b'.size = b.size := congrArg ByteArray.size h.bytes

/-- There is as much room under other numbers. -/
theorem checkRoom (size : Nat) : b'.checkRoom size = b.checkRoom size := by
  rw [StagingBuffer.checkRoom, StagingBuffer.checkRoom, h.capacity, h.size]

/-- **Preparing an object** gives the same bytes, or fails in the same way. -/
theorem prepare {id : ObjectId} (hid : g.CarriesOver f g' id) :
    b'.prepare g' r (f id) = (b.prepare g r id).mapError (.rename f) := by
  rw [StagingBuffer.prepare, StagingBuffer.prepare, h.slotOf, h.slotSize, h.alignment]
  refine Except.guard_eq_mapError rfl (Except.bind_map_eq_mapError (hid.check r) ?_)
  rintro ⟨o, type⟩
  dsimp only [Prod.map]
  rw [o.payload_rename, Payload.length_rename, SourceObject.toBytes_rename, h.checkRoom]
  refine Except.guard_eq_mapError rfl (Except.guard_eq_mapError rfl ?_)
  exact Except.bind_eq_mapError (b.nameless_checkRoom _ f).symm fun _ => rfl

/-- Other numbers stay apart, so a new object is found under its own number. -/
theorem push (hf : Function.Injective f) {id : ObjectId} (hid : g.CarriesOver f g' id)
    (region : Region) (object : ByteArray) :
    Renumbers f g g' (b.push id region object) (b'.push (f id) region object) where
  capacity := h.capacity
  slotSize := h.slotSize
  alignment := h.alignment
  bytes := congrArg (· ++ object) h.bytes
  objects := by
    rw [StagingBuffer.push, StagingBuffer.push, Array.toList_push, Array.toList_push, h.objects,
      h.size, List.map_append]
    rfl
  slotOf id' := by
    -- The table of slots is keyed by numbers, which stay apart.
    have hslot := h.slotOf id'
    rw [slotOf?, slotOf?] at hslot
    rw [slotOf?, slotOf?, StagingBuffer.push, StagingBuffer.push, Std.TreeMap.getElem?_insert,
      Std.TreeMap.getElem?_insert, hslot, h.size]
    simp only [Std.LawfulEqCmp.compare_eq_iff_eq, key_inj, hf.eq_iff]
  roots := h.roots
  carried := by
    rw [StagingBuffer.push, Array.toList_push]
    exact List.forall_mem_append.mpr ⟨h.carried, List.forall_mem_singleton.mpr hid⟩

/-- A root array under other numbers has the same bytes. -/
theorem prepareRoots (roots : List ObjectId) :
    b'.prepareRoots (roots.map f) = (b.prepareRoots roots).mapError (.rename f) := by
  rw [b.nameless_prepareRoots, StagingBuffer.prepareRoots, StagingBuffer.prepareRoots, h.roots,
    Option.isSome_map, List.length_map, h.slotSize, h.alignment]
  simp only [h.checkRoom]

/-- Staging a root array keeps buffers renumbered. -/
theorem pushRoots (roots : List ObjectId) (array : ByteArray) :
    Renumbers f g g' (b.pushRoots roots array) (b'.pushRoots (roots.map f) array) where
  capacity := h.capacity
  slotSize := h.slotSize
  alignment := h.alignment
  bytes := congrArg (· ++ array) h.bytes
  objects := h.objects
  slotOf := h.slotOf
  roots := by
    rw [StagingBuffer.pushRoots, StagingBuffer.pushRoots, h.size]
    rfl
  carried := h.carried

/-! ### Links -/

/-- A link leads to the same place whatever the number of the referent. -/
theorem linkTo (referrer : ObjectId) (offset : Nat) (target : Option ObjectId) :
    b'.linkTo (f referrer) offset (target.map f) =
      (b.linkTo referrer offset target).mapError (.rename f) := by
  cases target with
  | none => rfl
  | some referent =>
    rw [Option.map_some, StagingBuffer.linkTo, StagingBuffer.linkTo, h.slotOf]
    cases b.slotOf? referent <;> rfl

/-- An object has the same links under other numbers. -/
theorem linksOf {o : StagedObject} (ho : g.CarriesOver f g' o.source) :
    b'.linksOf g' r (o.rename f) = (b.linksOf g r o).mapError (.rename f) := by
  rw [StagingBuffer.linksOf, StagingBuffer.linksOf, h.slotSize]
  refine Except.bind_map_eq_mapError (ho.resolve r) ?_
  rintro ⟨source, type⟩
  dsimp only [Prod.map]
  rw [referencesOf_rename, List.mapM_map]
  refine Except.bind_eq_mapError ?_ fun _ => rfl
  exact Except.mapM_mapError fun x _ => h.linkTo o.source (o.slot + x.1) x.2

/-- So has a root array. -/
theorem rootLinks (roots : StagedRoots) :
    b'.rootLinks (roots.rename f) = (b.rootLinks roots).mapError (.rename f) := by
  rw [StagingBuffer.rootLinks, StagingBuffer.rootLinks, StagedRoots.rename, List.zipIdx_map,
    List.mapM_map, h.slotSize]
  refine Except.mapM_mapError fun x _ => ?_
  dsimp only [Function.comp_apply, Prod.map]
  rw [h.slotOf]
  cases b.slotOf? x.1 <;> rfl

/-- **The links are the same** under all numbers. -/
theorem links : b'.links g' r = (b.links g r).mapError (.rename f) := by
  -- The objects come first, so the referent that is missing first is the same one.
  rw [StagingBuffer.links, StagingBuffer.links, h.objects, List.mapM_map, h.roots]
  refine Except.bind_eq_mapError (Except.mapM_mapError fun o ho => h.linksOf (h.carried o ho)) ?_
  intro links
  cases b.roots with
  | none => rfl
  | some roots => exact Except.bind_eq_mapError (h.rootLinks roots) fun _ => rfl

/-- Writing links keeps buffers renumbered, also where it fails. -/
theorem applyLinks (links : List Link) :
    (b'.applyLinks links).1 = (b.applyLinks links).1.mapError (.rename f) ∧
      Renumbers f g g' (b.applyLinks links).2 (b'.applyLinks links).2 := by
  have hwrite : writeLinks b'.slotSize b'.bytes links = writeLinks b.slotSize b.bytes links := by
    rw [h.slotSize, h.bytes]
  constructor
  · have hnameless : Nameless (b.applyLinks links).1 := nameless_mapError (fun _ _ => rfl) _
    rw [hnameless]
    exact congrArg (fun written => written.1.mapError ArchiveError.bounds) hwrite
  · exact { h with bytes := congrArg Prod.snd hwrite }

end Renumbers

end StagingBuffer

/-! ## Sessions -/

namespace DumpSession

open StagingBuffer (Renumbers)

/-- Two sessions that differ in the numbers of staged objects only. -/
inductive Twins (f : ObjectId → ObjectId) (g g' : ObjectGraph) (s : DumpSession) :
    DumpSession → Prop
  | mk {staging : StagingBuffer} (h : Renumbers f g g' s.staging staging) :
    Twins f g g' s { s with staging := staging }

variable {s s' : DumpSession} (h : Twins f g g' s s')

include h

/-- A test of the phase is alike. -/
theorem alike_expect (phase : DumpPhase) (fault : OrderFault) :
    Alike (.rename f) (Twins f g g') (expect phase fault) (expect phase fault) s s' := by
  obtain ⟨hstaging⟩ := h
  refine alike_get_bind (alike_ite (fun _ => ?_) fun _ => ?_)
  · exact alike_throw ⟨hstaging⟩ rfl
  · exact alike_pure ⟨hstaging⟩ rfl

/-- **Staging an object** under its other number leads to the same slot. -/
theorem alike_allocate (hf : Function.Injective f) {id : ObjectId} (hid : g.CarriesOver f g' id)
    (region : Region) :
    Alike (.rename f) (Twins f g g') (allocate g id region) (allocate g' (f id) region) s s' := by
  refine alike_bind (alike_expect h _ _) ?_
  rintro _ t _ ⟨hstaging⟩
  refine alike_get_bind (alike_ofExcept_bind ⟨hstaging⟩ (hstaging.prepare hid) fun object _ => ?_)
  refine alike_modify_bind (alike_pure ?_ hstaging.size)
  exact ⟨hstaging.push hf hid region object⟩

/-- Staging a root array is alike. -/
theorem alike_pushRoots (roots : List ObjectId) :
    Alike (.rename f) (Twins f g g') (pushRoots roots) (pushRoots (roots.map f)) s s' := by
  obtain ⟨hstaging⟩ := h
  refine alike_get_bind (alike_ofExcept_bind ⟨hstaging⟩ (hstaging.prepareRoots roots) ?_)
  intro array _
  exact alike_modify_bind (alike_pure ⟨hstaging.pushRoots roots array⟩ hstaging.size)

/-- Allocating a root array is alike. -/
theorem alike_allocateRoots (roots : List ObjectId) :
    Alike (.rename f) (Twins f g g') (allocateRoots roots) (allocateRoots (roots.map f)) s s' :=
  alike_bind (alike_expect h _ _) fun _ _ _ ht => alike_pushRoots ht roots

/-- **Linking** finds the same places for all referents, or it misses the same one. -/
theorem alike_linkStaged :
    Alike (.rename f) (Twins f g g') (linkStaged g) (linkStaged g') s s' := by
  obtain ⟨hstaging⟩ := h
  refine alike_get_bind (alike_ofExcept_bind ⟨hstaging⟩ hstaging.links fun links _ => ?_)
  obtain ⟨hresult, hlinked⟩ := hstaging.applyLinks links
  exact alike_modify_bind
    (alike_ofExcept_bind ⟨hlinked⟩ hresult fun _ _ => alike_modify ⟨hlinked⟩)

/-- Linking is alike. -/
theorem alike_link : Alike (.rename f) (Twins f g g') (link g) (link g') s s' := by
  rw [link_eq, link_eq]
  refine alike_bind (alike_expect h _ _) ?_
  rintro _ t _ ⟨hstaging⟩
  refine alike_get_bind ?_
  dsimp only
  rw [hstaging.roots, Option.isNone_map]
  refine alike_ite (fun _ => ?_) fun _ => alike_linkStaged ⟨hstaging⟩
  exact alike_bind (alike_discard (alike_pushRoots ⟨hstaging⟩ [])) fun _ _ _ => alike_linkStaged

/-! ### Copying -/

/-- Copying a part is alike. -/
theorem alike_copyOne (slot size : Nat) :
    Alike (.rename f) (Twins f g g') (copyOne slot size) (copyOne slot size) s s' := by
  obtain ⟨hstaging⟩ := h
  refine alike_get_bind (alike_ofExcept_bind ⟨hstaging⟩ (nameless_checkBoundary _ _ _ f).symm ?_)
  refine fun _ _ => alike_modify ?_
  rw [append, append, hstaging.bytes]
  exact ⟨hstaging⟩

/-- Copying the objects of a region is alike. -/
theorem alike_copyObjects (region : Region) :
    Alike (.rename f) (Twins f g g') (copyObjects region) (copyObjects region) s s' := by
  obtain ⟨hstaging⟩ := h
  refine alike_get_bind ?_
  dsimp only
  -- Which objects are copied, and in which order, is up to their regions and their slots.
  rw [hstaging.objects, List.filter_map, forM_map]
  exact alike_forM ⟨hstaging⟩ fun o _ _ _ ht => alike_copyOne ht o.slot o.size

/-- Copying the root array is alike. -/
theorem alike_copyRoots : Alike (.rename f) (Twins f g g') copyRoots copyRoots s s' := by
  obtain ⟨hstaging⟩ := h
  refine alike_get_bind ?_
  dsimp only
  rw [hstaging.roots]
  cases s.staging.roots with
  | none => exact alike_throw ⟨hstaging⟩ rfl
  | some roots =>
    refine alike_bind (alike_copyOne ⟨hstaging⟩ roots.slot roots.size) ?_
    rintro _ t _ ⟨hstaging⟩
    refine alike_get_bind (alike_modify_bind (alike_guard ⟨hstaging⟩ rfl fun _ => ?_))
    exact alike_modify ⟨hstaging⟩

/-- **Copying** takes the same parts of the buffer, in the same order. -/
theorem alike_copy (region : Region) :
    Alike (.rename f) (Twins f g g') (copy region) (copy region) s s' := by
  cases region with
  | opened =>
    refine alike_bind (alike_expect h _ _) fun _ t t' ht => ?_
    exact alike_bind (alike_copyObjects ht .opened) fun _ _ _ => alike_copyRoots
  | closed =>
    refine alike_bind (alike_expect h _ _) fun _ t t' ht => ?_
    refine alike_bind (alike_copyObjects ht .closed) ?_
    rintro _ t _ ⟨hstaging⟩
    exact alike_modify ⟨hstaging⟩

/-! ### Addresses -/

/-- Finalizing is alike. -/
theorem alike_finalize : Alike (.rename f) (Twins f g g') finalize finalize s s' := by
  refine alike_bind (alike_expect h _ _) ?_
  rintro _ t _ ⟨hstaging⟩
  refine alike_get_bind (alike_ofExcept_bind ⟨hstaging⟩ (t.nameless_plan f).symm ?_)
  intro requested _
  refine alike_ofExcept_bind ⟨hstaging⟩ (t.nameless_checkAddresses requested f).symm fun _ _ => ?_
  exact alike_modify_bind (alike_pure ⟨hstaging⟩ rfl)

/-- **Relocation** does not look at the buffer any more. -/
theorem alike_relocate : Alike (.rename f) (Twins f g g') relocate relocate s s' := by
  refine alike_bind (alike_expect h _ _) fun _ t t' ht => alike_get_bind ?_
  have hrequested : t'.requested = t.requested := by
    obtain ⟨-⟩ := ht
    rfl
  rw [hrequested]
  cases t.requested with
  | none => exact alike_throw ht rfl
  | some requested =>
    obtain ⟨hstaging⟩ := ht
    refine alike_modifyGet_bind (alike_modify_bind ?_)
    -- The steps are the same in both sessions: they read everything but the buffer.
    have hdone : Alike (.rename f) (· = ·)
        (t.placements.toList.forM (relocateObject { t with output := .empty } requested))
        (t.placements.toList.forM (relocateObject { t with output := .empty } requested))
        ⟨t.output, BitMap.empty (t.output.size / t.slotSize)⟩
        ⟨t.output, BitMap.empty (t.output.size / t.slotSize)⟩ := by
      refine alike_forM rfl ?_
      rintro p - u _ rfl
      exact alike_relocateObject f u p
    exact alike_ofExcept_bind ⟨hstaging⟩ hdone.result fun _ _ => alike_modify ⟨hstaging⟩

end DumpSession

/-! ## Dumps -/

namespace Archive

open DumpSession (Twins)

/-- **All steps of a dump** end alike if each selected object is found under its other number. -/
theorem alike_dumpSteps (hf : Function.Injective f) {selection : Selection}
    (hselected : ∀ entry ∈ selection.entries, g.CarriesOver f g' entry.1) {s s' : DumpSession}
    (h : Twins f g g' s s') :
    Alike (.rename f) (Twins f g g') (dumpSteps g selection) (dumpSteps g' (selection.rename f))
      s s' := by
  refine alike_bind ?_ fun _ _ _ h => ?_
  · rw [Selection.rename, forM_map]
    exact alike_forM h fun entry hentry _ _ ht =>
      alike_discard (DumpSession.alike_allocate ht hf (hselected entry hentry) entry.2)
  refine alike_bind (alike_discard (DumpSession.alike_allocateRoots h _)) fun _ _ _ h => ?_
  refine alike_bind (DumpSession.alike_link h) fun _ _ _ h => ?_
  refine alike_bind (DumpSession.alike_copy h .opened) fun _ _ _ h => ?_
  refine alike_bind (DumpSession.alike_copy h .closed) fun _ _ _ h => ?_
  refine alike_bind (alike_discard (DumpSession.alike_finalize h)) fun _ _ _ h => ?_
  exact DumpSession.alike_relocate h

/-- The archive of a session does not show the buffer. -/
theorem ofSession_twins {s s' : DumpSession} (h : Twins f g g' s s') :
    ofSession s' = (ofSession s).mapError (.rename f) := by
  rw [nameless_ofSession]
  obtain ⟨-⟩ := h
  rfl

/-- **Dumps of graphs that have the selected objects under numbers of their own.** Both give the
same archive, or both fail for the same cause. -/
theorem dump_renumbers (hf : Function.Injective f) {selection : Selection}
    (hselected : ∀ entry ∈ selection.entries, g.CarriesOver f g' entry.1) (r : TypeRegistry)
    (options : DumpOptions) :
    dump r g' (selection.rename f) options =
      (dump r g selection options).mapError (.rename f) := by
  rw [dump, dump, DumpSession.start?, bind_assoc, bind_assoc]
  refine Except.bind_eq_mapError (options.nameless_check f).symm fun _ => ?_
  have hstart : Twins f g g' (.start r options) (.start r options) :=
    ⟨StagingBuffer.renumbers_empty _ _ _⟩
  obtain ⟨hresult, htwins⟩ := alike_dumpSteps hf hselected hstart
  rw [pure_bind, pure_bind]
  exact Except.bind_eq_mapError hresult fun _ => ofSession_twins htwins

/-- Errors under the same numbers are the same. -/
theorem mapError_rename_id {α : Type} (r : Except ArchiveError α) :
    r.mapError (.rename id) = r := by
  cases r with
  | error e => exact congrArg Except.error e.rename_id
  | ok a => rfl

/-- **The numbers of objects do not show in a dump.** If they are permuted, in the graph as well as
in the selection, then the file has the same bytes, or the dump fails for the same cause; a cause
that names an object names it by the new number. Objects that are added to the graph and not
selected change nothing. -/
theorem toBytes_dump_renumber (r : TypeRegistry) (g : ObjectGraph) (selection : Selection)
    (options : DumpOptions) :
    (∀ π : Equiv.Perm ObjectId, (∀ id, (π id).key < g.size ↔ id.key < g.size) →
      (dump r (g.renumber π) (selection.rename π) options).map toBytes =
        ((dump r g selection options).map toBytes).mapError (.rename π)) ∧
    ∀ more : List SourceObject,
      (∀ entry ∈ selection.entries,
        ¬ (g.size ≤ entry.1.key ∧ entry.1.key < g.size + more.length)) →
      (dump r (more.foldl .add g) selection options).map toBytes =
        (dump r g selection options).map toBytes := by
  constructor
  · intro π hπ
    rw [dump_renumbers π.injective (fun entry _ => ObjectGraph.get?_renumber hπ entry.1)]
    cases dump r g selection options <;> rfl
  · intro more hmore
    -- What is selected has the same number and the same object in the larger graph.
    have hselected : ∀ entry ∈ selection.entries, g.CarriesOver id (more.foldl .add g) entry.1 := by
      intro entry hentry
      rw [ObjectGraph.CarriesOver, id, ObjectGraph.get?_foldl_add (hmore entry hentry)]
      cases g.get? entry.1 with
      | none => rfl
      | some o => rw [Option.map_some, o.rename_id]
    have hdump := dump_renumbers Function.injective_id hselected r options
    rw [selection.rename_id, mapError_rename_id] at hdump
    rw [hdump]

/-- The two pairs of a cycle trade their numbers, and a third one is added. -/
theorem toBytes_dump_renumber_cycle : ∃ bytes,
    (dump .pairs .cycle .cycle .small).map toBytes = .ok bytes ∧
    ObjectGraph.cycle.renumber (Equiv.swap ⟨0⟩ ⟨1⟩) ≠ .cycle ∧
    (dump .pairs (ObjectGraph.cycle.renumber (Equiv.swap ⟨0⟩ ⟨1⟩))
      (Selection.cycle.rename (Equiv.swap ⟨0⟩ ⟨1⟩)) .small).map toBytes = .ok bytes ∧
    (dump .pairs ([⟨1, 0, .fields [.reference none, .native 0]⟩].foldl .add .cycle) .cycle
      .small).map toBytes = .ok bytes := by
  obtain ⟨a, ha⟩ := exists_dump_cycle
  obtain ⟨hrenumber, hadd⟩ := toBytes_dump_renumber .pairs .cycle .cycle .small
  have hswap : ∀ id, (Equiv.swap (⟨0⟩ : ObjectId) ⟨1⟩ id).key < ObjectGraph.cycle.size ↔
      id.key < ObjectGraph.cycle.size := by
    intro id
    by_cases hzero : id = ⟨0⟩
    · subst hzero
      decide
    by_cases hone : id = ⟨1⟩
    · subst hone
      decide
    rw [Equiv.swap_apply_of_ne_of_ne hzero hone]
  refine ⟨a.toBytes, by rw [ha]; rfl, by decide, ?_, ?_⟩
  · rw [hrenumber _ hswap, ha]
    rfl
  · rw [hadd _ (by decide), ha]
    rfl

end Archive

end HeapImage
