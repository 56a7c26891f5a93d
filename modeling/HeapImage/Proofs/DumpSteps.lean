import HeapImage.Dump.Session
import HeapImage.Proofs.Linking

/-! # Steps of a dump

What each step of a dump session does when it succeeds: which tests it has passed and which state it
leaves. Later arguments go by these statements and not by the steps themselves.

* `DumpSession.of_runs_allocate`, `of_runs_allocateRoots`, `of_runs_link`: staging.
* `DumpSession.runs_copyOne`, `of_runs_copyRoots`, `of_runs_copy_closed`: copying.
* `DumpSession.of_runs_finalize`, `of_runs_relocate`: addresses. -/

namespace HeapImage.DumpSession

variable {s t : DumpSession} {g : ObjectGraph} {r : TypeRegistry} {roots : List ObjectId}

/-! ## Staging -/

/-- A step behind a test of the phase runs exactly if the test passes and it runs on its own. -/
theorem runs_expect_bind {α : Type} {phase : DumpPhase} {fault : OrderFault} {k : Unit → DumpStep α}
    {a : α} : Runs (expect phase fault >>= k) s a t ↔ s.phase = phase ∧ Runs (k ()) s a t := by
  rw [runs_bind]
  constructor
  · rintro ⟨u, s', hexpect, hk⟩
    rw [expect, runs_get_bind, runs_ite] at hexpect
    rcases hexpect with ⟨-, hthrow⟩ | ⟨hphase, hpure⟩
    · exact absurd hthrow not_runs_throw
    · obtain ⟨rfl, rfl⟩ := runs_pure.mp hpure
      exact ⟨not_not.mp hphase, hk⟩
  · rintro ⟨hphase, hk⟩
    refine ⟨(), s, ?_, hk⟩
    rw [expect, runs_get_bind, runs_ite]
    exact .inr ⟨not_not.mpr hphase, runs_pure.mpr ⟨rfl, rfl⟩⟩

/-- An object that is allocated has been prepared and staged. -/
theorem of_runs_allocate {id : ObjectId} {region : Region} {slot : Nat}
    (h : Runs (allocate g id region) s slot t) :
    ∃ object, s.staging.prepare g s.registry id = .ok object ∧
      t = { s with staging := s.staging.push id region object } := by
  rw [allocate, runs_expect_bind] at h
  obtain ⟨-, h⟩ := h
  rw [runs_get_bind, attempt, runs_ofExcept_bind] at h
  obtain ⟨object, hobject, h⟩ := h
  rw [runs_modify_bind, runs_pure] at h
  exact ⟨object, hobject, h.2⟩

/-- Staging a root array runs exactly if it can be prepared. -/
theorem runs_pushRoots {slot : Nat} :
    Runs (pushRoots roots) s slot t ↔ ∃ array, s.staging.prepareRoots roots = .ok array ∧
      slot = s.staging.size ∧ t = { s with staging := s.staging.pushRoots roots array } := by
  rw [pushRoots, runs_get_bind, attempt, runs_ofExcept_bind]
  simp only [runs_modify_bind, runs_pure]

/-- A root array that is allocated has been prepared and staged. -/
theorem of_runs_allocateRoots {slot : Nat} (h : Runs (allocateRoots roots) s slot t) :
    ∃ array, s.staging.prepareRoots roots = .ok array ∧
      t = { s with staging := s.staging.pushRoots roots array } := by
  rw [allocateRoots, runs_expect_bind] at h
  obtain ⟨array, harray, -, ht⟩ := runs_pushRoots.mp h.2
  exact ⟨array, harray, ht⟩

/-- What linking starts from: a session with a root array, which has no elements if there was no
root array before. -/
inductive GivesRoots (s : DumpSession) : DumpSession → Prop
  | there : s.staging.roots.isSome = true → GivesRoots s s
  | empty {array : ByteArray} : s.staging.roots = none → s.staging.prepareRoots [] = .ok array →
    GivesRoots s { s with staging := s.staging.pushRoots [] array }

/-- Replaces the references of everything staged by identities. -/
def linkStaged (g : ObjectGraph) : DumpStep Unit := do
  let s ← get
  let links ← attempt (s.staging.links g s.registry)
  let (result, staging) := s.staging.applyLinks links
  modify fun s => { s with staging := staging }
  attempt result
  modify fun s => { s with phase := .linked }

/-- Linking, with the root array that is added if none was listed. -/
theorem link_eq (g : ObjectGraph) : link g = expect .staging .linkedTwice >>= fun _ =>
    get >>= fun s => if s.staging.roots.isNone then discard (pushRoots []) >>= fun _ => linkStaged g
      else linkStaged g :=
  rfl

/-- Linking runs exactly if all links are found and can be written. -/
theorem runs_linkStaged {u : Unit} :
    Runs (linkStaged g) s u t ↔ ∃ links staging, s.staging.links g s.registry = .ok links ∧
      s.staging.applyLinks links = (.ok (), staging) ∧
      t = { s with staging := staging, phase := .linked } := by
  rw [linkStaged, runs_get_bind, attempt, runs_ofExcept_bind]
  constructor
  · rintro ⟨links, hlinks, h⟩
    cases happly : s.staging.applyLinks links with
    | mk result staging =>
      rw [happly] at h
      dsimp only at h
      rw [runs_modify_bind, attempt, runs_ofExcept_bind] at h
      obtain ⟨u, rfl, h⟩ := h
      rw [runs_modify] at h
      exact ⟨links, staging, hlinks, happly, h⟩
  · rintro ⟨links, staging, hlinks, happly, rfl⟩
    refine ⟨links, hlinks, ?_⟩
    rw [happly]
    dsimp only
    rw [runs_modify_bind, attempt, runs_ofExcept_bind]
    exact ⟨(), rfl, runs_modify.mpr rfl⟩

/-- Linking writes the links of everything staged. -/
theorem of_runs_link {u : Unit} (h : Runs (link g) s u t) :
    ∃ s' links staging, s.GivesRoots s' ∧ s'.staging.links g s'.registry = .ok links ∧
      s'.staging.applyLinks links = (.ok (), staging) ∧
      t = { s' with staging := staging, phase := .linked } := by
  rw [link_eq, runs_expect_bind] at h
  obtain ⟨-, h⟩ := h
  rw [runs_get_bind, runs_ite, runs_bind] at h
  rcases h with ⟨hnone, a, s', hpush, h⟩ | ⟨hsome, h⟩
  · obtain ⟨slot, hpush⟩ := runs_discard.mp hpush
    obtain ⟨array, harray, -, rfl⟩ := runs_pushRoots.mp hpush
    obtain ⟨links, staging, hlinked⟩ := runs_linkStaged.mp h
    exact ⟨_, links, staging, .empty (Option.isNone_iff_eq_none.mp hnone) harray, hlinked⟩
  · rw [← Option.not_isSome, Bool.not_eq_true', Bool.not_eq_false] at hsome
    obtain ⟨links, staging, hlinked⟩ := runs_linkStaged.mp h
    exact ⟨s, links, staging, .there hsome, hlinked⟩

/-! ## Copying -/

/-- Copying a part runs exactly if it crosses no boundary. -/
theorem runs_copyOne {slot size : Nat} {u : Unit} :
    Runs (copyOne slot size) s u t ↔
      checkBoundary s.options.alignment s.output.size size = .ok () ∧ t = s.append slot size := by
  rw [copyOne, runs_get_bind, attempt, runs_ofExcept_bind]
  simp only [runs_modify]
  constructor
  · rintro ⟨u, hcheck, h⟩
    exact ⟨hcheck, h⟩
  · rintro ⟨hcheck, h⟩
    exact ⟨(), hcheck, h⟩

/-- The boundary check passes exactly if the first and the last byte lie between the same multiples.
-/
theorem checkBoundary_eq_ok {alignment offset size : Nat} {u : Unit} :
    checkBoundary alignment offset size = .ok u ↔
      alignDown offset alignment = alignDown (offset + size - 1) alignment := by
  rw [checkBoundary]
  split
  · rename_i h
    simp only [reduceCtorEq, false_iff]
    exact h
  · rename_i h
    simp only [true_iff]
    exact not_not.mp h

/-- The objects of a region, in the order in which they were staged. -/
def stagedIn (s : DumpSession) (region : Region) : List StagedObject :=
  s.staging.objects.toList.filter fun o => o.region = region

/-- Something in the staging buffer that is copied as a whole. -/
structure StagedPart where
  slot : Nat
  size : Nat
  deriving DecidableEq, Repr

/-- Copies one part to the output. -/
def copyPart (p : StagedPart) : DumpStep Unit := copyOne p.slot p.size

/-- Copying the objects of a region is copying their parts. -/
theorem forM_stagedIn (s : DumpSession) (region : Region) :
    ((s.stagedIn region).forM fun o => copyOne o.slot o.size) =
      ((s.stagedIn region).map fun o => (⟨o.slot, o.size⟩ : StagedPart)).forM copyPart :=
  (forM_map (f := copyPart) (k := fun o : StagedObject => ⟨o.slot, o.size⟩)).symm

/-- The session once the root array, copied to an offset, has ended the open region: what is left up
to the next boundary is zero. -/
def endOpen (s : DumpSession) (rootOffset : Nat) : DumpSession :=
  { s with
    rootOffset := rootOffset
    openTop := s.output.size
    closedBottom := alignUp s.output.size s.options.alignment
    output := Bytes.resize s.output (alignUp s.output.size s.options.alignment)
    phase := .openCopied }

/-- The session once the closed region is complete. -/
def endClosed (s : DumpSession) : DumpSession :=
  { s with closedTop := s.output.size, phase := .copied }

/-- The open region is copied with the root array behind its objects. -/
theorem of_runs_copy_opened {u : Unit} (h : Runs (copy .opened) s u t) :
    ∃ s' roots s'', Runs ((s.stagedIn .opened).forM fun o => copyOne o.slot o.size) s () s' ∧
      s'.staging.roots = some roots ∧ Runs (copyOne roots.slot roots.size) s' () s'' ∧
      t = s''.endOpen s'.output.size := by
  rw [copy, runs_expect_bind, runs_bind] at h
  obtain ⟨-, u', s', hobjects, h⟩ := h
  rw [copyObjects, runs_get_bind] at hobjects
  rw [copyRoots, runs_get_bind] at h
  split at h
  · exact absurd h not_runs_throw
  · rename_i roots hroots
    rw [runs_bind] at h
    obtain ⟨u'', s'', hone, h⟩ := h
    rw [runs_get_bind, runs_modify_bind, runs_guard, runs_modify] at h
    refine ⟨s', roots, s'', hobjects, hroots, hone, ?_⟩
    obtain ⟨-, rfl⟩ := runs_copyOne.mp hone
    exact h.2

/-- A copy of the closed region has copied its objects and noted its end. -/
theorem of_runs_copy_closed {u : Unit} (h : Runs (copy .closed) s u t) :
    ∃ s', Runs ((s.stagedIn .closed).forM fun o => copyOne o.slot o.size) s () s' ∧
      t = s'.endClosed := by
  rw [copy, runs_expect_bind, runs_bind] at h
  obtain ⟨-, u', s', hobjects, h⟩ := h
  rw [copyObjects, runs_get_bind] at hobjects
  rw [runs_modify] at h
  exact ⟨s', hobjects, h⟩

/-! ## Addresses -/

/-- Finalizing plans the addresses, checks them and fills the output up. -/
theorem of_runs_finalize {requested : RequestedRegions} (h : Runs finalize s requested t) :
    s.plan = .ok requested ∧ s.checkAddresses requested = .ok () ∧
      t = { s with
        output := Bytes.resize s.output s.imageSize
        requested := some requested
        phase := .finalized } := by
  rw [finalize, runs_expect_bind] at h
  obtain ⟨-, h⟩ := h
  rw [runs_get_bind, attempt, runs_ofExcept_bind] at h
  obtain ⟨requested', hplan, h⟩ := h
  rw [attempt, runs_ofExcept_bind] at h
  obtain ⟨u, hcheck, h⟩ := h
  rw [runs_modify_bind, runs_pure] at h
  obtain ⟨rfl, h⟩ := h
  exact ⟨hplan, hcheck, h⟩

/-- Relocation only touches the output and its record of slots. -/
theorem of_runs_relocate {u : Unit} (h : Runs relocate s u t) :
    ∃ requested done, s.requested = some requested ∧
      Runs (s.placements.toList.forM
          (relocateObject { s with output := ByteArray.empty } requested))
        ⟨s.output, BitMap.empty (s.output.size / s.slotSize)⟩ () done ∧
      t = { s with
        output := done.output
        recorded := some done.recorded
        phase := .relocated } := by
  rw [relocate, runs_expect_bind] at h
  obtain ⟨-, h⟩ := h
  rw [runs_get_bind] at h
  split at h
  · exact absurd h not_runs_throw
  · rename_i requested hrequested
    rw [runs_modifyGet_bind] at h
    dsimp only at h
    split at h
    rename_i result done hrun
    rw [runs_modify_bind, attempt, runs_ofExcept_bind] at h
    obtain ⟨u', rfl, h⟩ := h
    rw [runs_modify] at h
    exact ⟨requested, done, hrequested, hrun, h⟩

end HeapImage.DumpSession
