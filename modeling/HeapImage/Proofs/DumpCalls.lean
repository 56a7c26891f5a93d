import HeapImage.Proofs.DumpSteps

/-! # Calls of a dump session

The steps of a dump can be called in any order, and a call that fails leaves a session that can be
called again. Here is all that a single call can do; what holds of sequences of calls follows from
it by cases.

* `DumpCall`, `DumpCall.step`: the calls.
* `DumpSession.Leads`: what a call makes of a session, whether it succeeds or fails.
* `DumpSession.leads_of_runs`, `DumpSession.leads_of_fails`: calls do nothing else.
* `DumpSession.performAll`, `DumpSession.phase_of_performAll`: sequences of calls, and which of them
  have succeeded. -/

namespace HeapImage

/-- A call of a dump session. -/
inductive DumpCall where
  | allocate (id : ObjectId) (region : Region)
  | allocateRoots (roots : List ObjectId)
  | link
  | copy (region : Region)
  | finalize
  | relocate
  deriving DecidableEq, Repr

namespace DumpCall

/-- The step that a call over a graph takes. -/
def step (g : ObjectGraph) : DumpCall → DumpStep Unit
  | allocate id region => discard (DumpSession.allocate g id region)
  | allocateRoots roots => discard (DumpSession.allocateRoots roots)
  | link => DumpSession.link g
  | copy region => DumpSession.copy region
  | finalize => discard DumpSession.finalize
  | relocate => DumpSession.relocate

/-- The phase that a call belongs to. -/
def phase : DumpCall → DumpPhase
  | allocate _ _ | allocateRoots _ | link => .staging
  | copy .opened => .linked
  | copy .closed => .openCopied
  | finalize => .copied
  | relocate => .finalized

/-- The phase behind a call that succeeds. -/
def next : DumpCall → DumpPhase
  | allocate _ _ | allocateRoots _ => .staging
  | link => .linked
  | copy .opened => .openCopied
  | copy .closed => .copied
  | finalize => .finalized
  | relocate => .relocated

/-- The call ends its phase. -/
def advances (c : DumpCall) : Bool := c.next ≠ c.phase

end DumpCall

/-- The calls that lead to a phase. -/
def DumpPhase.trace : DumpPhase → List DumpCall
  | staging => []
  | linked => [.link]
  | openCopied => [.link, .copy .opened]
  | copied => [.link, .copy .opened, .copy .closed]
  | finalized => [.link, .copy .opened, .copy .closed, .finalize]
  | relocated => [.link, .copy .opened, .copy .closed, .finalize, .relocate]

/-- A phase is known by the steps that lead to it. -/
theorem DumpPhase.trace_inj {p q : DumpPhase} : p.trace = q.trace ↔ p = q := by
  cases p <;> cases q <;> decide

/-- A call that ends its phase continues the calls that lead there. -/
theorem DumpCall.trace_next (c : DumpCall) :
    c.next.trace = c.phase.trace ++ [c].filter advances := by
  rcases c with _ | _ | _ | (_ | _) | _ | _ <;> rfl

namespace DumpSession

variable {s t : DumpSession} {g : ObjectGraph} {c : DumpCall} {e : ArchiveError}

/-! ## Parts of a region -/

/-- What a region takes from the staging buffer, in the order in which it is copied: its objects,
and the root array behind those of the open region. -/
def parts (s : DumpSession) (region : Region) : List StagedPart :=
  (s.stagedIn region).map (fun o => ⟨o.slot, o.size⟩) ++
    match region with
    | .opened => (s.staging.roots.map fun roots => ⟨roots.slot, roots.size⟩).toList
    | .closed => []

/-- The session with some parts appended to its output. -/
def appendAll (s : DumpSession) (parts : List StagedPart) : DumpSession :=
  parts.foldl (fun s p => s.append p.slot p.size) s

/-- Copying parts appends all of them. -/
theorem eq_appendAll_of_runs {parts : List StagedPart} {u : Unit}
    (h : Runs (parts.forM copyPart) s u t) : t = s.appendAll parts := by
  induction parts generalizing s with
  | nil => exact runs_forM_nil.mp h
  | cons p parts ih =>
    obtain ⟨s', hone, hrest⟩ := runs_forM_cons.mp h
    rw [ih hrest, (runs_copyOne.mp hone).2]
    rfl

/-- Appending parts changes nothing but the output and the notes about it. -/
theorem frame_of_runs {parts : List StagedPart} {u : Unit} (h : Runs (parts.forM copyPart) s u t) :
    ∃ output offsets placements,
      t = { s with output := output, offsets := offsets, placements := placements } := by
  refine runs_forM_induction (fun _ t => ∃ output offsets placements,
    t = { s with output := output, offsets := offsets, placements := placements }) h
    ⟨_, _, _, rfl⟩ ?_
  rintro done p rest s' t' - ⟨output, offsets, placements, rfl⟩ hone
  rw [(runs_copyOne.mp hone).2]
  exact ⟨_, _, _, rfl⟩

/-- Copying parts keeps the staging buffer. -/
theorem staging_of_runs {parts : List StagedPart} {u : Unit}
    (h : Runs (parts.forM copyPart) s u t) : t.staging = s.staging := by
  obtain ⟨output, offsets, placements, rfl⟩ := frame_of_runs h
  rfl

/-- Copying parts keeps the phase. -/
theorem phase_of_runs {parts : List StagedPart} {u : Unit}
    (h : Runs (parts.forM copyPart) s u t) : t.phase = s.phase := by
  obtain ⟨output, offsets, placements, rfl⟩ := frame_of_runs h
  rfl

/-- The parts of the open region are its objects and then the root array. -/
theorem parts_opened {roots : StagedRoots} (h : s.staging.roots = some roots) :
    s.parts .opened =
      (s.stagedIn .opened).map (fun o => ⟨o.slot, o.size⟩) ++ [⟨roots.slot, roots.size⟩] := by
  rw [parts, h]
  rfl

/-- The parts of the closed region are its objects. -/
theorem parts_closed : s.parts .closed = (s.stagedIn .closed).map fun o => ⟨o.slot, o.size⟩ :=
  List.append_nil _

/-- The session once the open region has been found to leave no room behind it. -/
def overflow (s : DumpSession) (rootOffset : Nat) : DumpSession :=
  { s with
    rootOffset := rootOffset
    openTop := s.output.size
    closedBottom := alignUp s.output.size s.options.alignment }

/-! ## Outcomes of a call -/

/-- What a call over a graph can make of a session. A call whose tests fail leaves the session as it
was; linking and copying may also fail halfway. -/
inductive Leads (g : ObjectGraph) (s : DumpSession) :
    DumpCall → Except ArchiveError Unit → DumpSession → Prop
  | refused {c : DumpCall} {e : ArchiveError} : Leads g s c (.error e) s
  | allocated {id : ObjectId} {region : Region} {object : ByteArray} :
    s.phase = .staging → s.staging.prepare g s.registry id = .ok object →
    Leads g s (.allocate id region) (.ok ()) { s with staging := s.staging.push id region object }
  | gaveRoots {roots : List ObjectId} {array : ByteArray} :
    s.phase = .staging → s.staging.prepareRoots roots = .ok array →
    Leads g s (.allocateRoots roots) (.ok ())
      { s with staging := s.staging.pushRoots roots array }
  | linked {s' : DumpSession} {links : List StagingBuffer.Link} {staging : StagingBuffer} :
    s.phase = .staging → s.GivesRoots s' → s'.staging.links g s'.registry = .ok links →
    s'.staging.applyLinks links = (.ok (), staging) →
    Leads g s .link (.ok ()) { s' with staging := staging, phase := .linked }
  | unlinked {s' : DumpSession} {e : ArchiveError} :
    s.phase = .staging → s.GivesRoots s' → Leads g s .link (.error e) s'
  | linkedInPart {s' : DumpSession} {links : List StagingBuffer.Link} {staging : StagingBuffer}
      {e : ArchiveError} :
    s.phase = .staging → s.GivesRoots s' → s'.staging.links g s'.registry = .ok links →
    s'.staging.applyLinks links = (.error e, staging) →
    Leads g s .link (.error e) { s' with staging := staging }
  | copiedInPart {region : Region} {s' : DumpSession} {done rest : List StagedPart}
      {p : StagedPart} {e : ArchiveError} :
    s.phase = (DumpCall.copy region).phase → s.parts region = done ++ p :: rest →
    Runs (done.forM copyPart) s () s' →
    checkBoundary s'.options.alignment s'.output.size p.size = .error e →
    Leads g s (.copy region) (.error e) s'
  | lostRoots {s' : DumpSession} :
    s.phase = .linked → s.staging.roots = none → Runs ((s.parts .opened).forM copyPart) s () s' →
    Leads g s (.copy .opened) (.error (.outOfOrder .rootsMissing)) s'
  | overflowed {s' : DumpSession} {rootOffset : Nat} :
    s.phase = .linked → Runs ((s.parts .opened).forM copyPart) s () s' →
    maxBuffer < alignUp s'.output.size s'.options.alignment →
    Leads g s (.copy .opened) (.error (.bounds .tooLarge)) (s'.overflow rootOffset)
  | openCopied {s₁ s₂ : DumpSession} {roots : StagedRoots} :
    s.phase = .linked → s.staging.roots = some roots →
    Runs ((s.stagedIn .opened).forM fun o => copyOne o.slot o.size) s () s₁ →
    Runs (copyOne roots.slot roots.size) s₁ () s₂ →
    Leads g s (.copy .opened) (.ok ()) (s₂.endOpen s₁.output.size)
  | closedCopied {s' : DumpSession} :
    s.phase = .openCopied →
    Runs ((s.stagedIn .closed).forM fun o => copyOne o.slot o.size) s () s' →
    Leads g s (.copy .closed) (.ok ()) s'.endClosed
  | finalized {requested : RequestedRegions} :
    s.phase = .copied → s.plan = .ok requested → s.checkAddresses requested = .ok () →
    Leads g s .finalize (.ok ())
      { s with
        output := Bytes.resize s.output s.imageSize
        requested := some requested
        phase := .finalized }
  | relocatedInPart {requested : RequestedRegions} {done : Relocation} {e : ArchiveError} :
    s.phase = .finalized → s.requested = some requested →
    Fails (s.placements.toList.forM (relocateObject { s with output := ByteArray.empty } requested))
      ⟨s.output, BitMap.empty (s.output.size / s.slotSize)⟩ e done →
    Leads g s .relocate (.error e) { s with output := done.output }
  | relocated {requested : RequestedRegions} {done : Relocation} :
    s.phase = .finalized → s.requested = some requested →
    Runs (s.placements.toList.forM (relocateObject { s with output := ByteArray.empty } requested))
      ⟨s.output, BitMap.empty (s.output.size / s.slotSize)⟩ () done →
    Leads g s .relocate (.ok ())
      { s with output := done.output, recorded := some done.recorded, phase := .relocated }

/-! ## Calls that succeed -/

/-- **A call that succeeds** does what its step is for. -/
theorem leads_of_runs {u : Unit} (h : Runs (c.step g) s u t) : s.Leads g c (.ok ()) t := by
  cases c with
  | allocate id region =>
    obtain ⟨slot, h⟩ := runs_discard.mp h
    obtain ⟨object, hobject, rfl⟩ := of_runs_allocate h
    rw [allocate, runs_expect_bind] at h
    exact .allocated h.1 hobject
  | allocateRoots roots =>
    obtain ⟨slot, h⟩ := runs_discard.mp h
    obtain ⟨array, harray, rfl⟩ := of_runs_allocateRoots h
    rw [allocateRoots, runs_expect_bind] at h
    exact .gaveRoots h.1 harray
  | link =>
    obtain ⟨s', links, staging, hroots, hlinks, happly, rfl⟩ := of_runs_link h
    change Runs (link g) _ _ _ at h
    rw [link_eq, runs_expect_bind] at h
    exact .linked h.1 hroots hlinks happly
  | copy region =>
    cases region with
    | opened =>
      obtain ⟨s₁, roots, s₂, hobjects, hroots, hone, rfl⟩ := of_runs_copy_opened h
      change Runs (copy .opened) _ _ _ at h
      rw [copy, runs_expect_bind] at h
      have hparts := runs_forM_map (f := copyPart) (k := fun o : StagedObject => ⟨o.slot, o.size⟩)
        |>.mpr hobjects
      rw [staging_of_runs hparts] at hroots
      exact .openCopied h.1 hroots hobjects hone
    | closed =>
      obtain ⟨s', hobjects, rfl⟩ := of_runs_copy_closed h
      change Runs (copy .closed) _ _ _ at h
      rw [copy, runs_expect_bind] at h
      exact .closedCopied h.1 hobjects
  | finalize =>
    obtain ⟨requested, h⟩ := runs_discard.mp h
    obtain ⟨hplan, haddresses, rfl⟩ := of_runs_finalize h
    rw [finalize, runs_expect_bind] at h
    exact .finalized h.1 hplan haddresses
  | relocate =>
    obtain ⟨requested, done, hrequested, hrun, rfl⟩ := of_runs_relocate h
    change Runs relocate _ _ _ at h
    rw [relocate, runs_expect_bind] at h
    exact .relocated h.1 hrequested hrun

/-! ## Calls that fail -/

/-- A step behind a test of the phase fails by the test, with the session as it was, or on its own.
-/
theorem fails_expect_bind {α : Type} {phase : DumpPhase} {fault : OrderFault}
    {k : Unit → DumpStep α} :
    Fails (expect phase fault >>= k) s e t ↔
      (s.phase ≠ phase ∧ e = .outOfOrder fault ∧ t = s) ∨ s.phase = phase ∧ Fails (k ()) s e t := by
  have hexpect : Runs (expect phase fault) s () s ↔ s.phase = phase := by
    rw [expect, runs_get_bind, runs_ite]
    simp
  rw [fails_bind]
  constructor
  · rintro (h | ⟨_, s', hrun, h⟩)
    · rw [expect, fails_get_bind, fails_ite, fails_throw] at h
      rcases h with h | ⟨-, h⟩
      · exact .inl h
      · exact absurd h not_fails_pure
    · rw [expect, runs_get_bind, runs_ite] at hrun
      rcases hrun with ⟨-, hthrow⟩ | ⟨hphase, hpure⟩
      · exact absurd hthrow not_runs_throw
      · rw [(runs_pure.mp hpure).2] at h
        exact .inr ⟨not_not.mp hphase, h⟩
  · rintro (⟨hphase, h⟩ | ⟨hphase, h⟩)
    · left
      rw [expect, fails_get_bind, fails_ite, fails_throw]
      exact .inl ⟨hphase, h⟩
    · exact .inr ⟨(), s, hexpect.mpr hphase, h⟩

/-- Staging a root array fails before anything is staged. -/
theorem fails_pushRoots {roots : List ObjectId} :
    Fails (pushRoots roots) s e t ↔ s.staging.prepareRoots roots = .error e ∧ t = s := by
  rw [pushRoots, fails_get_bind, attempt, fails_ofExcept_bind]
  simp only [fails_modify_bind, not_fails_pure, and_false, exists_false, or_false]

/-- Linking fails before the first write, or in the middle of the writes. -/
theorem fails_linkStaged (h : Fails (linkStaged g) s e t) :
    t = s ∨ ∃ links staging, s.staging.links g s.registry = .ok links ∧
      s.staging.applyLinks links = (.error e, staging) ∧ t = { s with staging := staging } := by
  rw [linkStaged, fails_get_bind, attempt, fails_ofExcept_bind] at h
  rcases h with ⟨-, rfl⟩ | ⟨links, hlinks, h⟩
  · exact .inl rfl
  · cases happly : s.staging.applyLinks links with
    | mk result staging =>
      rw [happly] at h
      dsimp only at h
      rw [fails_modify_bind, attempt, fails_ofExcept_bind] at h
      rcases h with ⟨rfl, rfl⟩ | ⟨u, -, h⟩
      · exact .inr ⟨links, staging, hlinks, happly, rfl⟩
      · exact absurd h not_fails_modify

/-- A link that fails is one of the outcomes. -/
theorem leads_of_fails_link (h : Fails (link g) s e t) : s.Leads g .link (.error e) t := by
  rw [link_eq, fails_expect_bind] at h
  rcases h with ⟨-, -, rfl⟩ | ⟨hphase, h⟩
  · exact .refused
  · have hstaged : ∀ {s'}, s.GivesRoots s' → Fails (linkStaged g) s' e t →
        s.Leads g .link (.error e) t := by
      intro s' hroots h
      rcases fails_linkStaged h with rfl | ⟨links, staging, hlinks, happly, rfl⟩
      · exact .unlinked hphase hroots
      · exact .linkedInPart hphase hroots hlinks happly
    rw [fails_get_bind, fails_ite, fails_bind, fails_discard] at h
    rcases h with ⟨hnone, h | ⟨_, s', hpush, h⟩⟩ | ⟨hsome, h⟩
    · obtain ⟨-, rfl⟩ := fails_pushRoots.mp h
      exact .refused
    · obtain ⟨slot, hpush⟩ := runs_discard.mp hpush
      obtain ⟨array, harray, -, rfl⟩ := runs_pushRoots.mp hpush
      exact hstaged (.empty (Option.isNone_iff_eq_none.mp hnone) harray) h
    · rw [← Option.not_isSome, Bool.not_eq_true', Bool.not_eq_false] at hsome
      exact hstaged (.there hsome) h

/-- Copying a part fails exactly at a boundary, with the session as it was. -/
theorem fails_copyOne {slot size : Nat} :
    Fails (copyOne slot size) s e t ↔
      checkBoundary s.options.alignment s.output.size size = .error e ∧ t = s := by
  rw [copyOne, fails_get_bind, attempt, fails_ofExcept_bind]
  simp only [not_fails_modify, and_false, exists_false, or_false]

/-- A loop over parts stops in front of the part that would cross a boundary. -/
theorem of_fails_parts {parts : List StagedPart} (h : Fails (parts.forM copyPart) s e t) :
    ∃ done p rest, parts = done ++ p :: rest ∧ Runs (done.forM copyPart) s () t ∧
      checkBoundary t.options.alignment t.output.size p.size = .error e := by
  obtain ⟨done, p, rest, s', hparts, hdone, hone⟩ := fails_forM.mp h
  obtain ⟨hcheck, rfl⟩ := fails_copyOne.mp hone
  exact ⟨done, p, rest, hparts, hdone, hcheck⟩

/-- Copying the root array fails if there is none, at a boundary, or if no room is left behind it.
-/
theorem of_fails_copyRoots (h : Fails copyRoots s e t) :
    (s.staging.roots = none ∧ e = .outOfOrder .rootsMissing ∧ t = s) ∨
      ∃ roots, s.staging.roots = some roots ∧
        ((checkBoundary s.options.alignment s.output.size roots.size = .error e ∧ t = s) ∨
          ∃ s', Runs (copyOne roots.slot roots.size) s () s' ∧
            maxBuffer < alignUp s'.output.size s'.options.alignment ∧ e = .bounds .tooLarge ∧
            t = s'.overflow s.output.size) := by
  rw [copyRoots, fails_get_bind] at h
  split at h
  · rename_i hroots
    exact .inl ⟨hroots, fails_throw.mp h⟩
  · rename_i roots hroots
    rw [fails_bind] at h
    rcases h with h | ⟨_, s', hone, h⟩
    · exact .inr ⟨roots, hroots, .inl (fails_copyOne.mp h)⟩
    · rw [fails_get_bind, fails_modify_bind, fails_guard] at h
      obtain ⟨-, rfl⟩ := runs_copyOne.mp hone
      rcases h with ⟨hlarge, rfl, rfl⟩ | ⟨-, h⟩
      · exact .inr ⟨roots, hroots, .inr ⟨_, hone, hlarge, rfl, rfl⟩⟩
      · exact absurd h not_fails_modify

/-- A copy of the open region that fails is one of the outcomes. -/
theorem leads_of_fails_copy_opened (h : Fails (copy .opened) s e t) :
    s.Leads g (.copy .opened) (.error e) t := by
  rw [copy, fails_expect_bind] at h
  rcases h with ⟨-, -, rfl⟩ | ⟨hphase, h⟩
  · exact .refused
  · rw [fails_bind] at h
    rcases h with h | ⟨_, s', hobjects, h⟩
    · change Fails ((s.stagedIn .opened).forM fun o => copyOne o.slot o.size) s e t at h
      rw [forM_stagedIn] at h
      obtain ⟨done, p, rest, hparts, hdone, hcheck⟩ := of_fails_parts h
      -- The root array is among the parts that have not been reached.
      have hall := congrArg (· ++ (s.staging.roots.map fun roots =>
        (⟨roots.slot, roots.size⟩ : StagedPart)).toList) hparts
      rw [List.append_assoc] at hall
      exact .copiedInPart hphase hall hdone hcheck
    · change Runs ((s.stagedIn .opened).forM fun o => copyOne o.slot o.size) s _ s' at hobjects
      rw [forM_stagedIn] at hobjects
      have hstaging := staging_of_runs hobjects
      rcases of_fails_copyRoots h with ⟨hnone, rfl, rfl⟩ | ⟨roots, hroots, hcase⟩
      · rw [hstaging] at hnone
        refine .lostRoots hphase hnone ?_
        rw [parts, hnone]
        exact (List.append_nil _).symm ▸ hobjects
      · rw [hstaging] at hroots
        rcases hcase with ⟨hcheck, rfl⟩ | ⟨s'', hone, hlarge, rfl, rfl⟩
        · exact .copiedInPart hphase (parts_opened hroots) hobjects hcheck
        · refine .overflowed hphase ?_ hlarge
          rw [parts_opened hroots, runs_forM_append]
          exact ⟨s', hobjects, runs_forM_cons.mpr ⟨s'', hone, runs_forM_nil.mpr rfl⟩⟩

/-- A copy of the closed region that fails is one of the outcomes. -/
theorem leads_of_fails_copy_closed (h : Fails (copy .closed) s e t) :
    s.Leads g (.copy .closed) (.error e) t := by
  rw [copy, fails_expect_bind] at h
  rcases h with ⟨-, -, rfl⟩ | ⟨hphase, h⟩
  · exact .refused
  · rw [fails_bind] at h
    rcases h with h | ⟨_, s', -, h⟩
    · change Fails ((s.stagedIn .closed).forM fun o => copyOne o.slot o.size) s e t at h
      rw [forM_stagedIn, ← parts_closed] at h
      obtain ⟨done, p, rest, hparts, hdone, hcheck⟩ := of_fails_parts h
      exact .copiedInPart hphase hparts hdone hcheck
    · exact absurd h not_fails_modify

/-- A relocation that fails is one of the outcomes. -/
theorem leads_of_fails_relocate (h : Fails relocate s e t) :
    s.Leads g .relocate (.error e) t := by
  rw [relocate, fails_expect_bind] at h
  rcases h with ⟨-, -, rfl⟩ | ⟨hphase, h⟩
  · exact .refused
  · rw [fails_get_bind] at h
    split at h
    · obtain ⟨-, rfl⟩ := fails_throw.mp h
      exact .refused
    · rename_i requested hrequested
      rw [fails_modifyGet_bind] at h
      dsimp only at h
      split at h
      rename_i result done hrun
      rw [fails_modify_bind, attempt, fails_ofExcept_bind] at h
      rcases h with ⟨rfl, rfl⟩ | ⟨u, -, h⟩
      · exact .relocatedInPart hphase hrequested hrun
      · exact absurd h not_fails_modify

/-- **A call that fails** leaves the session as it was, or has linked or copied a part of it. -/
theorem leads_of_fails (h : Fails (c.step g) s e t) : s.Leads g c (.error e) t := by
  cases c with
  | allocate id region =>
    replace h := fails_discard.mp h
    rw [allocate, fails_expect_bind] at h
    rcases h with ⟨-, -, rfl⟩ | ⟨-, h⟩
    · exact .refused
    · rw [fails_get_bind, attempt, fails_ofExcept_bind] at h
      rcases h with ⟨-, rfl⟩ | ⟨object, -, h⟩
      · exact .refused
      · exact absurd h not_fails_pure
  | allocateRoots roots =>
    replace h := fails_discard.mp h
    rw [allocateRoots, fails_expect_bind] at h
    rcases h with ⟨-, -, rfl⟩ | ⟨-, h⟩
    · exact .refused
    · obtain ⟨-, rfl⟩ := fails_pushRoots.mp h
      exact .refused
  | link => exact leads_of_fails_link h
  | copy region =>
    cases region with
    | opened => exact leads_of_fails_copy_opened h
    | closed => exact leads_of_fails_copy_closed h
  | finalize =>
    replace h := fails_discard.mp h
    rw [finalize, fails_expect_bind] at h
    rcases h with ⟨-, -, rfl⟩ | ⟨-, h⟩
    · exact .refused
    · rw [fails_get_bind, attempt, fails_ofExcept_bind] at h
      rcases h with ⟨-, rfl⟩ | ⟨requested, -, h⟩
      · exact .refused
      · rw [attempt, fails_ofExcept_bind] at h
        rcases h with ⟨-, rfl⟩ | ⟨u, -, h⟩
        · exact .refused
        · exact absurd h not_fails_pure
  | relocate => exact leads_of_fails_relocate h

/-! ## Sequences of calls -/

/-- Makes some calls one after another, whether or not they succeed; gives those that do. -/
def performAll (g : ObjectGraph) (s : DumpSession) : List DumpCall → List DumpCall × DumpSession
  | [] => ([], s)
  | c :: calls =>
    match (c.step g).run s with
    | (.ok _, t) => ((performAll g t calls).1.cons c, (performAll g t calls).2)
    | (.error _, t) => performAll g t calls

/-- **Induction over calls.** What every call keeps, a sequence of calls keeps. -/
theorem performAll_induction (I : List DumpCall → DumpSession → Prop)
    (hok : ∀ done c s t, I done s → s.Leads g c (.ok ()) t → I (done ++ [c]) t)
    (herror : ∀ done c e s t, I done s → s.Leads g c (.error e) t → I done t)
    (calls : List DumpCall) (hstart : I [] s) :
    I (performAll g s calls).1 (performAll g s calls).2 := by
  -- On the calls that are left, with those made so far in front.
  suffices hgen : ∀ done s, I done s →
      I (done ++ (performAll g s calls).1) (performAll g s calls).2 from hgen [] s hstart
  induction calls with
  | nil =>
    intro done s hI
    rw [performAll, List.append_nil]
    exact hI
  | cons c calls ih =>
    intro done s hI
    rw [performAll]
    cases hrun : (c.step g).run s with
    | mk result t =>
      cases result with
      | ok u =>
        have hnext := ih (done ++ [c]) t (hok done c s t hI (leads_of_runs hrun))
        rw [List.append_assoc] at hnext
        exact hnext
      | error e => exact ih done t (herror done c e s t hI (leads_of_fails hrun))

/-- A call that succeeds has come in its phase and leads to the next. -/
theorem Leads.phase_of_ok (h : s.Leads g c (.ok ()) t) : s.phase = c.phase ∧ t.phase = c.next := by
  cases h with
  | allocated hphase _ => exact ⟨hphase, hphase⟩
  | gaveRoots hphase _ => exact ⟨hphase, hphase⟩
  | linked hphase _ _ _ => exact ⟨hphase, rfl⟩
  | openCopied hphase _ _ _ => exact ⟨hphase, rfl⟩
  | closedCopied hphase _ => exact ⟨hphase, rfl⟩
  | finalized hphase _ _ => exact ⟨hphase, rfl⟩
  | relocated hphase _ _ => exact ⟨hphase, rfl⟩

/-- Adding a root array keeps the phase. -/
theorem GivesRoots.phase_eq (h : s.GivesRoots t) : t.phase = s.phase := by
  cases h <;> rfl

/-- A call that fails leaves the session in its phase. -/
theorem Leads.phase_of_error (h : s.Leads g c (.error e) t) : t.phase = s.phase := by
  cases h with
  | refused => rfl
  | unlinked _ hroots => exact hroots.phase_eq
  | linkedInPart _ hroots _ _ => exact hroots.phase_eq
  | copiedInPart _ _ hdone _ => exact phase_of_runs hdone
  | lostRoots _ _ hdone => exact phase_of_runs hdone
  | overflowed _ hdone _ =>
    have hphase := phase_of_runs hdone
    exact hphase
  | relocatedInPart _ _ _ => rfl

/-- **The phase tells which calls have succeeded**, apart from those that stage something. -/
theorem filter_advances (g : ObjectGraph) (calls : List DumpCall) (hstart : s.phase = .staging) :
    (performAll g s calls).1.filter DumpCall.advances = (performAll g s calls).2.phase.trace := by
  refine performAll_induction
    (fun done s => done.filter DumpCall.advances = s.phase.trace) ?_ ?_ calls
    (by rw [hstart]; rfl)
  · intro done c s t hdone h
    obtain ⟨hphase, hnext⟩ := h.phase_of_ok
    rw [List.filter_append, hdone, hphase, hnext, c.trace_next]
  · intro done c e s t hdone h
    rw [hdone, h.phase_of_error]

end DumpSession

end HeapImage
