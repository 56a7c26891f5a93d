import HeapImage.Proofs.FilledImages
import HeapImage.Proofs.RepeatedCopies

/-! # States of a dump session

A session over one graph can be called in any order, and calls that fail can be made again. In every
state that it gets to, what it has staged, linked, copied and relocated so far fits together.

* `DumpSession.Resolved`: a session whose references have become identities.
* `DumpSession.OpenCopied`, `DumpSession.BothCopied`: a session that has copied one region or both.
* `DumpSession.Stands`: what holds of a session in each phase.
* `DumpSession.Stands.leads`: every call keeps it.
* `DumpSession.stands_performAll`: it holds behind any calls.
* `DumpSession.stands_of_calls`: so it does for every session that has been started. -/

namespace HeapImage.DumpSession

variable {s t : DumpSession} {g : ObjectGraph} {r : TypeRegistry} {roots : List ObjectId}
variable {ref : ObjectId → Nat} {xs ys os cs zs : List Placed} {q : RequestedRegions}

/-! ## Linked sessions -/

/-- The references of the staged members are identities of staged members. -/
structure Resolved (s : DumpSession) (g : ObjectGraph) (roots : List ObjectId)
    (ref : ObjectId → Nat) (xs : List Placed) : Prop extends s.Stocked g roots ref xs where
  identity : ∀ i p, s.staging.slotOf? i = some p → ref i = identityOf p
  referents : ∀ x ∈ xs, ∀ c ∈ x.member.cells s.slotSize, ∀ i, c.value = .reference (some i) →
    ∃ p, s.staging.slotOf? i = some p
  hasRoots : s.staging.roots.isSome = true

/-- Only the staging buffer, the registry and the options matter. -/
theorem Resolved.mono (h : s.Resolved g roots ref xs) (hstaging : t.staging = s.staging)
    (hregistry : t.registry = s.registry) (hoptions : t.options = s.options) :
    t.Resolved g roots ref xs := by
  have hslot : t.slotSize = s.slotSize := congrArg (fun o => o.encoding.slotSize) hoptions
  refine ⟨h.congr hstaging hregistry hoptions, ?_, ?_, ?_⟩
  · rw [hstaging]
    exact h.identity
  · rw [hstaging, hslot]
    exact h.referents
  · rw [hstaging]
    exact h.hasRoots

/-- Appending keeps links resolved. -/
theorem Resolved.appends (h : s.Resolved g roots ref xs) (happends : s.Appends t zs ys) :
    t.Resolved g roots ref xs :=
  h.mono happends.staging_eq happends.registry_eq happends.options_eq

/-- **Linking** resolves the references of everything staged. -/
theorem Stocked.resolved (h : s.Stocked g roots (fun _ => 0) xs)
    (hcheck : s.options.check = .ok ()) (hcapacity : s.options.capacity < 2 ^ 64)
    (hsome : s.staging.roots.isSome = true) {links : List StagingBuffer.Link}
    {staging : StagingBuffer} (hlinks : s.staging.links g s.registry = .ok links)
    (happly : s.staging.applyLinks links = (.ok (), staging)) (phase : DumpPhase) :
    ∃ ref, { s with staging := staging, phase := phase }.Resolved g roots ref xs := by
  have hroom : s.staging.capacity / wordSize < 256 ^ s.staging.slotSize := by
    rw [h.capacity_eq, h.slotSize_eq]
    exact DumpOptions.capacity_div_lt hcheck hcapacity
  obtain ⟨hbytes, hlinked, hreferents, -⟩ := h.stocks.link h.isSlotSize
    (fun i p hp => h.stages.identity_lt hroom hp) hlinks
    happly
  -- Only the bytes are different, so what has been staged is found where it was.
  have hslots : staging.slotOf? = s.staging.slotOf? := by
    rw [hbytes]
    rfl
  refine ⟨s.staging.identity, ⟨hlinked, ?_, ?_, ?_, ?_⟩, ?_, ?_, ?_⟩
  · rw [hbytes]
    exact h.slotSize_eq
  · rw [hbytes]
    exact h.capacity_eq
  · rw [hbytes]
    exact h.rootless
  · rw [hbytes]
    exact h.rooted
  · intro i p hp
    change staging.slotOf? i = some p at hp
    rw [hslots] at hp
    rw [StagingBuffer.identity, hp, Option.getD_some]
  · intro y hy c hc i hv
    change ∃ p, staging.slotOf? i = some p
    rw [hslots]
    refine hreferents y hy c ?_ i hv
    rw [h.slotSize_eq]
    exact hc
  · rw [hbytes]
    exact hsome

/-! ## Copied regions -/

/-- The open region is complete, and filled up to the next boundary. -/
structure OpenCopied (s : DumpSession) (xs os : List Placed) : Prop where
  openRow : Placed.Row s.slotSize 0 os s.openTop
  closedBottom_eq : s.closedBottom = alignUp s.openTop s.options.alignment
  gap : ∀ j, s.openTop ≤ j → j < s.closedBottom → Bytes.get s.output j = 0
  root : ∃ y ∈ os, y.member.id = none ∧ y.offset = s.rootOffset
  noted : s.Noted (xs.filter fun x => x.member.region = .opened)

/-- Both regions are complete. -/
structure BothCopied (s : DumpSession) (xs os cs : List Placed) : Prop
    extends s.Regions os cs where
  copies : s.Copies xs (os ++ cs)
  noted : s.Noted xs

/-- Copying to the closed region keeps the open one. -/
theorem OpenCopied.appends (h : s.OpenCopied xs os) (hle : s.closedBottom ≤ s.output.size)
    (happends : s.Appends t zs ys) : t.OpenCopied xs os := by
  obtain ⟨hopenTop, hclosedBottom, hrootOffset⟩ := happends.places_eq
  refine ⟨?_, ?_, ?_, ?_, h.noted.appends happends⟩
  · rw [happends.slotSize_eq, hopenTop]
    exact h.openRow
  · rw [hclosedBottom, hopenTop, happends.options_eq]
    exact h.closedBottom_eq
  · intro j hlow hhigh
    rw [hopenTop] at hlow
    rw [hclosedBottom] at hhigh
    rw [happends.front j (by omega)]
    exact h.gap j hlow hhigh
  · rw [hrootOffset]
    exact h.root

/-- **Ending the open region.** -/
theorem Resolved.endOpen (h : s.Resolved g roots ref xs) (hcopies : s.Copies xs ys)
    (hrow : Placed.Row s.slotSize 0 ys s.output.size) {s₁ s₂ : DumpSession} {root : StagedRoots}
    (hroot : s.staging.roots = some root)
    (hobjects : Runs ((s.stagedIn .opened).forM fun o => DumpSession.copyOne o.slot o.size) s () s₁)
    (hone : Runs (DumpSession.copyOne root.slot root.size) s₁ () s₂) :
    ∃ os, (s₂.endOpen s₁.output.size).Resolved g roots ref xs ∧
      (s₂.endOpen s₁.output.size).Copies xs (os ++ []) ∧
      (s₂.endOpen s₁.output.size).OpenCopied xs os := by
  obtain ⟨x, hx, hid, rfl⟩ := h.rooted root hroot
  obtain ⟨ys', hys'⟩ := appends_of_copyObjects h.stages h.slotSize_eq hobjects
  -- The root array is copied behind the objects of the region, although it was staged last.
  have happends := hys'.copyOne (offset_notMem_filter h.nodup hx (by simp [hid]))
    (h.row.bounds x hx).2 hone
  have hmem : ∀ z ∈ objectsIn .opened xs ++ [x], z ∈ xs :=
    fun z hz => ((h.mem_opened hx hid).mp hz).1
  have hall := hcopies.appends (fun y hy => (hrow.bounds y hy).2) hmem happends
  have hrow₂ := hrow.append happends.row
  have hslot := happends.slotSize_eq
  refine ⟨ys ++ (ys' ++ [⟨x.member, s₁.output.size⟩]), ?_, ?_, ?_⟩
  · exact (h.appends happends).mono rfl rfl rfl
  · rw [List.append_nil]
    refine hall.mono rfl rfl rfl rfl ?_
    intro y hy k hk
    have hstop := (hrow₂.bounds y hy).2
    rw [hslot] at hk
    exact get_endOpen_of_lt (by omega)
  · refine ⟨?_, rfl, ?_, ?_, ?_⟩
    · change Placed.Row s₂.slotSize 0 _ s₂.output.size
      rw [hslot]
      exact hrow₂
    · exact fun j hlow _ => get_endOpen_of_le hlow
    · exact ⟨⟨x.member, s₁.output.size⟩, by simp, hid, rfl⟩
    · intro z hz
      obtain ⟨hzmem, hregion⟩ := List.mem_filter.mp hz
      exact noted_of_appends happends z
        ((h.mem_opened hx hid).mpr ⟨hzmem, of_decide_eq_true hregion⟩)

/-- **Ending the closed region.** -/
theorem Resolved.endClosed (h : s.Resolved g roots ref xs) (hcopies : s.Copies xs (os ++ cs))
    (hopened : s.OpenCopied xs os) (hrow : Placed.Row s.slotSize s.closedBottom cs s.output.size)
    {s' : DumpSession}
    (hobjects : Runs ((s.stagedIn .closed).forM fun o => DumpSession.copyOne o.slot o.size) s ()
      s') :
    ∃ cs', s'.endClosed.Resolved g roots ref xs ∧ s'.endClosed.BothCopied xs os cs' := by
  obtain ⟨ys, hys⟩ := appends_of_copyObjects h.stages h.slotSize_eq hobjects
  have hgap : s.openTop ≤ s.closedBottom := by
    rw [hopened.closedBottom_eq]
    exact le_alignUp _ _
  have hstop : ∀ y ∈ os ++ cs, y.stop s.slotSize ≤ s.output.size := by
    refine List.forall_mem_append.mpr ⟨?_, fun y hy => (hrow.bounds y hy).2⟩
    intro y hy
    exact Nat.le_trans (hopened.openRow.bounds y hy).2 (Nat.le_trans hgap hrow.le)
  -- Copies of earlier attempts stay in the output; the notes lead to those of this one.
  have hall := hcopies.appends hstop (fun z hz => (List.mem_filter.mp hz).1) hys
  have hopened' := hopened.appends hrow.le hys
  rw [List.append_assoc] at hall
  refine ⟨cs ++ ys, (h.appends hys).mono rfl rfl rfl, ⟨?_, ?_, ?_, ?_, ?_, ?_, ?_⟩, ?_, ?_⟩
  · exact hopened'.openRow
  · exact hopened'.closedBottom_eq
  · change Placed.Row s'.slotSize s'.closedBottom _ s'.output.size
    rw [hys.slotSize_eq, hys.places_eq.2.1]
    exact hrow.append hys.row
  · exact hall.boundary
  · rintro j (⟨hlow, hhigh⟩ | hhigh)
    · exact hopened'.gap j hlow hhigh
    · exact Bytes.get_of_size_le hhigh
  · exact hall.placements
  · exact hopened'.root
  · exact hall.mono rfl rfl rfl rfl fun _ _ _ _ => rfl
  · intro x hx
    cases hregion : x.member.region with
    | opened => exact hopened'.noted x (List.mem_filter.mpr ⟨hx, decide_eq_true hregion⟩)
    | closed => exact noted_of_appends hys x (h.mem_closed.mpr ⟨hx, hregion⟩)

/-- A session that has copied both regions is filled with members. -/
theorem BothCopied.filled (h : s.BothCopied xs os cs) (hresolved : s.Resolved g roots ref xs) :
    s.Filled g roots os cs ref := by
  have hslot : IsSlotSize s.slotSize := ReferenceEncoding.isSlotSize _
  have hof : ∀ y ∈ os ++ cs, y.member.Of g s.registry roots := by
    intro y hy
    obtain ⟨x, hx, hcopy⟩ := h.copies.staged y hy
    rw [hcopy.member]
    exact hresolved.stages.of x hx
  refine ⟨h.toRegions, hof, ?_, ?_⟩
  · intro y hy
    obtain ⟨x, hx, hcopy⟩ := h.copies.staged y hy
    have hheld := hresolved.stages.held x hx
    rw [hresolved.slotSize_eq] at hheld
    rw [Placed.Held, hcopy.member]
    exact hheld.congr (hresolved.stages.of x hx) hslot hcopy.bytes
  · intro y hy c hc i hv
    obtain ⟨x, hx, hcopy⟩ := h.copies.staged y hy
    rw [hcopy.member] at hc
    obtain ⟨p, hp⟩ := hresolved.referents x hx c hc i hv
    -- The referent was staged, so it has a note, and the note leads to one of the copies.
    obtain ⟨x', hx', -, rfl⟩ := (hresolved.stages.slotOf i p).mp hp
    obtain ⟨offset, hoffset⟩ := h.noted x' hx'
    obtain ⟨-, -, z, hz, -, rfl, -⟩ := h.copies.noted _ _ hoffset
    refine ⟨x'.offset, hp, hresolved.identity i _ hp, ?_, z, hz, hoffset⟩
    exact (hresolved.row.dvd (Nat.dvd_zero _) fun x _ => x.member.wordSize_dvd_size _).1 x' hx'

/-! ## All states -/

/-- What holds of a session over a graph in each of its phases. -/
inductive Stands (g : ObjectGraph) (s : DumpSession) : Prop
  | staging {roots : List ObjectId} {xs : List Placed} (phase : s.phase = .staging)
    (stocked : s.Stocked g roots (fun _ => 0) xs) (copies : s.Copies xs [])
    (size : s.output.size = 0)
  | linked {roots : List ObjectId} {ref : ObjectId → Nat} {xs ys : List Placed}
    (phase : s.phase = .linked) (resolved : s.Resolved g roots ref xs) (copies : s.Copies xs ys)
    (row : Placed.Row s.slotSize 0 ys s.output.size)
  | openCopied {roots : List ObjectId} {ref : ObjectId → Nat} {xs os cs : List Placed}
    (phase : s.phase = .openCopied) (resolved : s.Resolved g roots ref xs)
    (copies : s.Copies xs (os ++ cs)) (opened : s.OpenCopied xs os)
    (row : Placed.Row s.slotSize s.closedBottom cs s.output.size)
  | copied {roots : List ObjectId} {ref : ObjectId → Nat} {xs os cs : List Placed}
    (phase : s.phase = .copied) (resolved : s.Resolved g roots ref xs)
    (both : s.BothCopied xs os cs) (size : s.output.size = s.closedTop)
  | finalized {roots : List ObjectId} {ref : ObjectId → Nat} {xs os cs : List Placed}
    {q : RequestedRegions} (phase : s.phase = .finalized) (resolved : s.Resolved g roots ref xs)
    (both : s.BothCopied xs os cs) (planned : s.Planned q)
  | relocated {s' : DumpSession} {roots : List ObjectId} {ref : ObjectId → Nat}
    {xs os cs : List Placed} {q : RequestedRegions} {done : Relocation}
    (resolved : s'.Resolved g roots ref xs) (both : s'.BothCopied xs os cs)
    (planned : s'.Planned q)
    (relocation : s'.Relocated q s'.output (Placed.slots (os ++ cs) s'.slotSize) done)
    (eq : s = { s' with
      output := done.output
      recorded := some done.recorded
      phase := .relocated })

namespace Stands

/-- What holds in the first phase. -/
theorem of_staging (h : s.Stands g) (hphase : s.phase = .staging) :
    ∃ roots xs, s.Stocked g roots (fun _ => 0) xs ∧ s.Copies xs [] ∧ s.output.size = 0 := by
  cases h with
  | staging _ stocked copies size => exact ⟨_, _, stocked, copies, size⟩
  | relocated _ _ _ _ eq => rw [eq] at hphase; cases hphase
  | _ phase => rw [phase] at hphase; cases hphase

/-- What holds once the references have been linked. -/
theorem of_linked (h : s.Stands g) (hphase : s.phase = .linked) :
    ∃ roots ref xs ys, s.Resolved g roots ref xs ∧ s.Copies xs ys ∧
      Placed.Row s.slotSize 0 ys s.output.size := by
  cases h with
  | linked _ resolved copies row => exact ⟨_, _, _, _, resolved, copies, row⟩
  | relocated _ _ _ _ eq => rw [eq] at hphase; cases hphase
  | _ phase => rw [phase] at hphase; cases hphase

/-- What holds once the open region has been copied. -/
theorem of_openCopied (h : s.Stands g) (hphase : s.phase = .openCopied) :
    ∃ roots ref xs os cs, s.Resolved g roots ref xs ∧ s.Copies xs (os ++ cs) ∧
      s.OpenCopied xs os ∧ Placed.Row s.slotSize s.closedBottom cs s.output.size := by
  cases h with
  | openCopied _ resolved copies opened row => exact ⟨_, _, _, _, _, resolved, copies, opened, row⟩
  | relocated _ _ _ _ eq => rw [eq] at hphase; cases hphase
  | _ phase => rw [phase] at hphase; cases hphase

/-- What holds once both regions have been copied. -/
theorem of_copied (h : s.Stands g) (hphase : s.phase = .copied) :
    ∃ roots ref xs os cs, s.Resolved g roots ref xs ∧ s.BothCopied xs os cs ∧
      s.output.size = s.closedTop := by
  cases h with
  | copied _ resolved both size => exact ⟨_, _, _, _, _, resolved, both, size⟩
  | relocated _ _ _ _ eq => rw [eq] at hphase; cases hphase
  | _ phase => rw [phase] at hphase; cases hphase

/-- What holds once the session is finalized. -/
theorem of_finalized (h : s.Stands g) (hphase : s.phase = .finalized) :
    ∃ roots ref xs os cs q, s.Resolved g roots ref xs ∧ s.BothCopied xs os cs ∧ s.Planned q := by
  cases h with
  | finalized _ resolved both planned => exact ⟨_, _, _, _, _, _, resolved, both, planned⟩
  | relocated _ _ _ _ eq => rw [eq] at hphase; cases hphase
  | _ phase => rw [phase] at hphase; cases hphase

end Stands

/-! ## Calls keep the states -/

/-- An attempt to copy the open region that has come to an end somewhere. -/
theorem Stands.copying_open (h : s.Stands g) (hphase : s.phase = .linked)
    {done rest : List StagedPart} (hparts : s.parts .opened = done ++ rest)
    (hrun : Runs (done.forM copyPart) s () t) : t.Stands g := by
  obtain ⟨roots, ref, xs, ys, hresolved, hcopies, hrow⟩ := h.of_linked hphase
  obtain ⟨zs, ys', hzs, happends⟩ := hresolved.exists_appends hparts hrun
  refine .linked ((phase_of_runs hrun).trans hphase) (hresolved.appends happends)
    (hcopies.appends (fun y hy => (hrow.bounds y hy).2) hzs happends) ?_
  rw [happends.slotSize_eq]
  exact hrow.append happends.row

/-- The same for the closed region. -/
theorem Stands.copying_closed (h : s.Stands g) (hphase : s.phase = .openCopied)
    {done rest : List StagedPart} (hparts : s.parts .closed = done ++ rest)
    (hrun : Runs (done.forM copyPart) s () t) : t.Stands g := by
  obtain ⟨roots, ref, xs, os, cs, hresolved, hcopies, hopened, hrow⟩ := h.of_openCopied hphase
  obtain ⟨zs, ys', hzs, happends⟩ := hresolved.exists_appends hparts hrun
  have hstop : ∀ y ∈ os ++ cs, y.stop s.slotSize ≤ s.output.size := by
    refine List.forall_mem_append.mpr ⟨?_, fun y hy => (hrow.bounds y hy).2⟩
    intro y hy
    refine Nat.le_trans (hopened.openRow.bounds y hy).2 (Nat.le_trans ?_ hrow.le)
    rw [hopened.closedBottom_eq]
    exact le_alignUp _ _
  have hall := hcopies.appends hstop hzs happends
  rw [List.append_assoc] at hall
  refine .openCopied ((phase_of_runs hrun).trans hphase) (hresolved.appends happends) hall
    (hopened.appends hrow.le happends) ?_
  rw [happends.slotSize_eq, happends.places_eq.2.1]
  exact hrow.append happends.row

/-- Linking never gets stuck halfway, since the graph is the one that was staged. -/
theorem Stands.links_written (h : s.Stands g) (hphase : s.phase = .staging) {s' : DumpSession}
    (hroots : s.GivesRoots s') {links : List StagingBuffer.Link}
    (hlinks : s'.staging.links g s'.registry = .ok links) :
    (s'.staging.applyLinks links).1 = .ok () := by
  obtain ⟨roots, xs, hstocked, -, -⟩ := h.of_staging hphase
  obtain ⟨roots', xs', hstocked', -⟩ := hstocked.givesRoots hroots
  exact hstocked'.stocks.applyLinks_eq_ok hstocked'.isSlotSize hlinks

/-- Relocation never gets stuck halfway. -/
theorem Stands.relocation_runs (h : s.Stands g) (hphase : s.phase = .finalized)
    {requested : RequestedRegions} (hrequested : s.requested = some requested) :
    ∃ done, Runs
      (s.placements.toList.forM (relocateObject { s with output := ByteArray.empty } requested))
      ⟨s.output, BitMap.empty (s.output.size / s.slotSize)⟩ () done := by
  obtain ⟨roots, ref, xs, os, cs, q, hresolved, hboth, hplanned⟩ := h.of_finalized hphase
  rw [hplanned.requested] at hrequested
  cases hrequested
  exact (hboth.filled hresolved).exists_runs hplanned

/-- Staging an object keeps what holds of a session. -/
theorem Stands.push (h : s.Stands g) (hphase : s.phase = .staging) {id : ObjectId}
    {region : Region} {object : ByteArray}
    (hprepare : s.staging.prepare g s.registry id = .ok object) :
    Stands g { s with staging := s.staging.push id region object } := by
  obtain ⟨roots, xs, hstocked, hcopies, hsize⟩ := h.of_staging hphase
  obtain ⟨x, -, -, hpush⟩ := hstocked.push hprepare
  exact .staging hphase hpush (hcopies.nil rfl rfl) hsize

/-- So does staging a root array. -/
theorem Stands.pushRoots (h : s.Stands g) (hphase : s.phase = .staging) {roots : List ObjectId}
    {array : ByteArray} (hprepare : s.staging.prepareRoots roots = .ok array) :
    Stands g { s with staging := s.staging.pushRoots roots array } := by
  obtain ⟨roots', xs, hstocked, hcopies, hsize⟩ := h.of_staging hphase
  obtain ⟨x, -, hpush⟩ := hstocked.pushRoots hprepare
  exact .staging hphase hpush (hcopies.nil rfl rfl) hsize

/-- The root array that linking adds if none was listed is staged like any other. -/
theorem Stands.givesRoots (h : s.Stands g) (hphase : s.phase = .staging)
    (hroots : s.GivesRoots t) : t.Stands g := by
  cases hroots with
  | there => exact h
  | empty _ hprepare => exact h.pushRoots hphase hprepare

/-- Linking a session that is being staged. -/
theorem Stands.link (h : s.Stands g) (hcheck : s.options.check = .ok ())
    (hcapacity : s.options.capacity < 2 ^ 64) (hphase : s.phase = .staging) {s' : DumpSession}
    (hroots : s.GivesRoots s') {links : List StagingBuffer.Link} {staging : StagingBuffer}
    (hlinks : s'.staging.links g s'.registry = .ok links)
    (happly : s'.staging.applyLinks links = (.ok (), staging)) :
    Stands g { s' with staging := staging, phase := .linked } := by
  have hoptions : s'.options = s.options := by cases hroots <;> rfl
  obtain ⟨roots, xs, hstocked, hcopies, hsize⟩ := h.of_staging hphase
  obtain ⟨roots', xs', hstocked', hsome⟩ := hstocked.givesRoots hroots
  obtain ⟨ref, hresolved⟩ := hstocked'.resolved (hoptions ▸ hcheck) (hoptions ▸ hcapacity) hsome
    hlinks happly .linked
  refine .linked rfl hresolved (?_ : Copies _ _ []) ?_
  · cases hroots <;> exact hcopies.nil rfl rfl
  · cases hroots <;> exact hsize.symm

/-- The bounds that have been set already do not matter before the open region is finished. -/
theorem Stands.overflow (h : s.Stands g) (hphase : s.phase = .linked)
    (hrun : Runs ((s.parts .opened).forM copyPart) s () t) (rootOffset : Nat) :
    (t.overflow rootOffset).Stands g := by
  have hlinked := (phase_of_runs hrun).trans hphase
  obtain ⟨roots, ref, xs, ys, hresolved, hcopies, hrow⟩ :=
    (h.copying_open hphase (List.append_nil _).symm hrun).of_linked hlinked
  exact .linked hlinked (hresolved.mono rfl rfl rfl)
    (hcopies.mono rfl rfl rfl rfl fun _ _ _ _ => rfl) hrow

/-- Finalizing fills the output up, which keeps all copies. -/
theorem Stands.finalize (h : s.Stands g) (hphase : s.phase = .copied)
    {requested : RequestedRegions} (hplan : s.plan = .ok requested)
    (haddresses : s.checkAddresses requested = .ok ()) :
    Stands g { s with
      output := Bytes.resize s.output s.imageSize
      requested := some requested
      phase := .finalized } := by
  obtain ⟨roots, ref, xs, os, cs, hresolved, hboth, hsize⟩ := h.of_copied hphase
  refine .finalized rfl (hresolved.mono rfl rfl rfl)
    ⟨((hboth.filled hresolved).finalize).toRegions, ?_, hboth.noted⟩
    ⟨rfl, hplan, haddresses, Bytes.size_resize ..⟩
  refine hboth.copies.mono rfl rfl rfl rfl ?_
  intro y hy k hk
  have hstop := hboth.stop_le y hy
  have htop := hboth.closedTop_le
  rw [Placed.stop] at hstop
  rw [Bytes.get_resize, if_pos (by omega)]

/-- **Every call** keeps what holds of a session, whether it succeeds or fails. -/
theorem Stands.leads (h : s.Stands g) (hcheck : s.options.check = .ok ())
    (hcapacity : s.options.capacity < 2 ^ 64) {c : DumpCall} {result : Except ArchiveError Unit}
    (hleads : s.Leads g c result t) : t.Stands g := by
  cases hleads with
  | refused => exact h
  | allocated hphase hprepare => exact h.push hphase hprepare
  | gaveRoots hphase hprepare => exact h.pushRoots hphase hprepare
  | linked hphase hroots hlinks happly =>
    exact h.link hcheck hcapacity hphase hroots hlinks happly
  | unlinked hphase hroots => exact h.givesRoots hphase hroots
  -- Links lead from staged cells to staged objects, so writing them cannot fail.
  | linkedInPart hphase hroots hlinks happly =>
    have hok := h.links_written hphase hroots hlinks
    rw [happly] at hok
    cases hok
  -- What has been copied stays, in the phase as it was: the next attempt goes on behind it.
  | @copiedInPart region _ _ _ _ _ hphase hparts hdone _ =>
    cases region with
    | opened => exact h.copying_open hphase hparts hdone
    | closed => exact h.copying_closed hphase hparts hdone
  -- A linked session has a root array, which is never taken away.
  | lostRoots hphase hroots _ =>
    obtain ⟨roots, ref, xs, ys, hresolved, -, -⟩ := h.of_linked hphase
    have hsome := hresolved.hasRoots
    rw [hroots] at hsome
    cases hsome
  | overflowed hphase hdone _ => exact h.overflow hphase hdone _
  | openCopied hphase hroots hobjects hone =>
    obtain ⟨roots, ref, xs, ys, hresolved, hcopies, hrow⟩ := h.of_linked hphase
    obtain ⟨os, hresolved', hcopies', hopened⟩ :=
      hresolved.endOpen hcopies hrow hroots hobjects hone
    exact .openCopied rfl hresolved' hcopies' hopened (Bytes.size_resize ..).symm
  | closedCopied hphase hobjects =>
    obtain ⟨roots, ref, xs, os, cs, hresolved, hcopies, hopened, hrow⟩ := h.of_openCopied hphase
    obtain ⟨cs', hresolved', hboth⟩ := hresolved.endClosed hcopies hopened hrow hobjects
    exact .copied rfl hresolved' hboth rfl
  | finalized hphase hplan haddresses => exact h.finalize hphase hplan haddresses
  -- Addresses have been planned for the whole image, so every reference can be stored.
  | relocatedInPart hphase hrequested hfails =>
    obtain ⟨done, hrun⟩ := h.relocation_runs hphase hrequested
    rw [Runs, hfails] at hrun
    cases hrun
  | relocated hphase hrequested hrun =>
    obtain ⟨roots, ref, xs, os, cs, q, hresolved, hboth, hplanned⟩ := h.of_finalized hphase
    rw [hplanned.requested] at hrequested
    cases hrequested
    exact .relocated hresolved hboth hplanned ((hboth.filled hresolved).relocated hplanned hrun) rfl

/-- A call keeps the options and the registry. -/
theorem Leads.frame {c : DumpCall} {result : Except ArchiveError Unit}
    (h : s.Leads g c result t) : t.options = s.options ∧ t.registry = s.registry := by
  have hroots : ∀ {s'}, s.GivesRoots s' → s'.options = s.options ∧ s'.registry = s.registry := by
    intro s' hroots
    cases hroots <;> exact ⟨rfl, rfl⟩
  have hparts : ∀ {s'} {parts : List StagedPart}, Runs (parts.forM copyPart) s () s' →
      s'.options = s.options ∧ s'.registry = s.registry := by
    intro s' parts hrun
    obtain ⟨output, offsets, placements, rfl⟩ := frame_of_runs hrun
    exact ⟨rfl, rfl⟩
  cases h with
  | linked _ hgives _ _ =>
    have hframe := hroots hgives
    exact hframe
  | unlinked _ hgives => exact hroots hgives
  | linkedInPart _ hgives _ _ =>
    have hframe := hroots hgives
    exact hframe
  | copiedInPart _ _ hdone _ => exact hparts hdone
  | lostRoots _ _ hdone => exact hparts hdone
  | overflowed _ hdone _ =>
    have hframe := hparts hdone
    exact hframe
  | openCopied _ _ hobjects hone =>
    rw [forM_stagedIn] at hobjects
    have hframe := hparts hobjects
    rw [(runs_copyOne.mp hone).2]
    exact hframe
  | closedCopied _ hobjects =>
    rw [forM_stagedIn] at hobjects
    have hframe := hparts hobjects
    exact hframe
  | _ => exact ⟨rfl, rfl⟩

/-- A new session stands. -/
theorem stands_start (g : ObjectGraph) (r : TypeRegistry) (o : DumpOptions) :
    (start r o).Stands g :=
  .staging rfl (stocked_start g r o)
    { staged := fun _ hy => nomatch hy
      noted := fun _ _ h => by
        rw [start, Std.TreeMap.getElem?_emptyc] at h
        cases h
      placements := rfl
      boundary := fun _ hy => nomatch hy } rfl

/-- A new session with usable options stands. -/
theorem stands_of_start? {r : TypeRegistry} {o : DumpOptions} (g : ObjectGraph)
    (h : start? r o = .ok s) :
    s.Stands g ∧ s.phase = .staging ∧ s.options = o ∧ s.registry = r ∧ o.check = .ok () := by
  rw [start?, Except.bind_eq_ok] at h
  obtain ⟨⟨⟩, hcheck, h⟩ := h
  rw [Except.pure_eq_ok] at h
  subst h
  exact ⟨stands_start g r o, rfl, rfl, rfl, hcheck⟩

/-- **Behind any calls**, whether or not they succeed, a session stands. -/
theorem stands_performAll (hcheck : s.options.check = .ok ()) (hwords : s.options.InWords)
    (h : s.Stands g) (calls : List DumpCall) :
    (performAll g s calls).2.Stands g ∧ (performAll g s calls).2.options = s.options ∧
      (performAll g s calls).2.registry = s.registry := by
  have hkeeps : ∀ {u v : DumpSession} {c : DumpCall} {result : Except ArchiveError Unit},
      u.Stands g ∧ u.options = s.options ∧ u.registry = s.registry → u.Leads g c result v →
        v.Stands g ∧ v.options = s.options ∧ v.registry = s.registry := by
    rintro u v c result ⟨hstands, hoptions, hregistry⟩ hleads
    obtain ⟨hoptions', hregistry'⟩ := hleads.frame
    exact ⟨hstands.leads (hoptions.symm ▸ hcheck) (hoptions.symm ▸ hwords.capacity_lt) hleads,
      hoptions'.trans hoptions, hregistry'.trans hregistry⟩
  exact performAll_induction
    (fun _ t => t.Stands g ∧ t.options = s.options ∧ t.registry = s.registry)
    (fun _ _ _ _ hI hleads => hkeeps hI hleads) (fun _ _ _ _ _ hI hleads => hkeeps hI hleads) calls
    ⟨h, rfl, rfl⟩

/-- From a new session with usable options, any calls lead to one that stands, under options that
are still usable. -/
theorem stands_of_calls {r : TypeRegistry} {o : DumpOptions} (g : ObjectGraph) (hwords : o.InWords)
    (hstart : start? r o = .ok s) (calls : List DumpCall) :
    (performAll g s calls).2.Stands g ∧ (performAll g s calls).2.options.check = .ok () ∧
      (performAll g s calls).2.options.InWords := by
  obtain ⟨hstands, -, rfl, -, hcheck⟩ := stands_of_start? g hstart
  obtain ⟨hreached, hkept, -⟩ := stands_performAll hcheck hwords hstands calls
  rw [hkept]
  exact ⟨hreached, hcheck, hwords⟩

end HeapImage.DumpSession
