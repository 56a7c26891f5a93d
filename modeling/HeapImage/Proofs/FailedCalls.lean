import HeapImage.Proofs.ImageLayout
import HeapImage.Proofs.SessionStates

/-! # Calls that fail

A session takes nothing back. Most calls test everything before they change anything, so that a call
that fails leaves no trace. Linking gives a session an empty root array before it looks for
referents, and copying goes on until it meets a part that would cross a boundary.

* `DumpSession.Leftover`: what calls that fail can leave behind.
* `DumpSession.leftover_of_fails`: they leave nothing else, whatever has been called before. -/

namespace HeapImage.DumpSession

/-- What a call that fails can leave behind. -/
inductive Leftover (s : DumpSession) : DumpCall → ArchiveError → DumpSession → Prop
  /-- The session is as it was. -/
  | nothing {c : DumpCall} {e : ArchiveError} : Leftover s c e s
  /-- Linking has staged the root array that was missing. -/
  | emptyRoots {array : ByteArray} {e : ArchiveError} : s.phase = .staging →
    s.staging.roots = none → s.staging.prepareRoots [] = .ok array →
    Leftover s .link e { s with staging := s.staging.pushRoots [] array }
  /-- Copying has appended the parts in front of one that would cross a boundary. -/
  | copies {region : Region} {done rest : List StagedPart} {p : StagedPart} {e : ArchiveError} :
    s.phase = (DumpCall.copy region).phase → s.parts region = done ++ p :: rest →
    checkBoundary s.options.alignment (s.appendAll done).output.size p.size = .error e →
    Leftover s (.copy region) e (s.appendAll done)
  /-- Copying has come to the end of an open region behind which a buffer cannot be filled up. -/
  | overflow {rootOffset : Nat} : s.phase = .linked →
    maxBuffer < alignUp (s.appendAll (s.parts .opened)).output.size s.options.alignment →
    Leftover s (.copy .opened) (.bounds .tooLarge)
      ((s.appendAll (s.parts .opened)).overflow rootOffset)

variable {s t : DumpSession} {g : ObjectGraph} {c : DumpCall} {e : ArchiveError}

/-- Copying parts keeps the options. -/
theorem options_of_runs {parts : List StagedPart} {u : Unit}
    (h : Runs (parts.forM copyPart) s u t) : t.options = s.options := by
  obtain ⟨output, offsets, placements, rfl⟩ := frame_of_runs h
  rfl

/-- In a session that stands, only linking and copying leave something behind. -/
theorem Stands.leftover (h : s.Stands g) (hleads : s.Leads g c (.error e) t) :
    s.Leftover c e t := by
  cases hleads with
  -- Three ways to fail do not occur: links to what was staged can be written, planned addresses can
  -- be stored, and a linked session has a root array.
  | refused => exact .nothing
  | unlinked hphase hroots =>
    cases hroots with
    | there => exact .nothing
    | empty hnone hprepare => exact .emptyRoots hphase hnone hprepare
  | linkedInPart hphase hroots hlinks happly =>
    have hok := h.links_written hphase hroots hlinks
    rw [happly] at hok
    cases hok
  | copiedInPart hphase hparts hdone hcheck =>
    rw [options_of_runs hdone, eq_appendAll_of_runs hdone] at hcheck
    rw [eq_appendAll_of_runs hdone]
    exact .copies hphase hparts hcheck
  | lostRoots hphase hnone _ =>
    obtain ⟨roots, ref, xs, ys, hresolved, -, -⟩ := h.of_linked hphase
    have hsome := hresolved.hasRoots
    rw [hnone] at hsome
    cases hsome
  | overflowed hphase hdone hlarge =>
    rw [options_of_runs hdone, eq_appendAll_of_runs hdone] at hlarge
    rw [eq_appendAll_of_runs hdone]
    exact .overflow hphase hlarge
  | relocatedInPart hphase hrequested hfails =>
    obtain ⟨done, hrun⟩ := h.relocation_runs hphase hrequested
    rw [Runs, hfails] at hrun
    cases hrun

/-- **What a call that fails leaves behind**, in any state that calls over one graph lead to. -/
theorem leftover_of_fails {r : TypeRegistry} {o : DumpOptions} {s₀ : DumpSession}
    (hwords : o.InWords) (hstart : start? r o = .ok s₀) (calls : List DumpCall)
    (h : Fails (c.step g) (performAll g s₀ calls).2 e t) :
    (performAll g s₀ calls).2.Leftover c e t := by
  obtain ⟨hreached, -⟩ := stands_of_calls g hwords hstart calls
  exact hreached.leftover (leads_of_fails h)

/-- A call that is seen to fail leaves what it is seen to leave. -/
theorem exists_fails_of_any {f : DumpStep Unit} {p : DumpSession → Bool}
    (h : (match f.run s with
      | (.ok _, _) => false
      | (.error _, t) => p t) = true) : ∃ e t, Fails f s e t ∧ p t = true := by
  cases hrun : f.run s with
  | mk result t =>
    rw [hrun] at h
    cases result with
    | ok u => cases h
    | error e => exact ⟨e, t, hrun, h⟩

/-- The first pair cannot be linked without the second one. -/
theorem leftover_of_fails_cycle : ∃ e t, DumpOptions.small.InWords ∧
    start? .pairs .small = .ok (start .pairs .small) ∧
    Fails (DumpCall.link.step .cycle)
      (performAll .cycle (start .pairs .small) [.allocate ⟨0⟩ .opened]).2 e t ∧
    (performAll .cycle (start .pairs .small) [.allocate ⟨0⟩ .opened]).2.Leftover .link e t := by
  obtain ⟨e, t, hfails, -⟩ := exists_fails_of_any (f := DumpCall.link.step .cycle)
    (s := (performAll .cycle (start .pairs .small) [.allocate ⟨0⟩ .opened]).2) (p := fun _ => true)
    (by decide +kernel)
  exact ⟨e, t, DumpOptions.inWords_small, start?_small, hfails,
    leftover_of_fails DumpOptions.inWords_small start?_small _ hfails⟩

/-- **Calls that fail are not taken back.** Linking the first pair alone fails and leaves a root
array, so that the roots cannot be staged any more when the second pair has been added. Copying the
first pair and five roots fails at the roots and leaves the copy of the pair. -/
theorem fails_with_traces :
    (∃ e t, Fails (DumpCall.link.step .cycle)
        (performAll .cycle (start .pairs .small) [.allocate ⟨0⟩ .opened]).2 e t ∧
      t ≠ (performAll .cycle (start .pairs .small) [.allocate ⟨0⟩ .opened]).2) ∧
    (performAll .cycle (start .pairs .small)
        [.allocate ⟨0⟩ .opened, .link, .allocate ⟨1⟩ .opened, .allocateRoots [⟨0⟩]]).1 =
      [.allocate ⟨0⟩ .opened, .allocate ⟨1⟩ .opened] ∧
    (performAll .cycle (start .pairs .small)
        [.allocate ⟨0⟩ .opened, .allocate ⟨1⟩ .opened, .allocateRoots [⟨0⟩]]).1 =
      [.allocate ⟨0⟩ .opened, .allocate ⟨1⟩ .opened, .allocateRoots [⟨0⟩]] ∧
    ∃ e t, Fails ((DumpCall.copy .opened).step .cycle)
        (performAll .cycle (start .pairs .small) [.allocate ⟨0⟩ .opened, .allocate ⟨1⟩ .closed,
          .allocateRoots [⟨0⟩, ⟨0⟩, ⟨0⟩, ⟨0⟩, ⟨0⟩], .link]).2 e t ∧
      t ≠ (performAll .cycle (start .pairs .small) [.allocate ⟨0⟩ .opened, .allocate ⟨1⟩ .closed,
        .allocateRoots [⟨0⟩, ⟨0⟩, ⟨0⟩, ⟨0⟩, ⟨0⟩], .link]).2 := by
  refine ⟨?_, by decide +kernel, by decide +kernel, ?_⟩
  · obtain ⟨e, t, hfails, hroots⟩ := exists_fails_of_any (f := DumpCall.link.step .cycle)
      (s := (performAll .cycle (start .pairs .small) [.allocate ⟨0⟩ .opened]).2)
      (p := fun t => t.staging.roots.isSome) (by decide +kernel)
    -- What is left behind tells the states apart.
    refine ⟨e, t, hfails, ?_⟩
    rintro rfl
    exact absurd hroots (by decide +kernel)
  · obtain ⟨e, t, hfails, hsize⟩ := exists_fails_of_any
      (f := (DumpCall.copy .opened).step .cycle)
      (s := (performAll .cycle (start .pairs .small) [.allocate ⟨0⟩ .opened, .allocate ⟨1⟩ .closed,
        .allocateRoots [⟨0⟩, ⟨0⟩, ⟨0⟩, ⟨0⟩, ⟨0⟩], .link]).2)
      (p := fun t => t.output.size != 0) (by decide +kernel)
    refine ⟨e, t, hfails, ?_⟩
    rintro rfl
    exact absurd hsize (by decide +kernel)

end HeapImage.DumpSession
