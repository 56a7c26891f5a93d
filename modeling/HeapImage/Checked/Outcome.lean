import HeapImage.Checked.Copy
import HeapImage.Checked.Verify
import HeapImage.CommandLine.Run
import HeapImage.Load.Outcome

/-!
# Checked loads

A load of any mode with checked operations, and the sum that the listing of a header prints. A load
that comes to a fault leaves the heap as it was at that point, with a range still set aside or with
objects half copied.

* `Checked.tryLoad`, `Checked.loadArchive`: the load that the options ask for.
* `Checked.bootstrap`: the same with the root published, unless there is a fault.
* `Checked.infoFile`: shows the header of an archive.
-/

namespace HeapImage.Checked

section

variable {μ : Type} [Destination μ] [MappingHost μ] [HeapSums μ] (checks : Checks)

/-- Maps an archive. -/
def mapOutcome (a : Archive) (heap : μ) (runtime : ReferenceEncoding) (delta : UInt64) :
    CheckedRun μ (Except ArchiveError LoadOutcome × μ) := do
  match ← mapImage checks a heap runtime delta with
  | (.ok m, heap) => return (.ok (.mapped m), heap)
  | (.error e, heap) => return (.error e, heap)

/-- Copies the objects of an archive. -/
def copyOutcome (a : Archive) (heap : μ) (runtime : ReferenceEncoding) (delta : UInt64) :
    CheckedRun μ (Except ArchiveError LoadOutcome × μ) := do
  match ← copyImage checks.space a heap runtime delta with
  | (.ok c, heap) => return (.ok (.loaded c), heap)
  | (.error e, heap) => return (.error e, heap)

/-- Maps an archive, or reads it anew and copies its objects if it cannot be mapped. -/
def autoOutcome (source : ArchiveSource) (checksum : Bool) (a : Archive) (heap : μ)
    (runtime : ReferenceEncoding) (delta : UInt64) :
    CheckedRun μ (Except ArchiveError LoadOutcome × μ) := do
  match ← mapOutcome checks a heap runtime delta with
  | (.ok outcome, heap) => return (.ok outcome, heap)
  | (.error e, heap) =>
    if e.isRecoverable then
      match source.open? checksum with
      | .error e => return (.error (.format e), heap)
      | .ok a => copyOutcome checks a heap runtime delta
    else return (.error e, heap)

omit [MappingHost μ] [HeapSums μ] in
/-- Verifies what was loaded. -/
def verifyOutcome (heap : μ) : LoadOutcome → Checked (Except ArchiveError VerifyReport)
  | .mapped m => verifyHeap checks.space m.heap m.types m.encoding m.regions
  | .loaded c => verifyHeap checks.space heap c.types c.encoding c.extents
  | .disabled _ => .ok (.ok ⟨0, 0, 0⟩)

/-- What a mode asks for, with an archive that has been read. -/
def attempt (source : ArchiveSource) (a : Archive) (heap : μ) (options : LoadOptions) :
    LoadMode → CheckedRun μ (Except ArchiveError LoadOutcome × μ)
  | .mapped => mapOutcome checks a heap (options.runtime.getD a.encoding) (nativeDelta a options)
  | .loaded => copyOutcome checks a heap (options.runtime.getD a.encoding) (nativeDelta a options)
  | .auto => autoOutcome checks source options.verifyChecksum a heap
      (options.runtime.getD a.encoding) (nativeDelta a options)

/-- Loads an archive; every failure is an error. -/
def tryLoad (source : ArchiveSource) (heap : μ) (options : LoadOptions) :
    CheckedRun μ (Except ArchiveError LoadOutcome × μ) :=
  match source.open? options.verifyChecksum with
  | .error e => .ok (.error (.format e), heap)
  | .ok a => do
    match ← attempt checks source a heap options options.mode with
    | (.error e, heap) => return (.error e, heap)
    | (.ok outcome, heap) =>
      if options.verifyAfterLoad then
        match ← (verifyOutcome checks heap outcome).inState heap with
        | .ok _ => return (.ok outcome, heap)
        | .error e => return (.error e, heap)
      else return (.ok outcome, heap)

/-- Loads an archive; a failure that the program can do without the archive for disables it. -/
def loadArchive (source : ArchiveSource) (heap : μ) (options : LoadOptions) :
    CheckedRun μ (Except ArchiveError LoadOutcome × μ) := do
  match ← tryLoad checks source heap options with
  | (.ok outcome, heap) => return (.ok outcome, heap)
  | (.error e, heap) =>
    if e.isRecoverable then return (.ok (.disabled e), heap) else return (.error e, heap)

/-- Loads an archive and publishes its root if there is one. A fault publishes nothing. -/
def bootstrap (source : ArchiveSource) (heap : μ) (options : LoadOptions) (gate : Gate) :
    CheckedRun μ (Except ArchiveError LoadOutcome × μ × Gate) := do
  match ← loadArchive checks source heap options with
  | (.error e, heap) => return (.error e, heap, gate)
  | (.ok outcome, heap) =>
    match outcome.root? with
    | some root => return (.ok outcome, heap, (gate.publish root).2)
    | none => return (.ok outcome, heap, gate)

end

/-- Shows the header of an archive; the last line about its addresses has the end of the native
image. -/
def infoFile (space : AddressSpace) (file : String) (contents : CommandLine.FileContents) :
    Checked (Except CommandLine.Failure (List String)) := do
  if let .ok bytes := contents then
    if let .ok a := Archive.ofBytes bytes false then
      space.check [a.header.nativeBase.toNat + a.header.nativeSize.toNat]
  return CommandLine.infoFile file contents

end HeapImage.Checked
