import HeapImage.Heap.Verify
import HeapImage.Load.Copy
import HeapImage.Load.Options

/-!
# Loading an archive

A program that starts up loads an archive if it can. What is wrong with the archive itself, or with
the place it asks for, only disables it; everything else stops the program.

* `LoadOutcome`: a mapped image, copied objects, or the reason why there is neither.
* `loadArchive`: the load that the options ask for.
* `Gate`, `bootstrap`: the root of the loaded heap, published once.
-/

namespace HeapImage

/-- What a load ends with, short of failure. -/
inductive LoadOutcome where
  | mapped (image : MappedImage)
  | loaded (objects : CopiedObjects)
  | disabled (reason : ArchiveError)

namespace LoadOutcome

/-- The address of the root array, if the archive was loaded. -/
def root? : LoadOutcome → Option Nat
  | mapped m => some m.root
  | loaded c => some c.root
  | disabled _ => none

/-- The archive was loaded. -/
def isAvailable : LoadOutcome → Bool
  | disabled _ => false
  | _ => true

/-- Where its objects are. -/
def extents : LoadOutcome → List Extent
  | mapped m => m.regions
  | loaded c => c.extents
  | disabled _ => []

/-- How the archive was loaded. -/
def mode? : LoadOutcome → Option LoadMode
  | mapped _ => some .mapped
  | loaded _ => some .loaded
  | disabled _ => none

end LoadOutcome

section

variable {μ : Type} [Destination μ] [MappingHost μ]

/-- The distance of the native image from where the dump expected it, wrapped to a heap word. -/
def nativeDelta (a : Archive) (options : LoadOptions) : UInt64 :=
  match options.nativeBase with
  | some base => base - a.header.nativeBase
  | none => 0

/-- Maps an archive. -/
def mapOutcome (a : Archive) (heap : μ) (runtime : ReferenceEncoding) (delta : UInt64) :
    Except ArchiveError LoadOutcome × μ :=
  match mapImage a heap runtime delta with
  | (.ok m, heap) => (.ok (.mapped m), heap)
  | (.error e, heap) => (.error e, heap)

/-- Copies the objects of an archive. -/
def copyOutcome (a : Archive) (heap : μ) (runtime : ReferenceEncoding) (delta : UInt64) :
    Except ArchiveError LoadOutcome × μ :=
  match copyImage a heap runtime delta with
  | (.ok c, heap) => (.ok (.loaded c), heap)
  | (.error e, heap) => (.error e, heap)

/-- Maps an archive, or reads it anew and copies its objects if it cannot be mapped. -/
def autoOutcome (source : ArchiveSource) (checksum : Bool) (a : Archive) (heap : μ)
    (runtime : ReferenceEncoding) (delta : UInt64) : Except ArchiveError LoadOutcome × μ :=
  match mapOutcome a heap runtime delta with
  | (.ok outcome, heap) => (.ok outcome, heap)
  | (.error e, heap) =>
    if e.isRecoverable then
      match source.open? checksum with
      | .error e => (.error (.format e), heap)
      | .ok a => copyOutcome a heap runtime delta
    else (.error e, heap)

/-- Verifies what was loaded. -/
def verifyOutcome (heap : μ) : LoadOutcome → Except ArchiveError VerifyReport
  | .mapped m => verifyHeap m.heap m.types m.encoding m.regions
  | .loaded c => verifyHeap heap c.types c.encoding c.extents
  | .disabled _ => .ok ⟨0, 0, 0⟩

/-- Loads an archive; every failure is an error. -/
def tryLoad (source : ArchiveSource) (heap : μ) (options : LoadOptions) :
    Except ArchiveError LoadOutcome × μ :=
  match source.open? options.verifyChecksum with
  | .error e => (.error (.format e), heap)
  | .ok a =>
    let runtime := options.runtime.getD a.encoding
    let delta := nativeDelta a options
    let (result, heap) :=
      match options.mode with
      | .mapped => mapOutcome a heap runtime delta
      | .loaded => copyOutcome a heap runtime delta
      | .auto => autoOutcome source options.verifyChecksum a heap runtime delta
    match result with
    | .error e => (.error e, heap)
    | .ok outcome =>
      if options.verifyAfterLoad then
        match verifyOutcome heap outcome with
        | .ok _ => (.ok outcome, heap)
        | .error e => (.error e, heap)
      else (.ok outcome, heap)

/-- The assertion that fails while an archive is loaded, if one does. -/
def loadAssertion? (source : ArchiveSource) (heap : μ) (options : LoadOptions) :
    Option Disagreement :=
  match options.mode, source.open? options.verifyChecksum with
  | .loaded, _ | _, .error _ => none
  | _, .ok a => mappingAssertion? a heap (options.runtime.getD a.encoding)

/-- Loads an archive; a failure that the program can do without the archive for disables it. -/
def loadArchive (source : ArchiveSource) (heap : μ) (options : LoadOptions) :
    Except ArchiveError LoadOutcome × μ :=
  match tryLoad source heap options with
  | (.ok outcome, heap) => (.ok outcome, heap)
  | (.error e, heap) => if e.isRecoverable then (.ok (.disabled e), heap) else (.error e, heap)

end

/-! ### Publishing the root -/

/-- The root of the loaded heap, once it is there. -/
structure Gate where
  root : Option Nat
  deriving DecidableEq, Repr

namespace Gate

/-- The gate before anything is published. -/
def shut : Gate := ⟨none⟩

/-- A root has been published. -/
def isReady (g : Gate) : Bool := g.root.isSome

/-- Publishes a root unless one has been published; says whether it did. -/
def publish (g : Gate) (root : Nat) : Bool × Gate :=
  match g.root with
  | some _ => (false, g)
  | none => (true, ⟨some root⟩)

end Gate

/-- Loads an archive and publishes its root if there is one. -/
def bootstrap {μ : Type} [Destination μ] [MappingHost μ] (source : ArchiveSource) (heap : μ)
    (options : LoadOptions) (gate : Gate) : Except ArchiveError LoadOutcome × μ × Gate :=
  match loadArchive source heap options with
  | (.error e, heap) => (.error e, heap, gate)
  | (.ok outcome, heap) =>
    match outcome.root? with
    | some root => (.ok outcome, heap, (gate.publish root).2)
    | none => (.ok outcome, heap, gate)

end HeapImage
