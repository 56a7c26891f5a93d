import HeapImage.Bounds
import HeapImage.Error.Format
import HeapImage.Error.Load
import HeapImage.Graph.Basic

/-!
# Errors

Every failure is a cause with its data. The text of a cause is written in one place, and its class
says what a program that starts up has to do about it.

* `ArchiveError`: all causes.
* `ArchiveError.message`: the text of a cause.
* `ArchiveError.severity`, `ArchiveError.isRecoverable`: whether the archive can simply be left out.
-/

namespace HeapImage

/-- Why options cannot be used. -/
inductive OptionFault where
  | alignment (alignment : Nat)
  | heapEnd (heapEnd : Nat)
  | reversedNativeRange
  | capacity (capacity : Nat)
  | unknownMode (text : String)
  | notBoolean (setting text : String)
  deriving DecidableEq, Repr

/-- The wording of a fault. -/
def OptionFault.message : OptionFault → String
  | alignment n =>
    "region alignment " ++ toString n ++ " must be a power of two of at least " ++
      toString headerSize ++ " bytes"
  | heapEnd n => "heap end " ++ hexNumeral n ++ " is below the region alignment"
  | reversedNativeRange => "native range is reversed"
  | capacity n => "buffer capacity " ++ toString n ++ " too large for narrow references"
  | unknownMode text => "unknown load mode '" ++ text ++ "'"
  | notBoolean setting text => setting ++ ": expected a boolean, got '" ++ text ++ "'"

/-- A dump step taken in the wrong phase. -/
inductive OrderFault where
  | stagingOver
  | rootStagingOver
  | rootsStagedTwice
  | linkedTwice
  | openNotFirst
  | closedNotSecond
  | rootsMissing
  | notCopied
  | notFinalized
  | notRelocated
  deriving DecidableEq, Repr

/-- The wording of a fault. -/
def OrderFault.message : OrderFault → String
  | stagingOver => "objects must be staged before linking"
  | rootStagingOver => "roots must be staged before linking"
  | rootsStagedTwice => "root array staged twice"
  | linkedTwice => "references are linked once"
  | openNotFirst => "open region is copied first"
  | closedNotSecond => "closed region follows the open region"
  | rootsMissing => "root array missing"
  | notCopied => "both regions must be copied first"
  | notFinalized => "finalize before relocating"
  | notRelocated => "relocate before building maps"

/-- Why regions cannot be given addresses. -/
inductive RegionFault where
  | rootArrayTooLarge (size alignment : Nat)
  | closedTooLarge (size heapEnd : Nat)
  | noRoom (size heapEnd : Nat)
  | overlap
  deriving DecidableEq, Repr

/-- The wording of a fault. -/
def RegionFault.message : RegionFault → String
  | rootArrayTooLarge size alignment =>
    "root array of " ++ toString size ++ " bytes exceeds the " ++ toString alignment ++
      " byte region alignment"
  | closedTooLarge size heapEnd =>
    "closed region of " ++ toString size ++ " bytes exceeds heap end " ++ hexNumeral heapEnd
  | noRoom size heapEnd =>
    toString size ++ " bytes of regions do not fit below " ++ hexNumeral heapEnd
  | overlap => "open and closed regions overlap"

/-- Why the encoding of an archive and that of the running heap do not go together. -/
inductive EncodingFault where
  | shiftTooLarge (shift : Nat)
  | widthMismatch (dump runtime : ReferenceEncoding)
  | imageUnreachable (address : Nat) (fault : EncodeFault)
  deriving DecidableEq, Repr

/-- The wording of a fault. -/
def EncodingFault.message : EncodingFault → String
  | shiftTooLarge n =>
    "narrow shift " ++ toString n ++ " exceeds " ++ toString ReferenceEncoding.maxShift
  | widthMismatch dump runtime =>
    "archive uses " ++ dump.describe ++ " references, runtime uses " ++ runtime.describe
  | imageUnreachable a fault => "runtime cannot reference the image: " ++ fault.describe a

/-- Why an image cannot be mapped. -/
inductive MappingFault where
  | refused (length : Nat) (base : Nat)
  | misaligned (base : Nat) (alignment : Nat)
  deriving DecidableEq, Repr

/-- The wording of a fault. -/
def MappingFault.message : MappingFault → String
  | refused length base => toString length ++ " bytes at " ++ hexNumeral base
  | misaligned base alignment =>
    "granted base " ++ hexNumeral base ++ " is not " ++ toString alignment ++ " byte aligned"

/-- What to do about an error. -/
inductive Severity where
  /-- A limit was exceeded; larger limits may help. -/
  | capacity
  /-- The input or the library contradicts itself. -/
  | consistency
  /-- The archive can be left out of this run. -/
  | recoverable
  /-- The run has to stop. -/
  | fatal
  deriving DecidableEq, Repr

/-- Every cause of failure. -/
inductive ArchiveError where
  | stagingExhausted (requested capacity : Nat)
  | objectTooLarge (object : ObjectId) (size alignment : Nat)
  | regions (fault : RegionFault)
  | straddlesBoundary (offset size alignment : Nat)
  | mapMismatch (region : Region) (bit : Nat)
  | unknownType (typeIndex : TypeIndex)
  | invalidType (rejection : TypeRejection)
  | graph (fault : GraphFault)
  | unarchivedReferent (referrer referent : ObjectId)
  | unencodable (address : Nat) (fault : EncodeFault)
  | options (fault : OptionFault)
  | outOfOrder (fault : OrderFault)
  | format (error : FormatError)
  | encoding (fault : EncodingFault)
  | mapping (fault : MappingFault)
  | undecodable (offset value : Nat)
  | allocation (error : AllocationError)
  | load (fault : LoadFault)
  | bounds (fault : BoundsFault)
  deriving DecidableEq, Repr

namespace ArchiveError

/-- The text of an error. -/
def message : ArchiveError → String
  | stagingExhausted requested capacity =>
    "Staging buffer exhausted: need " ++ toString requested ++ " bytes, capacity is " ++
      toString capacity
  | objectTooLarge object size alignment =>
    "Object " ++ object.name ++ " is " ++ toString size ++ " bytes, larger than the " ++
      toString alignment ++ " byte region alignment"
  | regions fault => "Archive regions do not fit: " ++ fault.message
  | straddlesBoundary offset size alignment =>
    "Object at output offset " ++ hexNumeral offset ++ " (" ++ toString size ++
      " bytes) crosses a " ++ toString alignment ++ " byte boundary"
  | mapMismatch region bit =>
    "Reference map mismatch in " ++ region.name ++ " region at bit " ++ toString bit
  | unknownType t => "Unknown type index " ++ toString t.toNat
  | invalidType e => e.message
  | graph fault => "Invalid object graph: " ++ fault.message
  | unarchivedReferent referrer referent =>
    "Object " ++ referrer.name ++ " references " ++ referent.name ++ ", which is not archived"
  | unencodable a fault => fault.describe a
  | options fault => "Invalid options: " ++ fault.message
  | outOfOrder fault => "Session step out of order: " ++ fault.message
  | format e => e.message
  | encoding fault => "Incompatible reference encoding: " ++ fault.message
  | mapping fault => "Mapped region unavailable: " ++ fault.message
  | undecodable offset value =>
    "Reference at image offset " ++ hexNumeral offset ++ " holds undecodable value " ++
      hexNumeral value
  | allocation e => "Cannot load archived heap: " ++ e.message
  | load fault => "Cannot load archived heap: " ++ fault.message
  | bounds fault => fault.message

/-- The messages of the errors behind an error, nearest first. -/
def causes : ArchiveError → List String
  | format e => e.causes
  | allocation e => [e.message]
  | _ => []

/-- A refused allocation as an error. -/
def ofAllocation : AllocationError → ArchiveError
  | .tooLarge => bounds .tooLarge
  | e => allocation e

/-- What to do about an error. -/
def severity : ArchiveError → Severity
  | stagingExhausted .. | objectTooLarge .. | regions _ => .capacity
  | straddlesBoundary .. | mapMismatch .. | unknownType _ | invalidType _ | graph _
  | unarchivedReferent .. | unencodable .. | options _ | outOfOrder _ => .consistency
  | format _ | encoding _ | mapping _ | undecodable .. => .recoverable
  | allocation _ | load _ | bounds _ => .fatal

/-- The archive can be left out of this run. -/
def isRecoverable (e : ArchiveError) : Bool := e.severity == .recoverable

end ArchiveError

/-! ### Lookups that have to succeed -/

/-- The type with an index, which has to be registered. -/
def TypeRegistry.require (r : TypeRegistry) (i : TypeIndex) : Except ArchiveError TypeInfo :=
  match r.get? i with
  | some t => .ok t
  | none => .error (.unknownType i)

namespace ReferenceEncoding

/-- Refuses an encoding with a shift that references may not use. -/
def check (e : ReferenceEncoding) : Except ArchiveError Unit :=
  if e.isSupported then .ok () else .error (.encoding (.shiftTooLarge e.shift))

/-- The stored value of an address, which has to have one. -/
def require (e : ReferenceEncoding) (a : Nat) : Except ArchiveError Nat :=
  match e.encode a with
  | .ok value => .ok value
  | .error fault => .error (.unencodable a fault)

end ReferenceEncoding

end HeapImage
