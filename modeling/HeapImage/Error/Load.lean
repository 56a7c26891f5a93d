import HeapImage.Bounds
import HeapImage.Reference

/-!
# Faults of loading

Once objects have been materialized a load cannot be given up silently. These are the causes that
stop it, together with those of reading and verifying objects in heap memory.

* `AllocationError`: a refusal of the destination heap.
* `StreamFault`: an archived object that cannot be copied.
* `VerifyFault`: a heap whose objects or references do not hold together.
* `LoadFault`: all causes of a failed load or view.
-/

namespace HeapImage

/-- An allocation that a heap refuses. -/
inductive AllocationError where
  | heapExhausted (requested limit : Nat)
  | unsupported (reason : String)
  /-- A chunk of more bytes than a buffer can have is needed. -/
  | tooLarge
  deriving DecidableEq, Repr

/-- The wording of a refusal. -/
def AllocationError.message : AllocationError → String
  | heapExhausted requested limit =>
    "Initial heap size too small: " ++ toString requested ++ " bytes requested, limit is " ++
      toString limit
  | unsupported reason => "Unsupported allocation: " ++ reason
  | tooLarge => BoundsFault.tooLarge.message

/-- Why no object can be read at a place of a region. -/
inductive StreamFault where
  | truncatedHeader
  | unknownType (typeIndex : TypeIndex)
  | badLength (typeName : String) (length : UInt32)
  | overrun (typeName : String)
  deriving DecidableEq, Repr

/-- The wording of a fault met while copying objects. -/
def StreamFault.message : StreamFault → String
  | truncatedHeader => "truncated header"
  | unknownType _ => "unknown type"
  | badLength .. => "bad length"
  | overrun _ => "object runs past the region end"

/-- What is wrong with a heap that should hold loaded objects only. -/
inductive VerifyFault where
  | unreadableHeader (address : Nat)
  | unknownType (typeIndex : TypeIndex) (address : Nat)
  | badLength (typeName : String) (address : Nat) (length : UInt32)
  | overrun (bottom top : Nat)
  | unreadableReference (address : Nat)
  | strayReference (typeName : String) (address target : Nat)
  deriving DecidableEq, Repr

/-- The wording of a fault. -/
def VerifyFault.message : VerifyFault → String
  | unreadableHeader a => "unreadable header at " ++ hexNumeral a
  | unknownType t a => "unknown type " ++ toString t.toNat ++ " at " ++ hexNumeral a
  | badLength typeName a n =>
    typeName ++ " at " ++ hexNumeral a ++ " has length " ++ toString n.toNat
  | overrun bottom top =>
    "last object overruns extent " ++ hexNumeral bottom ++ ".." ++ hexNumeral top
  | unreadableReference a => "unreadable reference at " ++ hexNumeral a
  | strayReference typeName a target =>
    typeName ++ " field at " ++ hexNumeral a ++ " points at " ++ hexNumeral target ++
      ", which is not a loaded object"

/-- The wording of an address that an encoding cannot hold. -/
def EncodeFault.describe (fault : EncodeFault) (a : Nat) : String :=
  "Address " ++ hexNumeral a ++ " cannot be encoded: " ++ fault.message

/-- Why a load or a view of loaded objects fails. -/
inductive LoadFault where
  | stream (offset : Nat) (fault : StreamFault)
  | unusableMemory (address : Nat)
  | unreadableNative (address : Nat)
  | unwritableNative (address : Nat)
  | unreadableReference (address : Nat)
  | unwritableReference (address : Nat)
  | unresolvedReference (value : Nat) (address : Nat)
  | unencodable (target address : Nat) (fault : EncodeFault)
  | noObjectStart (offset : Nat)
  | verification (fault : VerifyFault)
  | unreadableObject (address : Nat)
  | objectLength (typeName : String) (address : Nat) (length : UInt32)
  | noField (typeName : String) (address : Nat) (field : Nat)
  | notReference (field : Nat) (typeName : String)
  | notScalar (field : Nat) (typeName : String)
  deriving DecidableEq, Repr

/-- The wording of a fault. -/
def LoadFault.message : LoadFault → String
  | stream offset fault =>
    "corrupt object stream at @" ++ hexNumeral offset ++ ": " ++ fault.message
  | unusableMemory a => "allocator returned unusable memory at " ++ hexNumeral a
  | unreadableNative a => "unreadable native field at " ++ hexNumeral a
  | unwritableNative a => "unwritable native field at " ++ hexNumeral a
  | unreadableReference a => "unreadable reference at " ++ hexNumeral a
  | unwritableReference a => "unwritable reference at " ++ hexNumeral a
  | unresolvedReference value a =>
    "reference " ++ hexNumeral value ++ " at " ++ hexNumeral a ++
      " does not name an archived object"
  | unencodable target a fault =>
    "cannot encode " ++ hexNumeral target ++ " at " ++ hexNumeral a ++ ": " ++
      fault.describe target
  | noObjectStart offset => "no archived object starts at image offset " ++ hexNumeral offset
  | verification fault => "verification failed: " ++ fault.message
  | unreadableObject a => "unreadable object memory at " ++ hexNumeral a
  | objectLength typeName a n =>
    typeName ++ " at " ++ hexNumeral a ++ " has length " ++ toString n.toNat
  | noField typeName a field =>
    typeName ++ " at " ++ hexNumeral a ++ " has no field " ++ toString field
  | notReference field typeName =>
    "field " ++ toString field ++ " of " ++ typeName ++ " is not a reference"
  | notScalar field typeName =>
    "field " ++ toString field ++ " of " ++ typeName ++ " is a reference"

end HeapImage
