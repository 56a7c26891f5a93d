import HeapImage.Object.Header

/-!
# Reference encodings

A reference slot holds a full address (wide) or a scaled 32-bit distance from a base address
(narrow). Zero stands for null in both.

* `ReferenceEncoding`: the two encodings, with slot width, base and scale.
* `ReferenceEncoding.encode`, `ReferenceEncoding.decode`: between addresses and stored values.
* `EncodeFault`: the ways in which an address has no narrow form.
* `ReferenceEncoding.shiftConstant?`: the number that turns every value of one encoding into the
  value of another for a heap moved as a whole, if a single number does.
-/

namespace HeapImage

/-- How reference slots hold addresses. -/
inductive ReferenceEncoding where
  /-- The address itself in a heap word. -/
  | wide
  /-- The distance from `base` divided by `2 ^ shift`, in half a heap word. -/
  | narrow (base : UInt64) (shift : UInt32)
  deriving DecidableEq, Repr

/-- Why an address cannot be stored. -/
inductive EncodeFault where
  | belowBase
  | misaligned
  | collidesWithNull
  | beyondRange
  deriving DecidableEq, Repr

/-- The wording of a fault. -/
def EncodeFault.message : EncodeFault → String
  | .belowBase => "below the narrow base"
  | .misaligned => "misaligned for the narrow shift"
  | .collidesWithNull => "collides with the null encoding"
  | .beyondRange => "beyond the narrow range"

namespace ReferenceEncoding

/-- The largest shift a narrow encoding may use. -/
def maxShift : Nat := 3

/-- The largest value of a narrow slot. -/
def maxNarrow : Nat := 0xffffffff

instance : Inhabited ReferenceEncoding := ⟨.narrow 0 3⟩

/-- Bytes of a reference slot. -/
def slotSize : ReferenceEncoding → Nat
  | wide => 8
  | narrow .. => 4

/-- The address that distances are measured from. -/
def base : ReferenceEncoding → Nat
  | wide => 0
  | narrow b _ => b.toNat

/-- The binary logarithm of the unit of distance. -/
def shift : ReferenceEncoding → Nat
  | wide => 0
  | narrow _ s => s.toNat

/-- The encoding is the narrow one. -/
def isNarrow : ReferenceEncoding → Bool
  | wide => false
  | narrow .. => true

/-- The shift is one that references may use. -/
def isSupported (e : ReferenceEncoding) : Bool := e.shift ≤ maxShift

/-- The listing form, as in `narrow(base=0x0, shift=3)`. -/
def describe : ReferenceEncoding → String
  | wide => "wide"
  | narrow b s => "narrow(base=" ++ hexNumeral b.toNat ++ ", shift=" ++ toString s.toNat ++ ")"

/-- The highest address a narrow encoding may reach, cut off at the end of the address space. -/
def maxAddress? : ReferenceEncoding → Option Nat
  | wide => none
  | narrow b s => some (min 0xffffffffffffffff (b.toNat + maxNarrow <<< s.toNat))

/-- The stored value of an address. Narrow values are never zero except for null, so the base
itself cannot be stored. -/
def encode (e : ReferenceEncoding) (a : Nat) : Except EncodeFault Nat :=
  match e with
  | wide => .ok a
  | narrow b s =>
    if a = 0 then .ok 0
    else if a < b.toNat then .error .belowBase
    else
      let offset := a - b.toNat
      let unit := 1 <<< s.toNat
      let value := offset / unit
      if offset % unit ≠ 0 then .error .misaligned
      else if value = 0 then .error .collidesWithNull
      else if maxNarrow < value then .error .beyondRange
      else .ok value

/-- The address that a stored value stands for. A distance is a heap word, so what scaling moves
beyond one is lost; no value of a narrow slot is as large. -/
def decode (e : ReferenceEncoding) (value : Nat) : Nat :=
  match e with
  | wide => value
  | narrow b s => if value = 0 then 0 else b.toNat + (value <<< s.toNat) % 0x10000000000000000

/-- Zero is null in every encoding. -/
@[simp] theorem decode_zero (e : ReferenceEncoding) : e.decode 0 = 0 := by
  cases e <;> rfl

/-! ### Moving a whole heap -/

/-- The end of the numbers that fit a signed heap word. -/
def signedLimit : Int := 0x8000000000000000

/-- For slots of one width: the constant which, added to a stored value, gives the stored value
under `runtime` of an address moved by `delta`. There is one for wide slots, and for narrow slots
with one shift if the total distance is a whole number of units. -/
def shiftConstant? (dump runtime : ReferenceEncoding) (delta : Int) : Option Int :=
  match dump, runtime with
  | wide, wide => some delta
  | narrow db ds, narrow rb rs =>
    if ds ≠ rs then none
    else
      let total := delta + db.toNat - rb.toNat
      let unit : Int := (1 <<< ds.toNat : Nat)
      if total % unit ≠ 0 then none
      else
        let units := total / unit
        if -signedLimit ≤ units ∧ units < signedLimit then some units else none
  | _, _ => none

end ReferenceEncoding

end HeapImage
