import HeapImage.Text.Numeral

/-!
# Object headers

An archived object is a whole number of heap words. Two words come first: the mark word, which the
library only carries along, and the layout word with the type index in its low half and the length
in its high half.

* `ObjectHeader`: the decoded pair of words.
* `ObjectHeader.read?`, `ObjectHeader.write`: the header at an offset of a byte array.
* `ObjectHeader.ofWords_layoutWord`: the layout word holds exactly type index and length.
-/

namespace HeapImage

/-- Position of a type in a type registry. -/
abbrev TypeIndex := UInt32

/-- Bytes of an object header. -/
def headerSize : Nat := 2 * wordSize

/-- The distance from the address `base` up to the address `a`, if `a` does not lie below it. -/
def offsetFrom? (a base : Nat) : Option Nat := if base ≤ a then some (a - base) else none

/-- The words in front of an object's payload. -/
structure ObjectHeader where
  /-- Hash and lock bits, of no meaning to the library. -/
  mark : UInt64
  /-- The object's type. -/
  typeIndex : TypeIndex
  /-- Field count of a record, element count of an array. -/
  length : UInt32
  deriving DecidableEq, Repr

namespace ObjectHeader

/-- Type index and length in one word. -/
def layoutWord (h : ObjectHeader) : UInt64 :=
  UInt64.ofNat (h.typeIndex.toNat + 0x100000000 * h.length.toNat)

/-- The header in a mark word and a layout word. -/
def ofWords (mark layout : UInt64) : ObjectHeader where
  mark := mark
  typeIndex := UInt32.ofNat layout.toNat
  length := UInt32.ofNat (layout.toNat / 0x100000000)

/-- The header at offset `i`, if all its bytes are there. -/
def read? (b : ByteArray) (i : Nat) : Option ObjectHeader :=
  if i + headerSize ≤ b.size then
    some (ofWords (UInt64.ofNat (Bytes.valueAt b i wordSize))
      (UInt64.ofNat (Bytes.valueAt b (i + wordSize) wordSize)))
  else none

/-- Writes a header at offset `i`. -/
def write (h : ObjectHeader) (b : ByteArray) (i : Nat) : ByteArray :=
  Bytes.setWord (Bytes.setWord b i h.mark) (i + wordSize) h.layoutWord

/-- The layout word as a number: the length is in its upper half. -/
theorem toNat_layoutWord (h : ObjectHeader) :
    h.layoutWord.toNat = h.typeIndex.toNat + 0x100000000 * h.length.toNat := by
  have ht := h.typeIndex.toNat_lt
  have hl := h.length.toNat_lt
  simp only [layoutWord, UInt64.toNat_ofNat']
  omega

/-- A header is what its two words say. -/
theorem ofWords_layoutWord (h : ObjectHeader) : ofWords h.mark h.layoutWord = h := by
  have ht := h.typeIndex.toNat_lt
  have hl := h.length.toNat_lt
  cases h with
  | mk mark typeIndex length =>
    have e := toNat_layoutWord ⟨mark, typeIndex, length⟩
    simp only at e ht hl
    simp only [ofWords, e, mk.injEq, true_and]
    constructor <;> apply UInt32.toNat_inj.mp <;> simp only [UInt32.toNat_ofNat'] <;> omega

/-- Writing a header keeps the size. -/
@[simp] theorem size_write (h : ObjectHeader) (b : ByteArray) (i : Nat) :
    (h.write b i).size = b.size := by
  simp [write]

end ObjectHeader

end HeapImage
