/-!
# Extents

* `Extent`: a half-open range of addresses or of offsets.
* `Extent.Apart`: ranges that have no number in common.
-/

namespace HeapImage

/-- The numbers from `bottom` up to but not including `top`. -/
structure Extent where
  bottom : Nat
  top : Nat
  deriving DecidableEq, Repr

namespace Extent

/-- Number of bytes. -/
def length (e : Extent) : Nat := e.top - e.bottom

/-- There is nothing in the range. -/
def isEmpty (e : Extent) : Bool := e.top ≤ e.bottom

/-- `n` lies in the range. -/
def contains (e : Extent) (n : Nat) : Bool := e.bottom ≤ n && n < e.top

/-- The range moved up by `n`. -/
def shift (e : Extent) (n : Nat) : Extent := ⟨e.bottom + n, e.top + n⟩

/-- An extent has its bottom and ends before its top. -/
@[simp] theorem contains_iff (e : Extent) (n : Nat) :
    e.contains n = true ↔ e.bottom ≤ n ∧ n < e.top := by
  simp [contains]

/-- No number lies in both ranges. -/
def Apart (e f : Extent) : Prop := ∀ n, ¬ (e.contains n = true ∧ f.contains n = true)

/-- Ranges lie apart if one of them is empty or they follow each other. -/
theorem apart_iff {e f : Extent} : e.Apart f ↔
    e.top ≤ e.bottom ∨ f.top ≤ f.bottom ∨ e.top ≤ f.bottom ∨ f.top ≤ e.bottom := by
  simp only [Apart, contains_iff]
  constructor
  · intro h
    have hlow := h (max e.bottom f.bottom)
    omega
  · intro h n
    omega

/-- Being apart goes both ways. -/
theorem Apart.symm {e f : Extent} (h : e.Apart f) : f.Apart e := fun n ⟨hf, he⟩ => h n ⟨he, hf⟩

instance (e f : Extent) : Decidable (e.Apart f) := decidable_of_iff _ apart_iff.symm

end Extent

end HeapImage
