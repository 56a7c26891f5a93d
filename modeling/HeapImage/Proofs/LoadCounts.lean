import HeapImage.Load.Patch
import Mathlib.Data.List.Perm.Basic

/-! # Counting what is adjusted

A load counts the reference slots that it goes through, those with null apart from the others, and
the native pointers that it moves. The counts tell how many slots there were of each kind, and not
in which order they came.

* `LoadCounts.addSlot`, `LoadCounts.addSlots`: the counts behind slots that hold some values.
* `LoadCounts.addNatives`: the counts behind some native pointers.
* `LoadCounts.addSlots_congr`: only the nulls among the values matter. -/

namespace HeapImage.LoadCounts

variable {c : LoadCounts} {values values' : List Nat}

/-- The counts behind one more slot, which holds a value. -/
def addSlot (c : LoadCounts) (value : Nat) : LoadCounts :=
  if value = 0 then { c with nulls := c.nulls + 1 } else { c with references := c.references + 1 }

/-- The counts behind more slots, which hold some values. -/
def addSlots (c : LoadCounts) (values : List Nat) : LoadCounts := values.foldl addSlot c

/-- The counts behind `n` more native pointers. -/
def addNatives (c : LoadCounts) (n : Nat) : LoadCounts := { c with natives := c.natives + n }

/-- Slots are counted one after the other. -/
theorem addSlots_cons (c : LoadCounts) (value : Nat) (values : List Nat) :
    c.addSlots (value :: values) = (c.addSlot value).addSlots values := rfl

/-- Two lists of slots are counted one after the other. -/
theorem addSlots_append (c : LoadCounts) (values values' : List Nat) :
    c.addSlots (values ++ values') = (c.addSlots values).addSlots values' :=
  List.foldl_append

/-- The last slot is counted last. -/
theorem addSlots_concat (c : LoadCounts) (values : List Nat) (value : Nat) :
    c.addSlots (values ++ [value]) = (c.addSlots values).addSlot value :=
  addSlots_append ..

/-- Native pointers are counted by their number. -/
theorem addNatives_add (c : LoadCounts) (m n : Nat) :
    c.addNatives (m + n) = (c.addNatives m).addNatives n := by
  rw [addNatives, addNatives, addNatives, Nat.add_assoc]

/-- Slots and native pointers are counted apart. -/
theorem addSlots_addNatives (c : LoadCounts) (n : Nat) (values : List Nat) :
    (c.addNatives n).addSlots values = (c.addSlots values).addNatives n := by
  induction values generalizing c with
  | nil => rfl
  | cons value values ih =>
    have hslot : (c.addNatives n).addSlot value = (c.addSlot value).addNatives n := by
      rw [addSlot, addSlot]
      split <;> rfl
    rw [addSlots_cons, addSlots_cons, hslot, ih]

/-- **The counts of some slots** are the numbers of nulls and of other values among theirs. -/
theorem addSlots_eq (c : LoadCounts) (values : List Nat) :
    c.addSlots values = ⟨c.references + values.countP (· ≠ 0), c.nulls + values.countP (· = 0),
      c.natives⟩ := by
  induction values generalizing c with
  | nil => rfl
  | cons value values ih =>
    rw [addSlots_cons, ih, addSlot, List.countP_cons, List.countP_cons]
    by_cases hzero : value = 0
    · subst hzero
      simp [Nat.add_assoc, Nat.add_comm]
    · simp [hzero, Nat.add_assoc, Nat.add_comm]

/-- Slots that hold as many nulls and as many other values, in whatever order, are counted alike. -/
theorem addSlots_congr (c : LoadCounts)
    (h : (values.map fun value => decide (value = 0)).Perm
      (values'.map fun value => decide (value = 0))) : c.addSlots values = c.addSlots values' := by
  have hnulls : values.countP (· = 0) = values'.countP (· = 0) := by
    simpa only [List.countP_map, Function.id_comp] using h.countP_eq id
  have hreferences : values.countP (· ≠ 0) = values'.countP (· ≠ 0) := by
    simpa [List.countP_map, Function.comp_def] using h.countP_eq not
  rw [addSlots_eq, addSlots_eq, hnulls, hreferences]

end HeapImage.LoadCounts
