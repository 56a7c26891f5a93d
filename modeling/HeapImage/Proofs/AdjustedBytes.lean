import HeapImage.Proofs.UndecodableReferences

/-! # What a load makes of the bytes of an image

The maps of an archive say which parts of its image mean something else in another place: marked
slots hold references, marked words hold native pointers. A load adjusts the numbers there and no
other bytes. As long as no marked word overlaps a marked slot, each number is adjusted as if the
others were not there.

* `Archive.MarksApart`: no marked word overlaps a marked slot.
* `Archive.Unmarked`: a byte outside all marked slots and words.
* `Archive.Adjusts`: what a load has made of the bytes of an image.
* `Archive.Adjusts.append`: regions that are adjusted one after the other.
* `Archive.Adjusts.eq_of_stay`: when nothing happens. -/

namespace HeapImage.Archive

variable {a : Archive} {regions regions' : List Region} {region : Region} {bit j : Nat}
variable {delta : UInt64} {R S : (offset old new : Nat) → Prop} {v w x : Nat → UInt8}

/-! ## Marks -/

/-- The image offset of the word that a bit of a region's map of native pointers stands for. -/
def nativeOffset (a : Archive) (region : Region) (bit : Nat) : Nat :=
  (a.header.range region).bottom + bit * wordSize

/-- No marked native pointer overlaps a marked reference slot. -/
def MarksApart (a : Archive) : Prop :=
  ∀ region ∈ Region.all, ∀ i ∈ (a.maps region).references.toList,
    ∀ j ∈ (a.maps region).natives.toList,
      a.slotOffset region i + a.slotSize ≤ a.nativeOffset region j ∨
        a.nativeOffset region j + wordSize ≤ a.slotOffset region i

instance (a : Archive) : Decidable a.MarksApart :=
  inferInstanceAs (Decidable (∀ region ∈ Region.all, ∀ i ∈ (a.maps region).references.toList,
    ∀ j ∈ (a.maps region).natives.toList,
      a.slotOffset region i + a.slotSize ≤ a.nativeOffset region j ∨
        a.nativeOffset region j + wordSize ≤ a.slotOffset region i))

/-- A marked reference and a marked native pointer have no byte in common. -/
theorem MarksApart.apart (h : a.MarksApart) {i : Nat}
    (hi : (a.maps region).references.contains i = true)
    (hj : (a.maps region).natives.contains j = true) :
    a.slotOffset region i + a.slotSize ≤ a.nativeOffset region j ∨
      a.nativeOffset region j + wordSize ≤ a.slotOffset region i :=
  h region region.mem_all i (BitMap.mem_toList.mpr hi) j (BitMap.mem_toList.mpr hj)

/-- The byte at an image offset is in no slot and in no word that the maps of some regions mark. -/
structure Unmarked (a : Archive) (regions : List Region) (j : Nat) : Prop where
  references : ∀ region ∈ regions, ∀ bit, (a.maps region).references.contains bit = true →
    j < a.slotOffset region bit ∨ a.slotOffset region bit + a.slotSize ≤ j
  natives : ∀ region ∈ regions, ∀ bit, (a.maps region).natives.contains bit = true →
    j < a.nativeOffset region bit ∨ a.nativeOffset region bit + wordSize ≤ j

/-- The bytes of one region are unmarked in the maps of others. -/
theorem Sound.unmarked (h : a.Sound) (hregion : region ∉ regions)
    (hlow : (a.header.range region).bottom ≤ j) (hhigh : j < (a.header.range region).top) :
    a.Unmarked regions j := by
  have hout : ∀ other ∈ regions, j < (a.header.range other).bottom ∨
      (a.header.range other).top ≤ j := by
    intro other hother
    have hne : other ≠ region := fun heq => hregion (heq ▸ hother)
    have horder := h.range_bounds.1
    cases region <;> cases other <;> first | exact absurd rfl hne | omega
  constructor
  · intro other hother bit hbit
    have hbounds := h.slot_bounds hbit
    have hbottom : (a.header.range other).bottom ≤ a.slotOffset other bit := Nat.le_add_right ..
    rw [← slotOffset] at hbounds
    have := hout other hother
    omega
  · intro other hother bit hbit
    have hbounds := h.native_bounds hbit
    have hbottom : (a.header.range other).bottom ≤ a.nativeOffset other bit := Nat.le_add_right ..
    rw [← nativeOffset] at hbounds
    have := hout other hother
    omega

/-! ## Adjusted bytes -/

/-- In some regions each marked slot went over into a value that a relation allows, each marked
native pointer had a distance added, and all other bytes are as before. -/
structure Adjusts (a : Archive) (regions : List Region) (R : (offset old new : Nat) → Prop)
    (delta : UInt64) (before after : Nat → UInt8) : Prop where
  references : ∀ region ∈ regions, ∀ bit, (a.maps region).references.contains bit = true →
    R (a.slotOffset region bit) (Bytes.number before (a.slotOffset region bit) a.slotSize)
      (Bytes.number after (a.slotOffset region bit) a.slotSize)
  natives : ∀ region ∈ regions, ∀ bit, (a.maps region).natives.contains bit = true →
    PlusDelta delta (a.nativeOffset region bit)
      (Bytes.number before (a.nativeOffset region bit) wordSize)
      (Bytes.number after (a.nativeOffset region bit) wordSize)
  others : ∀ j, a.Unmarked regions j → after j = before j

namespace Adjusts

/-- A weaker relation between old and new numbers is kept to as well. -/
theorem mono (h : a.Adjusts regions R delta v w)
    (hR : ∀ region ∈ regions, ∀ bit, (a.maps region).references.contains bit = true → ∀ new,
      R (a.slotOffset region bit) (Bytes.number v (a.slotOffset region bit) a.slotSize) new →
      S (a.slotOffset region bit) (Bytes.number v (a.slotOffset region bit) a.slotSize) new) :
    a.Adjusts regions S delta v w where
  references region hregion bit hbit := hR region hregion bit hbit _
    (h.references region hregion bit hbit)
  natives := h.natives
  others := h.others

/-- Numbers in a region stay as they are while others are adjusted. -/
theorem number_eq (hsound : a.Sound) (h : a.Adjusts regions R delta v w)
    (hregion : region ∉ regions) {i n : Nat} (hlow : (a.header.range region).bottom ≤ i)
    (hhigh : i + n ≤ (a.header.range region).top) : Bytes.number w i n = Bytes.number v i n :=
  Bytes.number_congr fun k hk =>
    h.others _ (hsound.unmarked hregion (by omega) (by omega))

/-- Regions that are adjusted one after the other do not see each other. -/
theorem append (hsound : a.Sound) (h : a.Adjusts regions R delta v w)
    (h' : a.Adjusts regions' R delta w x) (hdisjoint : ∀ region ∈ regions, region ∉ regions') :
    a.Adjusts (regions ++ regions') R delta v x where
  references region hregion bit hbit := by
    have hlow : (a.header.range region).bottom ≤ a.slotOffset region bit := Nat.le_add_right ..
    rcases List.mem_append.mp hregion with hregion | hregion
    · rw [h'.number_eq hsound (hdisjoint region hregion) hlow (hsound.slot_bounds hbit)]
      exact h.references region hregion bit hbit
    · -- The first pass has left this region alone.
      have hother : region ∉ regions := fun hin => hdisjoint region hin hregion
      rw [← h.number_eq hsound hother hlow (hsound.slot_bounds hbit)]
      exact h'.references region hregion bit hbit
  natives region hregion bit hbit := by
    have hlow : (a.header.range region).bottom ≤ a.nativeOffset region bit := Nat.le_add_right ..
    rcases List.mem_append.mp hregion with hregion | hregion
    · rw [h'.number_eq hsound (hdisjoint region hregion) hlow (hsound.native_bounds hbit)]
      exact h.natives region hregion bit hbit
    · have hother : region ∉ regions := fun hin => hdisjoint region hin hregion
      rw [← h.number_eq hsound hother hlow (hsound.native_bounds hbit)]
      exact h'.natives region hregion bit hbit
  others j hj := by
    rw [h'.others j ⟨fun r hr => hj.references r (List.mem_append_right _ hr),
        fun r hr => hj.natives r (List.mem_append_right _ hr)⟩,
      h.others j ⟨fun r hr => hj.references r (List.mem_append_left _ hr),
        fun r hr => hj.natives r (List.mem_append_left _ hr)⟩]

/-- If references stay and native pointers are moved by no distance, then nothing happens. -/
theorem eq_of_stay (h : a.Adjusts regions R 0 v w)
    (hR : ∀ offset old new, old < 256 ^ a.slotSize → R offset old new → new = old) : w = v := by
  funext j
  by_cases hreference : ∃ region ∈ regions, ∃ bit,
      (a.maps region).references.contains bit = true ∧ a.slotOffset region bit ≤ j ∧
        j < a.slotOffset region bit + a.slotSize
  · obtain ⟨region, hregion, bit, hbit, hlow, hhigh⟩ := hreference
    exact Bytes.eq_of_number_eq
      (hR _ _ _ (Bytes.number_lt ..) (h.references region hregion bit hbit)) hlow hhigh
  by_cases hnative : ∃ region ∈ regions, ∃ bit,
      (a.maps region).natives.contains bit = true ∧ a.nativeOffset region bit ≤ j ∧
        j < a.nativeOffset region bit + wordSize
  · obtain ⟨region, hregion, bit, hbit, hlow, hhigh⟩ := hnative
    exact Bytes.eq_of_number_eq ((h.natives region hregion bit hbit).eq_of_zero
      (Bytes.number_lt ..)) hlow hhigh
  · refine h.others j ⟨fun region hregion bit hbit => ?_, fun region hregion bit hbit => ?_⟩
    · exact Nat.lt_or_ge _ _ |>.imp_right fun hle =>
        Nat.not_lt.mp fun hlt => hreference ⟨region, hregion, bit, hbit, hle, hlt⟩
    · exact Nat.lt_or_ge _ _ |>.imp_right fun hle =>
        Nat.not_lt.mp fun hlt => hnative ⟨region, hregion, bit, hbit, hle, hlt⟩

end Adjusts

end HeapImage.Archive
