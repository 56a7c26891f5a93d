import Mathlib.Algebra.GroupWithZero.Nat

/-! # Things that stand back to back

Staged objects, the objects of a region and the objects of a block all follow each other without a
gap. The facts about such rows are the same for all of them.

* `Tiles`: the elements of a list stand back to back between two places.
* `Tiles.append`, `Tiles.concat`, `Tiles.map`, `Tiles.of_flatMap`: building rows.
* `Tiles.bounds`, `Tiles.exists_first`, `Tiles.exists_covering`, `Tiles.eq_or_apart`, `Tiles.dvd`:
  where the elements of a row are. -/

namespace HeapImage

section

variable {α β : Type} {offset size : α → Nat}

/-- The elements of a list stand back to back from `start` on, up to `stop`. -/
def Tiles (offset size : α → Nat) : (start : Nat) → List α → (stop : Nat) → Prop
  | start, [], stop => start = stop
  | start, x :: xs, stop => offset x = start ∧ Tiles offset size (start + size x) xs stop

namespace Tiles

variable {start stop : Nat} {xs : List α}

/-- A tiling ends no earlier than it starts. -/
theorem le (h : Tiles offset size start xs stop) : start ≤ stop := by
  induction xs generalizing start with
  | nil => exact Nat.le_of_eq h
  | cons x xs ih => exact Nat.le_trans (Nat.le_add_right ..) (ih h.2)

/-- Tiles lie between the start and the end. -/
theorem bounds (h : Tiles offset size start xs stop) :
    ∀ x ∈ xs, start ≤ offset x ∧ offset x + size x ≤ stop := by
  induction xs generalizing start with
  | nil =>
    intro x hx
    cases hx
  | cons y xs ih =>
    intro x hx
    rcases List.mem_cons.mp hx with rfl | hx
    · rw [h.1]
      exact ⟨Nat.le_refl _, h.2.le⟩
    · obtain ⟨hlow, hhigh⟩ := ih h.2 x hx
      exact ⟨by omega, hhigh⟩

/-- Every place in a row is in one of its elements. -/
theorem exists_covering (h : Tiles offset size start xs stop) {j : Nat} (hlow : start ≤ j)
    (hhigh : j < stop) : ∃ x ∈ xs, offset x ≤ j ∧ j < offset x + size x := by
  induction xs generalizing start with
  | nil =>
    obtain rfl : start = stop := h
    omega
  | cons x xs ih =>
    obtain ⟨hx, hxs⟩ := h
    by_cases hin : j < start + size x
    · exact ⟨x, List.mem_cons_self .., by omega, by omega⟩
    · obtain ⟨y, hy, hbounds⟩ := ih hxs (Nat.not_lt.mp hin)
      exact ⟨y, List.mem_cons_of_mem _ hy, hbounds⟩

/-- Some tile starts at the start. -/
theorem exists_first (h : Tiles offset size start xs stop) (hne : xs ≠ []) :
    ∃ x ∈ xs, offset x = start := by
  cases xs with
  | nil => exact absurd rfl hne
  | cons x xs => exact ⟨x, List.mem_cons_self .., h.1⟩

/-- Some tile ends at the end. -/
theorem exists_last (h : Tiles offset size start xs stop) (hne : xs ≠ []) :
    ∃ x ∈ xs, offset x + size x = stop := by
  induction xs generalizing start with
  | nil => exact absurd rfl hne
  | cons x xs ih =>
    cases xs with
    | nil =>
      have hstop : start + size x = stop := h.2
      exact ⟨x, List.mem_cons_self .., h.1.symm ▸ hstop⟩
    | cons y ys =>
      obtain ⟨z, hz, hstop⟩ := ih h.2 (List.cons_ne_nil y ys)
      exact ⟨z, List.mem_cons_of_mem _ hz, hstop⟩

/-- One row behind another is a row. -/
theorem append {middle : Nat} {ys : List α} (h : Tiles offset size start xs middle)
    (h' : Tiles offset size middle ys stop) : Tiles offset size start (xs ++ ys) stop := by
  induction xs generalizing start with
  | nil =>
    cases h
    exact h'
  | cons x xs ih => exact ⟨h.1, ih h.2⟩

/-- A row followed by one more element is a row. -/
theorem concat (h : Tiles offset size start xs stop) {x : α} (hx : offset x = stop) :
    Tiles offset size start (xs ++ [x]) (stop + size x) :=
  h.append ⟨hx, rfl⟩

/-- The first elements of a row and the rest are rows. -/
theorem of_append {ys : List α} (h : Tiles offset size start (xs ++ ys) stop) :
    ∃ middle, Tiles offset size start xs middle ∧ Tiles offset size middle ys stop := by
  induction xs generalizing start with
  | nil => exact ⟨start, rfl, h⟩
  | cons x xs ih =>
    obtain ⟨middle, hxs, hys⟩ := ih h.2
    exact ⟨middle, ⟨h.1, hxs⟩, hys⟩

/-- Two elements of a row are one, or do not overlap. -/
theorem eq_or_apart (h : Tiles offset size start xs stop) {x y : α} (hx : x ∈ xs) (hy : y ∈ xs) :
    x = y ∨ offset x + size x ≤ offset y ∨ offset y + size y ≤ offset x := by
  induction xs generalizing start with
  | nil => cases hx
  | cons z xs ih =>
    rcases List.mem_cons.mp hx with hxz | hx' <;> rcases List.mem_cons.mp hy with hyz | hy'
    · exact .inl (hxz.trans hyz.symm)
    · have := (h.2.bounds y hy').1
      rw [hxz, h.1]
      exact .inr (.inl this)
    · have := (h.2.bounds x hx').1
      rw [hyz, h.1]
      exact .inr (.inr this)
    · exact ih h.2 hx' hy'

/-- Two rows of the same elements have them at the same distances from their starts. -/
theorem offset_add {offset' : α → Nat} {start' stop' : Nat} (h : Tiles offset size start xs stop)
    (h' : Tiles offset' size start' xs stop') {x : α} (hx : x ∈ xs) :
    offset x + start' = offset' x + start := by
  induction xs generalizing start start' with
  | nil => cases hx
  | cons y xs ih =>
    rcases List.mem_cons.mp hx with rfl | hx
    · rw [h.1, h'.1]
      exact Nat.add_comm start start'
    · have hrest := ih h.2 h'.2 hx
      omega

/-- If all sizes are multiples of a number, so are all distances from the start. -/
theorem dvd_sub {n : Nat} (h : Tiles offset size start xs stop) (hsize : ∀ x ∈ xs, n ∣ size x) :
    (∀ x ∈ xs, n ∣ offset x - start) ∧ n ∣ stop - start := by
  induction xs generalizing start with
  | nil =>
    refine ⟨?_, ?_⟩
    · intro x hx
      cases hx
    · rw [← show start = stop from h, Nat.sub_self]
      exact Nat.dvd_zero n
  | cons y xs ih =>
    have hy := hsize y (List.mem_cons_self ..)
    obtain ⟨hoffset, hstop⟩ := ih h.2 fun x hx => hsize x (List.mem_cons_of_mem _ hx)
    have hle := h.2.le
    refine ⟨?_, ?_⟩
    · intro x hx
      rcases List.mem_cons.mp hx with rfl | hx
      · rw [h.1, Nat.sub_self]
        exact Nat.dvd_zero n
      · have hlow := (h.2.bounds x hx).1
        -- Distances from the start are sums of the sizes in between.
        have hsum : offset x - start = size y + (offset x - (start + size y)) := by omega
        rw [hsum]
        exact Nat.dvd_add hy (hoffset x hx)
    · have hsum : stop - start = size y + (stop - (start + size y)) := by omega
      rw [hsum]
      exact Nat.dvd_add hy hstop

/-- Elements whose sizes are multiples of a number stand at multiples of it if the first one does.
-/
theorem dvd {n : Nat} (h : Tiles offset size start xs stop) (hstart : n ∣ start)
    (hsize : ∀ x ∈ xs, n ∣ size x) : (∀ x ∈ xs, n ∣ offset x) ∧ n ∣ stop := by
  obtain ⟨hoffset, hstop⟩ := h.dvd_sub hsize
  refine ⟨?_, ?_⟩
  · intro x hx
    exact (Nat.dvd_sub_iff_left (h.bounds x hx).1 hstart).mp (hoffset x hx)
  · exact (Nat.dvd_sub_iff_left h.le hstart).mp hstop

/-- A row of other things with the same sizes at a constant distance. -/
theorem map {offset' size' : β → Nat} {f : α → β} {d : Nat}
    (h : Tiles offset size start xs stop) (hoffset : ∀ x ∈ xs, offset' (f x) = offset x + d)
    (hsize : ∀ x ∈ xs, size' (f x) = size x) :
    Tiles offset' size' (start + d) (xs.map f) (stop + d) := by
  induction xs generalizing start with
  | nil =>
    cases h
    rfl
  | cons x xs ih =>
    have hx := List.mem_cons_self (a := x) (l := xs)
    refine ⟨by rw [hoffset x hx, h.1], ?_⟩
    rw [hsize x hx, Nat.add_right_comm]
    exact ih h.2 (fun y hy => hoffset y (List.mem_cons_of_mem _ hy))
      fun y hy => hsize y (List.mem_cons_of_mem _ hy)

/-- A row whose elements stand for those of another row at a constant distance. -/
theorem of_map {offset' size' : β → Nat} {f : α → β} {d : Nat}
    (h : Tiles offset' size' (start + d) (xs.map f) (stop + d))
    (hoffset : ∀ x ∈ xs, offset' (f x) = offset x + d) (hsize : ∀ x ∈ xs, size' (f x) = size x) :
    Tiles offset size start xs stop := by
  induction xs generalizing start with
  | nil => exact Nat.add_right_cancel h
  | cons x xs ih =>
    have hx := List.mem_cons_self (a := x) (l := xs)
    have hfirst : offset' (f x) = start + d := h.1
    have hrest := h.2
    rw [hsize x hx, Nat.add_right_comm] at hrest
    refine ⟨Nat.add_right_cancel ((hoffset x hx).symm.trans hfirst), ?_⟩
    exact ih hrest (fun y hy => hoffset y (List.mem_cons_of_mem _ hy))
      fun y hy => hsize y (List.mem_cons_of_mem _ hy)

/-- The sizes add up to the distance between the ends. -/
theorem add_sum (h : Tiles offset size start xs stop) : start + (xs.map size).sum = stop := by
  induction xs generalizing start with
  | nil => exact h
  | cons x xs ih =>
    rw [List.map_cons, List.sum_cons, ← Nat.add_assoc]
    exact ih h.2

/-- A row of groups of elements, each of which has its own ends. -/
theorem of_flatMap {first last : β → Nat} {f : β → List α} {groups : List β}
    (h : Tiles offset size start (groups.flatMap f) stop)
    (hgroups : ∀ g ∈ groups, f g ≠ [] ∧ Tiles offset size (first g) (f g) (last g)) :
    Tiles first (fun g => last g - first g) start groups stop := by
  induction groups generalizing start with
  | nil => exact h
  | cons g groups ih =>
    obtain ⟨⟨hne, hg⟩, hrest⟩ := List.forall_mem_cons.mp hgroups
    rw [List.flatMap_cons] at h
    obtain ⟨middle, hfirst, h⟩ := h.of_append
    -- A row that is not empty starts at its first element, and ends where its sizes add up to.
    obtain rfl : first g = start := by
      cases hf : f g with
      | nil => exact absurd hf hne
      | cons x xs =>
        rw [hf] at hg hfirst
        exact hg.1.symm.trans hfirst.1
    obtain rfl : last g = middle := hg.add_sum.symm.trans hfirst.add_sum
    have hle := hg.le
    refine ⟨rfl, ?_⟩
    rw [Nat.add_sub_cancel' hle]
    exact ih h hrest

/-- A row of large elements is short. -/
theorem mul_length_le {n : Nat} (h : Tiles offset size start xs stop)
    (hsize : ∀ x ∈ xs, n ≤ size x) : start + n * xs.length ≤ stop := by
  induction xs generalizing start with
  | nil => exact Nat.le_of_eq h
  | cons x xs ih =>
    have hx := hsize x (List.mem_cons_self ..)
    have hxs := ih h.2 fun y hy => hsize y (List.mem_cons_of_mem _ hy)
    rw [List.length_cons, Nat.mul_add_one]
    omega

/-- Elements with the same offset are one, unless they are empty. -/
theorem eq_of_offset_eq (h : Tiles offset size start xs stop) (hpos : ∀ x ∈ xs, 0 < size x)
    {x y : α} (hx : x ∈ xs) (hy : y ∈ xs) (heq : offset x = offset y) : x = y := by
  have hxpos := hpos x hx
  have hypos := hpos y hy
  rcases h.eq_or_apart hx hy with rfl | hxy | hyx
  · rfl
  · omega
  · omega

/-- The offsets of elements that are not empty ascend. -/
theorem pairwise_lt (h : Tiles offset size start xs stop) (hpos : ∀ x ∈ xs, 0 < size x) :
    (xs.map offset).Pairwise (· < ·) := by
  induction xs generalizing start with
  | nil => exact .nil
  | cons x xs ih =>
    rw [List.map_cons]
    refine .cons ?_ (ih h.2 fun y hy => hpos y (List.mem_cons_of_mem _ hy))
    intro p hp
    obtain ⟨y, hy, rfl⟩ := List.mem_map.mp hp
    have hstart := (h.2.bounds y hy).1
    have hx := hpos x (List.mem_cons_self ..)
    rw [h.1]
    omega

/-- Tiles that are not empty are told apart by their places. -/
theorem nodup (h : Tiles offset size start xs stop) (hpos : ∀ x ∈ xs, 0 < size x) :
    (xs.map offset).Nodup :=
  (h.pairwise_lt hpos).imp Nat.ne_of_lt

end Tiles

end

end HeapImage
