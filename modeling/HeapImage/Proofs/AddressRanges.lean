import HeapImage.Heap.Arena

/-! # Ranges set aside

An arena notes each address range that it grants and forgets it when it is given back. Nothing else
of the arena changes.

* `Arena.reserve_cases`: a request for a range is granted and noted, or refused.
* `Arena.release_reserve`: a range that is given back leaves no trace.
* `Arena.reservations_release`: what is left when a range is given back. -/

namespace HeapImage.Arena

variable {h k : Arena} {requested base len : Nat}

/-! ## Setting ranges aside -/

/-- **A request for a range** is refused, or granted where there is no chunk and noted. -/
theorem reserve_cases (h : Arena) (requested len : Nat) : h.reserve requested len = (none, h) ∨
    ∃ base, h.grant? requested = some base ∧ h.overlapsChunks base len = false ∧
      h.reserve requested len =
        (some base, { h with reservations := h.reservations.push ⟨base, base + len⟩ }) := by
  unfold reserve
  cases h.grant? requested with
  | none => exact .inl rfl
  | some base =>
    cases hoverlaps : h.overlapsChunks base len with
    | true => exact .inl (if_pos hoverlaps)
    | false => exact .inr ⟨base, rfl, hoverlaps, if_neg (Bool.eq_false_iff.mp hoverlaps)⟩

/-- A reservation that succeeds was granted away from all chunks, and is noted. -/
theorem of_reserve (hreserve : h.reserve requested len = (some base, k)) :
    h.grant? requested = some base ∧ h.overlapsChunks base len = false ∧
      k = { h with reservations := h.reservations.push ⟨base, base + len⟩ } := by
  rcases h.reserve_cases requested len with hnone | ⟨base', hgrant, hfree, hsome⟩
  · cases hnone.symm.trans hreserve
  · cases hsome.symm.trans hreserve
    exact ⟨hgrant, hfree, rfl⟩

/-- A refusal changes nothing. -/
theorem eq_of_reserve_none (hreserve : h.reserve requested len = (none, k)) : k = h := by
  rcases h.reserve_cases requested len with hnone | ⟨base, -, -, hsome⟩
  · cases hnone.symm.trans hreserve
    rfl
  · cases hsome.symm.trans hreserve

/-- Setting a range aside is only noted. -/
theorem reserve_eq (h : Arena) (requested len : Nat) :
    ∃ rs, (h.reserve requested len).2 = { h with reservations := rs } := by
  rcases h.reserve_cases requested len with hnone | ⟨base, -, -, hsome⟩
  · exact ⟨_, congrArg Prod.snd hnone⟩
  · exact ⟨_, congrArg Prod.snd hsome⟩

/-- A range that is set aside is kept in mind. -/
theorem mem_reservations (hreserve : h.reserve requested len = (some base, k)) :
    (⟨base, base + len⟩ : Extent) ∈ k.reservations.toList := by
  obtain ⟨-, -, rfl⟩ := of_reserve hreserve
  rw [Array.toList_push]
  exact List.mem_append_right _ (List.mem_singleton.mpr rfl)

/-! ## Giving ranges back -/

/-- Giving a range back is only noted. -/
theorem release_eq (h : Arena) (base len : Nat) :
    ∃ rs, h.release base len = { h with reservations := rs } := by
  unfold release
  split <;> exact ⟨_, rfl⟩

/-- An element that is equal to the last one is as good as the last one. -/
theorem swapRemove_push {α : Type} {xs : Array α} {x : α} {i : Nat}
    (hi : (xs.push x)[i]? = some x) : swapRemove (xs.push x) i = xs := by
  have hsame : (xs.push x).setIfInBounds i x = xs.push x := by
    apply Array.ext_getElem?
    intro j
    rw [Array.getElem?_setIfInBounds]
    split
    · rename_i hij
      obtain ⟨hlt, -⟩ := Array.getElem?_eq_some_iff.mp hi
      rw [if_pos hlt, ← hij, hi]
    · rfl
  rw [swapRemove, Array.back?_push]
  dsimp only
  rw [hsame, Array.pop_push]

/-- **A range that is set aside and given back** leaves no trace, also if the same range had been
set aside before. -/
theorem release_reserve (hreserve : h.reserve requested len = (some base, k)) :
    k.release base len = h := by
  obtain ⟨-, -, rfl⟩ := of_reserve hreserve
  rw [release]
  dsimp only
  split
  · rename_i i hfind
    -- The range that is found is the new one, or an older one that is equal to it.
    obtain ⟨hlt, hfound, -⟩ := Array.findIdx?_eq_some_iff_getElem.mp hfind
    rw [swapRemove_push (Array.getElem?_eq_some_iff.mpr ⟨hlt, of_decide_eq_true hfound⟩)]
  · rename_i hnone
    have hlast := Array.findIdx?_eq_none_iff.mp hnone _ (Array.mem_push_self ..)
    exact absurd rfl (of_decide_eq_false hlast)

/-- Putting the last element in the place of another one removes that one. -/
theorem dropLast_set_perm {α : Type} (front : List α) (last : α) {i : Nat}
    (hi : i ≤ front.length) :
    ((front ++ [last]).set i last).dropLast.Perm ((front ++ [last]).eraseIdx i) := by
  induction front generalizing i with
  | nil =>
    obtain rfl := Nat.le_zero.mp hi
    exact .refl _
  | cons x front ih =>
    cases i with
    | zero =>
      show (last :: (front ++ [last])).dropLast.Perm (front ++ [last])
      rw [← List.cons_append, List.dropLast_concat]
      exact (List.perm_append_singleton last front).symm
    | succ i =>
      have hne : (front ++ [last]).set i last ≠ [] := by simp
      rw [List.cons_append, List.set_cons_succ, List.eraseIdx_cons_succ,
        List.dropLast_cons_of_ne_nil hne]
      exact (ih (Nat.le_of_succ_le_succ hi)).cons x

/-- The element at a position goes, in whatever order the others are then. -/
theorem swapRemove_perm {α : Type} {xs : Array α} {i : Nat} (hi : i < xs.size) :
    (swapRemove xs i).toList.Perm (xs.toList.eraseIdx i) := by
  obtain ⟨front, last, hxs⟩ : ∃ front last, xs.toList = front ++ [last] :=
    ⟨_, _, (List.dropLast_concat_getLast (List.ne_nil_of_length_pos
      (by rw [Array.length_toList]; omega))).symm⟩
  have hback : xs.back? = some last := by
    rw [← Array.getLast?_toList, hxs, List.getLast?_concat]
  have hlength : xs.size = front.length + 1 := by
    rw [← Array.length_toList, hxs, List.length_append, List.length_singleton]
  unfold swapRemove
  rw [hback]
  dsimp only
  rw [Array.toList_pop, Array.toList_setIfInBounds, hxs]
  exact dropLast_set_perm front last (by omega)

/-- **Giving a range back** takes it off the ranges set aside: once, if it is there more often. -/
theorem reservations_release (h : Arena) (base len : Nat) :
    (h.release base len).reservations.toList.Perm
      (h.reservations.toList.erase ⟨base, base + len⟩) := by
  have hindex : (h.reservations.findIdx? fun r => r = ⟨base, base + len⟩) =
      h.reservations.toList.idxOf? ⟨base, base + len⟩ := by
    show _ = h.reservations.toList.findIdx? fun r => decide (r = ⟨base, base + len⟩)
    rw [← List.findIdx?_toArray]
  rw [List.erase_eq_eraseIdx, ← hindex]
  unfold release
  split
  · rename_i i hfind
    obtain ⟨hi, -⟩ := Array.findIdx?_eq_some_iff_getElem.mp hfind
    rw [hfind]
    exact swapRemove_perm hi
  · rename_i hnone
    rw [hnone]

end HeapImage.Arena
