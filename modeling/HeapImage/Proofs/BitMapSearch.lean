import HeapImage.BitMap
import Mathlib.Algebra.Group.Nat.Defs

/-! # Bit maps as sets

The search of a bit map goes from word to word and finds the least member of a range, so that
`BitMap.ones` lists exactly the members, in ascending order. They are as many as there are set bits
in all words.

* `BitMap.mem_ones`, `BitMap.ones_pairwise`: the listed members.
* `BitMap.count_eq_length`: the sum of the set bits of all words.
* `BitMap.contains_insert`: what inserting does to the set.
* `BitMap.div_lt_div_of_add_le`: places that have a bit in a map with a bit for every slot. -/

namespace HeapImage.BitMap

/-! ## Listing -/

/-- Collecting ends where nothing more is found. -/
theorem onesAfter_of_findIn_none {m : BitMap} {start stop : Nat}
    (h : m.findIn start stop = none) (found : Array Nat) :
    m.onesAfter start stop found = found := by
  rw [onesAfter.eq_def]
  split
  · rfl
  · rename_i i hi
    rw [h] at hi
    cases hi

/-- Collecting goes on behind the bit that has been found. -/
theorem onesAfter_of_findIn_some {m : BitMap} {start stop i : Nat}
    (h : m.findIn start stop = some i) (found : Array Nat) :
    m.onesAfter start stop found = m.onesAfter (i + 1) stop (found.push i) := by
  rw [onesAfter.eq_def]
  split
  · rename_i hn
    rw [h] at hn
    cases hn
  · rename_i j hj
    rw [h] at hj
    cases hj
    rfl

/-- Members are appended to those found before. -/
theorem toList_onesAfter (m : BitMap) (start stop : Nat) (found : Array Nat) :
    (m.onesAfter start stop found).toList = found.toList ++ m.ones start stop := by
  -- By the number of places left, since `ones` starts over with nothing found.
  induction hn : stop - start using Nat.strongRecOn generalizing start found with
  | ind n ih =>
    cases hfind : m.findIn start stop with
    | none =>
      rw [ones, onesAfter_of_findIn_none hfind, onesAfter_of_findIn_none hfind]
      exact (List.append_nil _).symm
    | some i =>
      have hbounds := le_and_lt_of_findIn hfind
      have hless : stop - (i + 1) < n := by omega
      rw [ones, onesAfter_of_findIn_some hfind, onesAfter_of_findIn_some hfind,
        ih _ hless _ _ rfl, ih _ hless _ _ rfl, Array.toList_push, List.append_assoc]
      rfl

/-- Without a set bit in the range, there is nothing to list. -/
theorem ones_of_findIn_none {m : BitMap} {start stop : Nat} (h : m.findIn start stop = none) :
    m.ones start stop = [] := by
  rw [ones, onesAfter_of_findIn_none h]

/-- The first set bit is listed before those behind it. -/
theorem ones_of_findIn_some {m : BitMap} {start stop i : Nat}
    (h : m.findIn start stop = some i) : m.ones start stop = i :: m.ones (i + 1) stop := by
  rw [ones, onesAfter_of_findIn_some h, toList_onesAfter]
  rfl

/-- The numbers listed for a range are its members. -/
theorem mem_ones {m : BitMap} {start stop i : Nat} :
    i ∈ m.ones start stop ↔ start ≤ i ∧ i < stop ∧ m.contains i = true := by
  induction hn : stop - start using Nat.strongRecOn generalizing start with
  | ind n ih =>
    cases hfind : m.findIn start stop with
    | none =>
      rw [ones_of_findIn_none hfind]
      constructor
      · intro h
        cases h
      · rintro ⟨hle, hlt, hmem⟩
        rw [findIn_eq_none hfind hle hlt] at hmem
        cases hmem
    | some j =>
      obtain ⟨hle, hlt, hmem, hleast⟩ := findIn_eq_some hfind
      rw [ones_of_findIn_some hfind, List.mem_cons, ih _ (by omega) rfl]
      constructor
      · rintro (rfl | ⟨hji, his, hi⟩)
        · exact ⟨hle, hlt, hmem⟩
        · exact ⟨by omega, his, hi⟩
      · rintro ⟨hsi, his, hi⟩
        -- Nothing in front of the number that was found is a member.
        rcases Nat.lt_trichotomy i j with hij | hij | hij
        · rw [hleast i hsi hij] at hi
          cases hi
        · exact .inl hij
        · exact .inr ⟨hij, his, hi⟩

/-- Members are listed in ascending order, each once. -/
theorem ones_pairwise (m : BitMap) (start stop : Nat) :
    (m.ones start stop).Pairwise (· < ·) := by
  induction hn : stop - start using Nat.strongRecOn generalizing start with
  | ind n ih =>
    cases hfind : m.findIn start stop with
    | none =>
      rw [ones_of_findIn_none hfind]
      exact .nil
    | some i =>
      have hbounds := le_and_lt_of_findIn hfind
      rw [ones_of_findIn_some hfind]
      refine .cons ?_ (ih _ (by omega) _ rfl)
      intro j hj
      exact (mem_ones.mp hj).1

/-- The bits listed are those that are set. -/
theorem mem_toList {m : BitMap} {i : Nat} : i ∈ m.toList ↔ m.contains i = true := by
  rw [toList, mem_ones]
  exact ⟨fun h => h.2.2, fun h => ⟨Nat.zero_le i, lt_size_of_contains h, h⟩⟩

/-- The bits are listed in ascending order. -/
theorem toList_pairwise (m : BitMap) : m.toList.Pairwise (· < ·) := m.ones_pairwise 0 m.size

/-! ## Counting -/

/-- The words of a map in order. -/
theorem toList_words (m : BitMap) :
    m.words.toList = (List.range m.words.size).map m.word := by
  refine List.ext_getElem (by simp) fun k hk hk' => ?_
  rw [List.getElem_map, List.getElem_range, word, Word.get_of_lt, Array.getElem_toList]

/-- **Counting word by word** comes to the number of members. -/
theorem count_eq_countP (m : BitMap) :
    m.count = (List.range (64 * m.words.size)).countP m.contains := by
  rw [count, ← Array.foldl_toList, toList_words]
  -- By induction on the words: each adds the members among its 64 places.
  induction m.words.size with
  | zero => rfl
  | succ n ih =>
    have hword : (m.contains ∘ fun j => 64 * n + j) = fun j => m.contains (64 * n + j) := rfl
    rw [List.range_succ, List.map_append, List.foldl_append, ih, Nat.mul_succ, List.range_add,
      List.countP_append, List.countP_map, hword, List.map_singleton, List.foldl_cons,
      List.foldl_nil, Word.popCount_eq]
    congr 1
    exact List.countP_congr fun j hj =>
      iff_of_eq (congrArg (· = true) (m.contains_word (List.mem_range.mp hj)).symm)

/-- There are as many set bits as are listed: both count the words' bits. -/
theorem count_eq_length (m : BitMap) : m.count = m.toList.length := by
  have hnodup : (List.range (64 * m.words.size)).Nodup := List.nodup_range
  rw [count_eq_countP, List.countP_eq_length_filter]
  refine List.Perm.length_eq ((List.perm_ext_iff_of_nodup (hnodup.filter _)
    (m.toList_pairwise.imp Nat.ne_of_lt)).mpr fun i => ?_)
  rw [List.mem_filter, List.mem_range, mem_toList, and_iff_right_iff_imp]
  intro hi
  have hword := m.word_lt_of_lt (lt_size_of_contains hi)
  omega

/-! ## Inserting -/

/-- Inserting a bit of the map sets this bit only. -/
theorem contains_insert {m : BitMap} {i : Nat} (h : i < m.size) (j : Nat) :
    (m.insert i).contains j = (decide (i = j) || m.contains j) := by
  rw [insert, dif_pos h, contains_set]

/-- A slot that ends within some bytes is one of their whole slots. -/
theorem div_lt_div_of_add_le {width k n : Nat} (hwidth : 0 < width) (h : k + width ≤ n) :
    k / width < n / width := by
  refine Nat.lt_of_lt_of_le ?_ (Nat.div_le_div_right h)
  rw [Nat.add_div_right _ hwidth]
  exact Nat.lt_succ_self _

/-- A bit can be set if it is inside the map. -/
theorem set?_eq_ok {m m' : BitMap} {i : Nat} :
    m.set? i = .ok m' ↔ i < m.size ∧ m' = m.insert i := by
  rw [set?, within]
  split
  · rename_i hi
    rw [insert, dif_pos hi, Except.ok.injEq, eq_comm]
    exact ⟨fun h => ⟨hi, h⟩, fun h => h.2⟩
  · rename_i hi
    constructor
    · intro h
      cases h
    · intro h
      exact absurd h.1 hi

end HeapImage.BitMap
