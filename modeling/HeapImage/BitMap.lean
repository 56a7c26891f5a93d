import HeapImage.Bounds
import HeapImage.Bytes
import HeapImage.Word

/-!
# Bit maps

A bit map has one bit per slot of an archived region and stands for a set of slot numbers below its
size. Its bits are packed into heap words, least significant first, and the words are exactly what
an archive file stores: bits of the last word beyond the size are clear.

* `BitMap.contains`: membership of a slot number, the view all other operations are stated in.
* `BitMap.set?`, `BitMap.clear?`, `BitMap.at?`: refused outside the map.
* `BitMap.findIn`, `BitMap.ones`: the least member, and all members, of a range.
* `BitMap.count`, `BitMap.iterate`: the number of members, and a visit to those of a range.
* `BitMap.ofWords?`, `BitMap.ofBytes?`, `BitMap.bytes`: the stored form.
-/

namespace HeapImage

namespace Bytes

/-- The bytes of heap words in a row. -/
def ofWords (words : Array UInt64) : ByteArray :=
  ofList (words.toList.flatMap fun w => ofNat wordSize w.toNat)

/-- The first `n` heap words of a byte array. -/
def words (b : ByteArray) (n : Nat) : Array UInt64 :=
  (Array.range n).map fun k => UInt64.ofNat (valueAt b (wordSize * k) wordSize)

end Bytes

/-- Heap words that hold `size` bits. -/
def wordCount (size : Nat) : Nat := (size + 63) / 64

namespace Word

/-- Word `k` of an array of words, zero past the end. -/
def get (words : Array UInt64) (k : Nat) : UInt64 := words.getD k 0

/-- Bit `i` of an array of words. -/
def bitAt (words : Array UInt64) (i : Nat) : Bool := bit (get words (i / 64)) (i % 64)

/-- A word of the map is the one in the array. -/
theorem get_of_lt {words : Array UInt64} {k : Nat} (h : k < words.size) :
    get words k = words[k] := by
  rw [get, Array.getD_eq_getD_getElem?, Array.getElem?_eq_getElem h, Option.getD_some]

/-- Behind its last word a map has zeros. -/
theorem get_of_size_le {words : Array UInt64} {k : Nat} (h : words.size ≤ k) :
    get words k = 0 := by
  rw [get, Array.getD_eq_getD_getElem?, Array.getElem?_eq_none h, Option.getD_none]

/-- Words without set bits have none. -/
theorem bitAt_replicate (n i : Nat) : bitAt (Array.replicate n 0) i = false := by
  rw [bitAt, get, Array.getD_eq_getD_getElem?, Array.getElem?_replicate]
  split <;> exact bit_zero _

/-- Changing one word leaves the others alone. -/
theorem get_modify (words : Array UInt64) (f : UInt64 → UInt64) (k j : Nat)
    (hk : k < words.size) :
    get (words.modify k f) j = if k = j then f (get words j) else get words j := by
  rw [get, get, Array.getD_eq_getD_getElem?, Array.getD_eq_getD_getElem?, Array.getElem?_modify]
  split
  · rename_i hkj
    rw [← hkj, Array.getElem?_eq_getElem hk]
    rfl
  · rfl

/-- Setting the bit of a mask in a word sets one bit of the array. -/
theorem bitAt_modify_or (words : Array UInt64) {i : Nat} (hi : i / 64 < words.size) (j : Nat) :
    bitAt (words.modify (i / 64) (· ||| mask (i % 64))) j =
      (decide (i = j) || bitAt words j) := by
  have hsplit : i = j ↔ i / 64 = j / 64 ∧ i % 64 = j % 64 := by omega
  rw [bitAt, get_modify _ _ _ _ hi]
  split
  · rename_i hdiv
    rw [bit_or, bit_mask (Nat.mod_lt _ (by decide)) (Nat.mod_lt _ (by decide)), Bool.or_comm]
    simp only [hsplit, hdiv, true_and]
    rfl
  · rename_i hdiv
    simp only [hsplit, hdiv, false_and, decide_false, Bool.false_or]
    rfl

/-- Clearing the bit of a mask in a word clears one bit of the array. -/
theorem bitAt_modify_and (words : Array UInt64) {i : Nat} (hi : i / 64 < words.size) (j : Nat) :
    bitAt (words.modify (i / 64) (· &&& ~~~mask (i % 64))) j =
      (!decide (i = j) && bitAt words j) := by
  have hsplit : i = j ↔ i / 64 = j / 64 ∧ i % 64 = j % 64 := by omega
  rw [bitAt, get_modify _ _ _ _ hi]
  split
  · rename_i hdiv
    rw [bit_and, bit_not _ (Nat.mod_lt _ (by decide)),
      bit_mask (Nat.mod_lt _ (by decide)) (Nat.mod_lt _ (by decide)), Bool.and_comm]
    simp only [hsplit, hdiv, true_and]
    rfl
  · rename_i hdiv
    simp only [hsplit, hdiv, false_and, decide_false, Bool.not_false, Bool.true_and]
    rfl

end Word

/-- A set of numbers below `size`, packed into heap words. -/
structure BitMap where
  /-- Number of bits. -/
  size : Nat
  /-- The packed bits. -/
  words : Array UInt64
  size_words : words.size = wordCount size
  clear_beyond : ∀ i, size ≤ i → Word.bitAt words i = false

namespace BitMap

/-- Word `k` of the map. -/
def word (m : BitMap) (k : Nat) : UInt64 := Word.get m.words k

/-- `i` is a member of the map: its bit is left over once all others of its word are masked out. -/
def contains (m : BitMap) (i : Nat) : Bool := m.word (i / 64) &&& Word.mask (i % 64) != 0

/-- The bit of a map is that of its words, since the words are clear behind the last bit. -/
theorem contains_eq (m : BitMap) (i : Nat) : m.contains i = Word.bitAt m.words i :=
  Word.and_mask_ne_zero _ (Nat.mod_lt _ (by decide))

/-- The bits of a word are members. -/
theorem contains_word (m : BitMap) {k j : Nat} (hj : j < 64) :
    m.contains (64 * k + j) = Word.bit (m.word k) j := by
  have hdiv : (64 * k + j) / 64 = k := by omega
  have hmod : (64 * k + j) % 64 = j := by omega
  rw [contains_eq, Word.bitAt, hdiv, hmod]
  rfl

/-- Bits behind the end of a map are clear. -/
@[simp] theorem contains_eq_false_of_size_le (m : BitMap) {i : Nat} (h : m.size ≤ i) :
    m.contains i = false := (m.contains_eq i).trans (m.clear_beyond i h)

/-- Only bits of the map are set. -/
theorem lt_size_of_contains {m : BitMap} {i : Nat} (h : m.contains i = true) : i < m.size := by
  rcases Nat.lt_or_ge i m.size with hi | hi
  · exact hi
  · simp [hi] at h

/-! ### Building maps -/

/-- Every bit of a map is in one of its words. -/
theorem word_lt_of_lt (m : BitMap) {i : Nat} (h : i < m.size) : i / 64 < m.words.size := by
  rw [m.size_words, wordCount]
  omega

/-- The map of `size` bits, all clear. -/
def empty (size : Nat) : BitMap where
  size := size
  words := Array.replicate (wordCount size) 0
  size_words := Array.size_replicate
  clear_beyond _ _ := Word.bitAt_replicate ..

@[simp] theorem contains_empty (size i : Nat) : (empty size).contains i = false :=
  (contains_eq ..).trans (Word.bitAt_replicate ..)

/-- Inserts bit `i`. -/
def set (m : BitMap) (i : Nat) (h : i < m.size) : BitMap where
  size := m.size
  words := m.words.modify (i / 64) (· ||| Word.mask (i % 64))
  size_words := Array.size_modify.trans m.size_words
  clear_beyond j hj := by
    rw [Word.bitAt_modify_or _ (m.word_lt_of_lt h), m.clear_beyond j hj, Bool.or_false]
    exact decide_eq_false (by omega)

/-- Removes bit `i`. -/
def clear (m : BitMap) (i : Nat) (h : i < m.size) : BitMap where
  size := m.size
  words := m.words.modify (i / 64) (· &&& ~~~Word.mask (i % 64))
  size_words := Array.size_modify.trans m.size_words
  clear_beyond j hj := by
    rw [Word.bitAt_modify_and _ (m.word_lt_of_lt h), m.clear_beyond j hj, Bool.and_false]

/-- Setting a bit keeps the size. -/
@[simp] theorem size_set (m : BitMap) (i : Nat) (h : i < m.size) : (m.set i h).size = m.size := rfl

/-- Clearing a bit keeps the size. -/
@[simp] theorem size_clear (m : BitMap) (i : Nat) (h : i < m.size) :
    (m.clear i h).size = m.size := rfl

/-- Setting a bit sets this bit only. -/
theorem contains_set (m : BitMap) (i j : Nat) (h : i < m.size) :
    (m.set i h).contains j = (decide (i = j) || m.contains j) := by
  rw [contains_eq, contains_eq]
  exact Word.bitAt_modify_or _ (m.word_lt_of_lt h) j

/-- Clearing a bit clears this bit only. -/
theorem contains_clear (m : BitMap) (i j : Nat) (h : i < m.size) :
    (m.clear i h).contains j = (!decide (i = j) && m.contains j) := by
  rw [contains_eq, contains_eq]
  exact Word.bitAt_modify_and _ (m.word_lt_of_lt h) j

/-- Refuses bit `i` unless it lies inside the map. -/
@[inline]
def within {α : Type} (m : BitMap) (i : Nat) (f : i < m.size → α) : Except BoundsFault α :=
  if h : i < m.size then .ok (f h) else .error (.bit i m.size)

/-- Inserts bit `i`, which has to lie inside the map. -/
def set? (m : BitMap) (i : Nat) : Except BoundsFault BitMap := m.within i (m.set i)

/-- Removes bit `i`, which has to lie inside the map. -/
def clear? (m : BitMap) (i : Nat) : Except BoundsFault BitMap := m.within i (m.clear i)

/-- Membership of bit `i`, which has to lie inside the map. -/
def at? (m : BitMap) (i : Nat) : Except BoundsFault Bool := m.within i fun _ => m.contains i

/-- Inserts bit `i`, or leaves the map alone if it has no such bit. -/
def insert (m : BitMap) (i : Nat) : BitMap := if h : i < m.size then m.set i h else m

/-- Inserting a bit keeps the size, whether the bit is in the map or not. -/
@[simp] theorem size_insert (m : BitMap) (i : Nat) : (m.insert i).size = m.size := by
  unfold insert
  split <;> simp

/-! ### Searching -/

/-- The least member below `stop` among the set bits of `w`, which is what is left of word `k`, and
the bits of the words behind it. -/
def search (m : BitMap) (stop k : Nat) (w : UInt64) : Option Nat :=
  if w ≠ 0 then
    let i := k * 64 + Word.trailingZeros w
    if i < stop then some i else none
  else if stop ≤ (k + 1) * 64 then none
  else search m stop (k + 1) (m.word (k + 1))
termination_by stop - k * 64

/-- The least member in `[start, stop)`; bits beyond the size are no members. -/
def findIn (m : BitMap) (start stop : Nat) : Option Nat :=
  let stop := min stop m.size
  if stop ≤ start then none
  else
    -- Bits of the first word that lie in front of `start` are masked out.
    m.search stop (start / 64) (m.word (start / 64) &&& Word.maskFrom (start % 64))

/-- The least member at or after `start`. -/
def find (m : BitMap) (start : Nat) : Option Nat := m.findIn start m.size

/-- What a search looks at: the set bits of `w`, which is what is left of word `k`, and the members
behind it. -/
def Ahead (m : BitMap) (k : Nat) (w : UInt64) (i : Nat) : Prop :=
  (i / 64 = k ∧ Word.bit w (i % 64) = true) ∨ (k < i / 64 ∧ m.contains i = true)

/-- Behind a word without set bits a search looks at the next word. -/
theorem ahead_zero {m : BitMap} {k i : Nat} :
    m.Ahead k 0 i ↔ m.Ahead (k + 1) (m.word (k + 1)) i := by
  unfold Ahead
  rw [Word.bit_zero, contains_eq, Word.bitAt]
  constructor
  · rintro (⟨-, hbit⟩ | ⟨hk, hbit⟩)
    · cases hbit
    · rcases Nat.eq_or_lt_of_le hk with heq | hlt
      · refine .inl ⟨heq.symm, ?_⟩
        change k + 1 = i / 64 at heq
        rwa [heq]
      · exact .inr ⟨hlt, hbit⟩
  · rintro (⟨heq, hbit⟩ | ⟨hk, hbit⟩)
    · refine .inr ⟨by omega, ?_⟩
      rwa [heq]
    · exact .inr ⟨by omega, hbit⟩

/-- The first set bit of a word that has one comes before all else. -/
theorem ahead_trailingZeros {m : BitMap} {k : Nat} {w : UInt64} (hw : w ≠ 0) :
    m.Ahead k w (k * 64 + Word.trailingZeros w) ∧
      ∀ i < k * 64 + Word.trailingZeros w, ¬ m.Ahead k w i := by
  have hset := Word.bit_trailingZeros hw
  have hlt := Word.lt_of_bit hset
  refine ⟨.inl ⟨by omega, ?_⟩, ?_⟩
  · rwa [Nat.mul_comm, Nat.mul_add_mod, Nat.mod_eq_of_lt hlt]
  · rintro i hi (⟨heq, hbit⟩ | ⟨hk, -⟩)
    · rw [Word.bit_eq_false_of_lt_trailingZeros (by omega)] at hbit
      cases hbit
    · omega

/-- What a search finds is the least of what it looks at. -/
theorem search_eq_some {m : BitMap} {stop k i : Nat} {w : UInt64}
    (h : m.search stop k w = some i) :
    i < stop ∧ m.Ahead k w i ∧ ∀ j < i, ¬ m.Ahead k w j := by
  fun_induction search m stop k w with
  | case1 k w hw j hstop =>
    obtain rfl : j = i := Option.some.inj h
    exact ⟨hstop, ahead_trailingZeros hw⟩
  | case2 => cases h
  | case3 => cases h
  | case4 k w hw hstop ih =>
    obtain rfl := Decidable.not_not.mp hw
    simp only [ahead_zero]
    exact ih h

/-- A search that finds nothing has nothing to look at. -/
theorem search_eq_none {m : BitMap} {stop k i : Nat} {w : UInt64}
    (h : m.search stop k w = none) (hi : i < stop) : ¬ m.Ahead k w i := by
  fun_induction search m stop k w with
  | case1 => cases h
  | case2 k w hw j hstop =>
    exact (ahead_trailingZeros hw).2 i (Nat.lt_of_lt_of_le hi (Nat.not_lt.mp hstop))
  | case3 k w hw hstop =>
    obtain rfl := Decidable.not_not.mp hw
    rintro (⟨-, hbit⟩ | ⟨hk, -⟩)
    · rw [Word.bit_zero] at hbit
      cases hbit
    · omega
  | case4 k w hw hstop ih =>
    obtain rfl := Decidable.not_not.mp hw
    rw [ahead_zero]
    exact ih h

/-- A search from `start` on looks at the members that are not in front of it. -/
theorem ahead_start {m : BitMap} {start i : Nat} :
    m.Ahead (start / 64) (m.word (start / 64) &&& Word.maskFrom (start % 64)) i ↔
      start ≤ i ∧ m.contains i = true := by
  have hmask := Word.bit_maskFrom (Nat.mod_lt start (by decide : 0 < 64))
    (Nat.mod_lt i (by decide : 0 < 64))
  rw [Ahead, Word.bit_and, hmask, Bool.and_eq_true, decide_eq_true_iff, contains_eq, Word.bitAt]
  constructor
  · rintro (⟨heq, hbit, hle⟩ | ⟨hk, hbit⟩)
    · exact ⟨by omega, heq ▸ hbit⟩
    · exact ⟨by omega, hbit⟩
  · rintro ⟨hle, hbit⟩
    rcases Nat.eq_or_lt_of_le (Nat.div_le_div_right hle : start / 64 ≤ i / 64) with heq | hlt
    · exact .inl ⟨heq.symm, heq ▸ hbit, by omega⟩
    · exact .inr ⟨hlt, hbit⟩

/-- What a search in a range finds is the least member of the range. -/
theorem findIn_eq_some {m : BitMap} {start stop i : Nat} (h : m.findIn start stop = some i) :
    start ≤ i ∧ i < stop ∧ m.contains i = true ∧
      ∀ k, start ≤ k → k < i → m.contains k = false := by
  rw [findIn] at h
  split at h
  · cases h
  · obtain ⟨hstop, hahead, hleast⟩ := search_eq_some h
    obtain ⟨hstart, hmem⟩ := ahead_start.mp hahead
    refine ⟨hstart, by omega, hmem, fun k hk hki => ?_⟩
    rw [← Bool.not_eq_true]
    exact fun hmem => hleast k hki (ahead_start.mpr ⟨hk, hmem⟩)

/-- A search finds nothing only in a range without members. -/
theorem findIn_eq_none {m : BitMap} {start stop : Nat} (h : m.findIn start stop = none) {k : Nat}
    (hle : start ≤ k) (hlt : k < stop) : m.contains k = false := by
  rcases Nat.lt_or_ge k m.size with hk | hk
  · rw [findIn] at h
    split at h
    · omega
    · rw [← Bool.not_eq_true]
      exact fun hmem => search_eq_none h (by omega) (ahead_start.mpr ⟨hle, hmem⟩)
  · exact m.contains_eq_false_of_size_le hk

/-- A bit that is found lies in the range of the search. -/
theorem le_and_lt_of_findIn {m : BitMap} {start stop i : Nat} (h : m.findIn start stop = some i) :
    start ≤ i ∧ i < stop := ⟨(findIn_eq_some h).1, (findIn_eq_some h).2.1⟩

/-- Adds the members in `[start, stop)` to a list of smaller ones. -/
def onesAfter (m : BitMap) (start stop : Nat) (found : Array Nat) : Array Nat :=
  match h : m.findIn start stop with
  | none => found
  | some i => onesAfter m (i + 1) stop (found.push i)
termination_by stop - start
decreasing_by
  have := le_and_lt_of_findIn h
  omega

/-- The members in `[start, stop)` in ascending order. -/
def ones (m : BitMap) (start stop : Nat) : List Nat := (m.onesAfter start stop #[]).toList

/-- All members in ascending order. -/
def toList (m : BitMap) : List Nat := m.ones 0 m.size

/-- Calls `visit` for the members in `[start, stop)` in ascending order until it says to stop; tells
whether it never did. -/
def iterate {σ : Type} (m : BitMap) (start stop : Nat) (visit : Nat → StateM σ Bool) :
    StateM σ Bool := fun s =>
  match _h : m.findIn start stop with
  | none => (true, s)
  | some i =>
    match visit i s with
    | (true, s) => iterate m (i + 1) stop visit s
    | (false, s) => (false, s)
termination_by stop - start
decreasing_by
  have := le_and_lt_of_findIn _h
  omega

/-- Number of members: the sum of the set bits of all words. -/
def count (m : BitMap) : Nat := m.words.foldl (fun n w => n + Word.popCount w) 0

/-! ### Stored form -/

/-- No bit at or beyond `size` is set in the last of the words that hold `size` bits: nothing is
left of it once the bits below `size` are shifted out. -/
def tailIsClear (words : Array UInt64) (size : Nat) : Bool :=
  size % 64 == 0 ||
    match words.back? with
    | some last => last >>> UInt64.ofNat (size % 64) == 0
    | none => false

/-- If the last word is clear behind the end of the map, so are all bits behind the end. -/
theorem clear_of_tailIsClear {words : Array UInt64} {size : Nat}
    (hs : words.size = wordCount size) (ht : tailIsClear words size = true)
    (i : Nat) (hi : size ≤ i) : Word.bitAt words i = false := by
  rw [wordCount] at hs
  rw [Word.bitAt]
  rcases Nat.lt_or_ge (i / 64) words.size with hlt | hge
  · -- Only the last word has bits beyond the size, and only if the size ends inside it.
    have hlast : i / 64 = words.size - 1 := by omega
    have htail : size % 64 ≠ 0 := by omega
    rw [tailIsClear, beq_false_of_ne htail, Bool.false_or, Array.back?_eq_getElem?, ← hlast,
      Array.getElem?_eq_getElem hlt] at ht
    have hzero := Word.bit_shiftRight words[i / 64] (Nat.mod_lt size (by decide : 0 < 64))
      (i % 64 - size % 64)
    rw [eq_of_beq ht, Word.bit_zero, Nat.add_sub_cancel' (by omega)] at hzero
    rw [Word.get_of_lt hlt]
    exact hzero.symm
  · rw [Word.get_of_size_le hge, Word.bit_zero]

/-- Reads a map of `size` bits from its heap words; refused if their number does not fit the size or
a bit beyond the size is set. -/
def ofWords? (words : Array UInt64) (size : Nat) : Option BitMap :=
  if hs : words.size = wordCount size then
    if ht : tailIsClear words size = true then
      some ⟨size, words, hs, clear_of_tailIsClear hs ht⟩
    else none
  else none

/-- The bytes of the stored form, word after word. -/
def bytes (m : BitMap) : ByteArray := Bytes.ofWords m.words

/-- Reads a stored map of `size` bits from its bytes, of which there have to be enough. -/
def ofBytes? (bytes : ByteArray) (size : Nat) : Option BitMap :=
  ofWords? (Bytes.words bytes (wordCount size)) size

/-- Same size and same members. -/
instance : BEq BitMap := ⟨fun a b => a.size == b.size && a.words == b.words⟩

/-- A short summary of a map: its size and the number of its members. -/
def summary (m : BitMap) : String :=
  "BitMap \x7b size: " ++ toString m.size ++ ", set: " ++ toString m.count ++ " \x7d"

end BitMap

end HeapImage
