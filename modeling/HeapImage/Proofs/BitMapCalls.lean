import HeapImage.Proofs.BitMapSearch
import HeapImage.Proofs.FileSections
import Mathlib.Data.Finset.Sort

/-! # Bit maps under calls

A bit map is a finite set of slot numbers. It begins as the empty set or as what stored words hold,
bits are inserted and removed, and at any time it answers like the set.

* `BitMap.Answers`: a map answers all questions as a set does.
* `BitMap.contains_ofWords?`: the set in stored words.
* `BitMap.Call`, `BitMap.performAll`: the calls that change a map.
* `BitMap.answers_performAll`: after any calls, a map answers as the set does that the same calls
  lead to. -/

namespace HeapImage

namespace BitMap

variable {m : BitMap} {s : Finset Nat} {i size start stop : Nat} {words : Array UInt64}

/-! ## Words -/

/-- The members of a stored map are the bits of its words. -/
theorem contains_ofWords? (h : ofWords? words size = some m) : m.size = size ∧
    ∀ i, m.contains i = (words.getD (i / 64) 0).toNat.testBit (i % 64) := by
  rw [ofWords?] at h
  split at h
  · split at h
    · cases h
      exact ⟨rfl, contains_eq _⟩
    · cases h
  · cases h

/-! ## What a set answers -/

/-- The members of a set in a range, in ascending order. -/
def ascending (s : Finset Nat) (start stop : Nat) : List Nat :=
  (s.filter fun i => start ≤ i ∧ i < stop).sort

/-- Visits numbers one after the other until a visit says to stop; tells whether none did. -/
def visitAll {σ : Type} (visit : Nat → StateM σ Bool) : List Nat → StateM σ Bool
  | [] => pure true
  | i :: rest => do
    if ← visit i then visitAll visit rest else return false

/-- The map answers all questions as the set does. -/
structure Answers (m : BitMap) (s : Finset Nat) : Prop where
  /-- The set has no member outside the map. -/
  lt_size : ∀ i ∈ s, i < m.size
  at?_eq : ∀ i, i < m.size → m.at? i = .ok (decide (i ∈ s))
  count_eq : m.count = s.card
  /-- A search finds the least member of a range. -/
  findIn_eq_some : ∀ start stop i, m.findIn start stop = some i ↔
    IsLeast {k | k ∈ s ∧ start ≤ k ∧ k < min stop m.size} i
  /-- A search finds nothing only if there is nothing. -/
  findIn_eq_none : ∀ start stop, m.findIn start stop = none ↔
    ∀ k ∈ s, ¬ (start ≤ k ∧ k < min stop m.size)
  ones_eq : ∀ start stop, m.ones start stop = ascending s start stop
  /-- Whatever a visit does, it is done for the members of a range in ascending order. -/
  iterate_eq : ∀ {σ : Type} start stop (visit : Nat → StateM σ Bool),
    m.iterate start stop visit = visitAll visit (ascending s start stop)
  /-- The map can be stored and read back. -/
  rebuilds : ofWords? m.words m.size = some m

/-- Members are visited in the order in which they are listed. -/
theorem iterate_eq_visitAll {σ : Type} (m : BitMap) (start stop : Nat)
    (visit : Nat → StateM σ Bool) :
    m.iterate start stop visit = visitAll visit (m.ones start stop) := by
  funext t
  fun_induction iterate m start stop visit t with
  | case1 start t hfind => rw [ones_of_findIn_none hfind]; rfl
  | case2 start t i hfind t' hvisit ih =>
    rw [ones_of_findIn_some hfind, ih, visitAll]
    simp only [bind, StateT.bind, hvisit]
    rfl
  | case3 start t i hfind t' hvisit =>
    rw [ones_of_findIn_some hfind, visitAll]
    simp only [bind, StateT.bind, hvisit]
    rfl

/-- The numbers that a map lists are the members in ascending order. -/
theorem ones_eq_ascending (h : ∀ i, m.contains i = true ↔ i ∈ s) (start stop : Nat) :
    m.ones start stop = ascending s start stop := by
  have hpairs := m.ones_pairwise start stop
  have hset : (m.ones start stop).toFinset = s.filter fun i => start ≤ i ∧ i < stop := by
    ext i
    rw [List.mem_toFinset, mem_ones, h, Finset.mem_filter]
    tauto
  rw [ascending, ← hset]
  exact ((List.toFinset_sort _ (hpairs.imp Nat.ne_of_lt)).mpr (hpairs.imp Nat.le_of_lt)).symm

/-- What a search finds is the least element in its range. -/
theorem isLeast_of_findIn (h : ∀ i, m.contains i = true ↔ i ∈ s)
    (hfind : m.findIn start stop = some i) :
    IsLeast {k | k ∈ s ∧ start ≤ k ∧ k < min stop m.size} i := by
  obtain ⟨hstart, hstop, hmem, hleast⟩ := findIn_eq_some hfind
  refine ⟨⟨(h i).mp hmem, hstart, Nat.lt_min.mpr ⟨hstop, lt_size_of_contains hmem⟩⟩, ?_⟩
  rintro k ⟨hk, hstart, -⟩
  by_contra hlt
  have hclear := hleast k hstart (Nat.not_le.mp hlt)
  rw [(h k).mpr hk] at hclear
  cases hclear

/-- A search finds nothing exactly if no element is in its range. -/
theorem findIn_eq_none_iff (h : ∀ i, m.contains i = true ↔ i ∈ s) :
    m.findIn start stop = none ↔ ∀ k ∈ s, ¬ (start ≤ k ∧ k < min stop m.size) := by
  constructor
  · rintro hfind k hk ⟨hstart, hstop⟩
    have hclear := findIn_eq_none hfind hstart (Nat.lt_min.mp hstop).1
    rw [(h k).mpr hk] at hclear
    cases hclear
  · intro hall
    cases hfind : m.findIn start stop with
    | none => rfl
    | some i =>
      obtain ⟨hi, hrange⟩ := (isLeast_of_findIn h hfind).1
      exact absurd hrange (hall i hi)

/-- **A map answers as the set of its members.** -/
theorem answers_of_contains (h : ∀ i, m.contains i = true ↔ i ∈ s) : m.Answers s where
  lt_size i hi := lt_size_of_contains ((h i).mpr hi)
  at?_eq i hi := by
    rw [at?, within, dif_pos hi]
    exact congrArg _ (Bool.eq_iff_iff.mpr ((h i).trans (decide_eq_true_iff).symm))
  count_eq := by
    have hall : (s.filter fun i => 0 ≤ i ∧ i < m.size) = s :=
      Finset.filter_true_of_mem fun i hi =>
        ⟨Nat.zero_le i, lt_size_of_contains ((h i).mpr hi)⟩
    rw [count_eq_length, toList, ones_eq_ascending h, ascending, hall, Finset.length_sort]
  findIn_eq_some start stop i := by
    refine ⟨isLeast_of_findIn h, fun hleast => ?_⟩
    cases hfind : m.findIn start stop with
    | none =>
      obtain ⟨hi, hstart, hstop⟩ := hleast.1
      exact absurd ⟨hstart, hstop⟩ ((findIn_eq_none_iff h).mp hfind i hi)
    | some j => rw [(isLeast_of_findIn h hfind).unique hleast]
  findIn_eq_none start stop := findIn_eq_none_iff h
  ones_eq := ones_eq_ascending h
  iterate_eq start stop visit :=
    ones_eq_ascending h start stop ▸ iterate_eq_visitAll m start stop visit
  rebuilds := ofWords?_words m

/-! ## Calls -/

/-- A call that changes a map. -/
inductive Call where
  | set (i : Nat)
  | clear (i : Nat)
  deriving DecidableEq, Repr

namespace Call

/-- The bit that a call is about. -/
def bit : Call → Nat
  | set i | clear i => i

/-- The map after a call, which is refused if the map does not have the bit. -/
def perform (m : BitMap) : Call → Except BoundsFault BitMap
  | set i => m.set? i
  | clear i => m.clear? i

/-- The set after a call. -/
def apply (s : Finset Nat) : Call → Finset Nat
  | set i => Insert.insert i s
  | clear i => s.erase i

end Call

/-- The map after some calls. -/
def performAll (m : BitMap) (calls : List Call) : Except BoundsFault BitMap :=
  calls.foldlM Call.perform m

/-- What there is before the first call: an empty map, or one read from words. -/
inductive Starts (size : Nat) : BitMap → Finset Nat → Prop
  | empty : Starts size (.empty size) ∅
  | words {words : Array UInt64} {m : BitMap} : ofWords? words size = some m →
    Starts size m ((Finset.range size).filter fun i =>
      (words.getD (i / 64) 0).toNat.testBit (i % 64) = true)

/-- A map that calls start from has the size and the elements they say. -/
theorem Starts.contains (h : Starts size m s) :
    m.size = size ∧ ∀ i, m.contains i = true ↔ i ∈ s := by
  cases h with
  | empty => exact ⟨rfl, fun i => by simp⟩
  | words h =>
    obtain ⟨rfl, hbits⟩ := contains_ofWords? h
    refine ⟨rfl, fun i => ?_⟩
    rw [Finset.mem_filter, Finset.mem_range, ← hbits]
    exact ⟨fun hi => ⟨lt_size_of_contains hi, hi⟩, And.right⟩

/-- **One call** inside the map does to the members what it does to a set. -/
theorem exists_perform {c : Call} (hc : c.bit < m.size) (h : ∀ i, m.contains i = true ↔ i ∈ s) :
    ∃ m', c.perform m = .ok m' ∧ m'.size = m.size ∧
      ∀ i, m'.contains i = true ↔ i ∈ c.apply s := by
  cases c with
  | set k =>
    have hc : k < m.size := hc
    refine ⟨m.set k hc, dif_pos hc, size_set .., fun i => ?_⟩
    rw [contains_set, Call.apply, Finset.mem_insert, Bool.or_eq_true, decide_eq_true_iff, h,
      eq_comm]
  | clear k =>
    have hc : k < m.size := hc
    refine ⟨m.clear k hc, dif_pos hc, size_clear .., fun i => ?_⟩
    rw [contains_clear, Call.apply, Finset.mem_erase, Bool.and_eq_true, Bool.not_eq_true',
      decide_eq_false_iff_not, h, ne_comm]

/-- **Any calls.** A map that is empty at first, or read from words, answers after any calls inside
it as the set does that the same calls lead to. -/
theorem answers_performAll (hstart : Starts size m s) (calls : List Call)
    (hcalls : ∀ c ∈ calls, c.bit < size) : ∃ m', m.performAll calls = .ok m' ∧ m'.size = size ∧
      m'.Answers (calls.foldl Call.apply s) := by
  obtain ⟨hsize, hcontains⟩ := hstart.contains
  clear hstart
  -- By induction on the calls: the members of the map are those of the set after each of them.
  induction calls generalizing m s with
  | nil => exact ⟨m, rfl, hsize, answers_of_contains hcontains⟩
  | cons c calls ih =>
    obtain ⟨hc, hcalls⟩ := List.forall_mem_cons.mp hcalls
    obtain ⟨m', hperform, hsize', hcontains'⟩ := exists_perform (hsize ▸ hc) hcontains
    rw [performAll, List.foldlM_cons, hperform]
    exact ih hcalls (hsize'.trans hsize) hcontains'

/-- A map read from two words, with the last bit of the first word removed and the second word
filled up. -/
theorem answers_performAll_twoWords : ∃ m m' s, Starts 66 m s ∧ s = {0, 63, 65} ∧
    (∀ c ∈ [Call.clear 63, Call.set 64], c.bit < 66) ∧
    m.performAll [.clear 63, .set 64] = .ok m' ∧ m'.Answers {0, 64, 65} ∧
    m'.findIn 1 1000 = some 64 := by
  obtain ⟨m, hm⟩ : ∃ m, ofWords? #[0x8000000000000001, 2] 66 = some m :=
    Option.isSome_iff_exists.mp (by decide +kernel)
  have hcalls : ∀ c ∈ [Call.clear 63, Call.set 64], c.bit < 66 := by decide
  obtain ⟨m', hperform, hsize, hanswers⟩ := answers_performAll (.words hm) _ hcalls
  have hset : [Call.clear 63, Call.set 64].foldl Call.apply ((Finset.range 66).filter fun i =>
      (#[0x8000000000000001, 2].getD (i / 64) (0 : UInt64)).toNat.testBit (i % 64) = true) =
      {0, 64, 65} := by decide
  rw [hset] at hanswers
  refine ⟨m, m', _, .words hm, by decide, hcalls, hperform, hanswers, ?_⟩
  rw [hanswers.findIn_eq_some, hsize]
  refine ⟨by decide, fun k hk => ?_⟩
  have hmem : k = 0 ∨ k = 64 ∨ k = 65 := by simpa using hk.1
  have hlow := hk.2.1
  omega

end BitMap

end HeapImage
