import HeapImage.Heap.Arena
import HeapImage.Proofs.ByteView
import HeapImage.Proofs.Rounding
import Mathlib.Data.List.Pairwise

/-! # The memory of an arena

The chunks of an arena lie apart from each other and below the place of the next one. So every
address belongs to one byte at most, and writes change the bytes they name and no other.

* `Arena.WellFormed`: chunks lie apart and have allocated no more than they have.
* `Arena.byte`, `Arena.Holds`: the byte at an address, and memory that has been allocated.
* `Arena.read?_eq`, `Arena.Holds.read?`: what is read, and what can be read.
* `Arena.byte_write`: what a write changes. -/

namespace HeapImage

namespace Chunk

/-- The byte at an address of the chunk. -/
def byte (c : Chunk) (a : Nat) : UInt8 := Bytes.get c.bytes (a - c.base)

/-- The addresses of a chunk are those from its base on, as many as its size. -/
theorem contains_iff {c : Chunk} {a : Nat} :
    c.contains a = true ↔ c.base ≤ a ∧ a < c.base + c.size := by
  rw [contains, Bool.and_eq_true, decide_eq_true_eq, decide_eq_true_eq, stop]

/-- Writing keeps the place of a chunk. -/
theorem write_base (c : Chunk) (a : Nat) (bytes : ByteArray) : (c.write a bytes).base = c.base := by
  rw [write]
  split <;> rfl

/-- Writing keeps the size of a chunk. -/
theorem write_size (c : Chunk) (a : Nat) (bytes : ByteArray) : (c.write a bytes).size = c.size := by
  rw [write]
  split <;> rfl

/-- Writing keeps the top of a chunk. -/
theorem write_top (c : Chunk) (a : Nat) (bytes : ByteArray) : (c.write a bytes).top = c.top := by
  rw [write]
  split <;> rfl

/-- What writing inside a chunk does to its bytes. -/
theorem byte_write {c : Chunk} {a : Nat} {bytes : ByteArray}
    (h : c.hasBytes a bytes.size = true) (ha : c.base ≤ a) {x : Nat} (hx : c.base ≤ x) :
    (c.write a bytes).byte x =
      if a ≤ x ∧ x < a + bytes.size then Bytes.get bytes (x - a) else c.byte x := by
  have hfits : a - c.base + bytes.size ≤
      (Bytes.grow c.bytes (a - c.base + bytes.size)).size := by
    rw [Bytes.size_grow]
    exact Nat.le_max_right ..
  rw [byte, byte, write_base, write, if_pos h, Bytes.get_overwrite hfits, Bytes.get_grow]
  by_cases hin : a ≤ x ∧ x < a + bytes.size
  · rw [if_pos hin, if_pos (by omega)]
    congr 1
    omega
  · rw [if_neg hin, if_neg (by omega)]

/-- The bytes that can be read. -/
theorem read?_eq_some {c : Chunk} {a len : Nat} {b : ByteArray} (h : c.read? a len = some b)
    (ha : c.base ≤ a) : b.size = len ∧ a + len ≤ c.base + c.size ∧
      ∀ k < len, Bytes.get b k = c.byte (a + k) := by
  rw [read?] at h
  split at h
  · rename_i hin
    rw [hasBytes, decide_eq_true_eq] at hin
    rw [← Option.some.inj h]
    refine ⟨Bytes.size_resize .., by omega, ?_⟩
    intro k hk
    rw [Bytes.get_resize, if_pos hk, Bytes.get_extract, if_pos (by omega), byte]
    congr 1
    omega
  · cases h

end Chunk

namespace Arena

/-- The chunks lie apart from each other and below the place of the next one. -/
structure WellFormed (h : Arena) : Prop where
  ordered : h.chunks.toList.Pairwise fun c d => c.stop ≤ d.base
  below : ∀ c ∈ h.chunks.toList, c.stop ≤ h.nextBase
  top_le : ∀ c ∈ h.chunks.toList, c.top ≤ c.size

variable {h h' : Arena} {a len : Nat} {c : Chunk}

/-! ## Finding chunks -/

/-- The element at the position that a search gives is the one that a search for elements gives. -/
theorem bind_findIdx?_getElem? {α : Type} (p : α → Bool) (xs : List α) :
    ((xs.findIdx? p).bind fun i => xs[i]?) = xs.find? p := by
  induction xs with
  | nil => rfl
  | cons x xs ih =>
    rw [List.findIdx?_cons, List.find?_cons]
    cases p x with
    | true => rfl
    | false =>
      rw [← ih]
      cases xs.findIdx? p <;> rfl

/-- Two chunks with the same address are one. -/
theorem WellFormed.eq_of_contains (hw : h.WellFormed) {c d : Chunk} (hc : c ∈ h.chunks.toList)
    (hd : d ∈ h.chunks.toList) (hca : c.contains a = true) (hda : d.contains a = true) : c = d := by
  rw [Chunk.contains_iff] at hca hda
  have hsymm : Std.Symm fun c d : Chunk => c.stop ≤ d.base ∨ d.stop ≤ c.base :=
    ⟨fun _ _ => Or.symm⟩
  have hapart : h.chunks.toList.Pairwise fun c d => c.stop ≤ d.base ∨ d.stop ≤ c.base :=
    hw.ordered.imp Or.inl
  by_contra hne
  rcases hapart.forall hc hd hne with hcd | hdc
  · rw [Chunk.stop] at hcd
    omega
  · rw [Chunk.stop] at hdc
    omega

/-- **The search** among the ascending chunks finds the one with an address, if there is one. -/
theorem WellFormed.chunkIndex?_eq (hw : h.WellFormed) (a : Nat) :
    h.chunkIndex? a = h.chunks.toList.findIdx? fun c => c.contains a := by
  have hordered := hw.ordered
  unfold chunkIndex?
  simp only [← Array.getElem?_toList]
  generalize h.chunks.toList = cs at hordered
  induction cs with
  | nil => rfl
  | cons c cs ih =>
    obtain ⟨hc, hcs⟩ := List.pairwise_cons.mp hordered
    have hstop : c.stop = c.base + c.size := rfl
    rw [List.findIdx?_cons, ← ih hcs]
    -- Once a chunk starts behind the address, so do all that follow.
    by_cases hbase : c.base ≤ a
    · rw [List.takeWhile_cons_of_pos (by simpa using hbase), List.length_cons]
      cases hlen : (cs.takeWhile fun c => c.base ≤ a).length with
      | zero => simp [Chunk.contains, hbase]
      | succ i =>
        obtain ⟨d, hd, hda⟩ : ∃ d ∈ cs, d.base ≤ a := by
          cases cs with
          | nil => simp at hlen
          | cons d ds =>
            refine ⟨d, List.mem_cons_self, ?_⟩
            by_contra hlt
            simp [hlt] at hlen
        have hout : c.contains a = false := by
          have := hc d hd
          simp only [Chunk.contains, Bool.and_eq_false_iff, decide_eq_false_iff_not]
          omega
        rw [hout]
        dsimp only
        rw [List.getElem?_cons_succ]
        cases cs[i]? with
        | none => rfl
        | some e => by_cases he : a < e.stop <;> simp [he]
    · have hnone : (cs.takeWhile fun c => c.base ≤ a).length = 0 := by
        cases cs with
        | nil => rfl
        | cons d ds =>
          have := hc d List.mem_cons_self
          rw [List.takeWhile_cons_of_neg (by simp; omega)]
          rfl
      rw [List.takeWhile_cons_of_neg (by simpa using hbase), hnone]
      simp [Chunk.contains, hbase]

/-- The first chunk with an address, by going through all of them. -/
def chunkAt? (h : Arena) (a : Nat) : Option Chunk := h.chunks.toList.find? fun c => c.contains a

/-- Searching for a chunk and going through all of them come to the same one. -/
theorem WellFormed.chunkOf?_eq (hw : h.WellFormed) (a : Nat) : h.chunkOf? a = h.chunkAt? a := by
  rw [chunkOf?, hw.chunkIndex?_eq, chunkAt?]
  simp only [← Array.getElem?_toList]
  exact bind_findIdx?_getElem? ..

/-- The chunk at an address is the one that has it. -/
theorem chunkAt?_eq_some (hw : h.WellFormed) :
    h.chunkAt? a = some c ↔ c ∈ h.chunks.toList ∧ c.contains a = true := by
  constructor
  · intro hc
    rw [chunkAt?] at hc
    have hca := List.find?_some hc
    exact ⟨List.mem_of_find?_eq_some hc, hca⟩
  · rintro ⟨hc, hca⟩
    cases hfind : h.chunkAt? a with
    | none => exact absurd hca (List.find?_eq_none.mp hfind c hc)
    | some d =>
      rw [chunkAt?] at hfind
      have hda := List.find?_some hfind
      rw [hw.eq_of_contains hc (List.mem_of_find?_eq_some hfind) hca hda]

/-- The byte at an address, zero where there is no memory. -/
def byte (h : Arena) (a : Nat) : UInt8 :=
  match h.chunkAt? a with
  | some c => c.byte a
  | none => 0

/-- A byte of the arena is that of the chunk with its address. -/
theorem byte_eq (hw : h.WellFormed) (hc : c ∈ h.chunks.toList) (hca : c.contains a = true) :
    h.byte a = c.byte a := by
  rw [byte, (chunkAt?_eq_some hw).mpr ⟨hc, hca⟩]

/-! ## Reading -/

/-- What is read are the bytes of the arena. -/
theorem read?_eq (hw : h.WellFormed) {b : ByteArray} (hread : h.read? a len = some b) :
    b.size = len ∧ ∀ k < len, Bytes.get b k = h.byte (a + k) := by
  rw [read?, hw.chunkOf?_eq] at hread
  obtain ⟨c, hfind, hc⟩ := Option.bind_eq_some_iff.mp hread
  obtain ⟨hmem, hcontains⟩ := (chunkAt?_eq_some hw).mp hfind
  have hbase := (Chunk.contains_iff.mp hcontains).1
  obtain ⟨hsize, hin, hbytes⟩ := Chunk.read?_eq_some hc hbase
  refine ⟨hsize, ?_⟩
  intro k hk
  rw [hbytes k hk, byte_eq hw hmem (Chunk.contains_iff.mpr (by omega))]

/-- A single byte can be read wherever there is a chunk. -/
theorem read?_one (hw : h.WellFormed) (x : Nat) :
    h.read? x 1 = (h.chunkAt? x).map fun _ => Bytes.ofList [h.byte x] := by
  cases hx : h.chunkAt? x with
  | none => rw [read?, hw.chunkOf?_eq, hx, Option.map_none]; rfl
  | some c =>
    obtain ⟨-, hcx⟩ := (chunkAt?_eq_some hw).mp hx
    rw [Chunk.contains_iff] at hcx
    have hin : c.hasBytes x 1 = true := by
      rw [Chunk.hasBytes, decide_eq_true_eq]
      omega
    obtain ⟨b, hread⟩ : ∃ b, h.read? x 1 = some b := by
      rw [read?, hw.chunkOf?_eq, hx]
      exact ⟨_, if_pos hin⟩
    obtain ⟨hsize, hbytes⟩ := read?_eq hw hread
    rw [hread, Option.map_some]
    refine congrArg some (Bytes.ext_get hsize fun i hi => ?_)
    obtain rfl : i = 0 := by omega
    rw [hbytes 0 Nat.one_pos, Bytes.get_ofList]
    rfl

/-- A number that can be read is the one that the bytes spell. -/
theorem readValue?_eq (hw : h.WellFormed) {n : Nat}
    (hread : Memory.readValue? h a len = some n) : n = Bytes.number h.byte a len := by
  obtain ⟨b, hb, rfl⟩ := Option.map_eq_some_iff.mp hread
  rw [Bytes.valueAt_eq_number]
  apply Bytes.number_congr
  intro k hk
  rw [Nat.zero_add]
  exact (read?_eq hw hb).2 k hk

/-- The `n` bytes at an address have been allocated and lie in one chunk. -/
def Holds (h : Arena) (a n : Nat) : Prop :=
  ∃ c ∈ h.chunks.toList, c.base ≤ a ∧ a + n ≤ c.base + c.top

/-- An arena holds every part of what it holds. -/
theorem Holds.part (hh : h.Holds a len) {b n : Nat} (hle : a ≤ b) (hstop : b + n ≤ a + len) :
    h.Holds b n := by
  obtain ⟨c, hc, hbase, htop⟩ := hh
  exact ⟨c, hc, by omega, by omega⟩

/-- Allocated memory can be read. -/
theorem Holds.read? (hw : h.WellFormed) (hh : h.Holds a len) (hlen : 0 < len) :
    ∃ b, h.read? a len = some b ∧ b.size = len ∧ ∀ k < len, Bytes.get b k = h.byte (a + k) := by
  obtain ⟨c, hc, hbase, htop⟩ := hh
  have hsize := hw.top_le c hc
  have hfind := (chunkAt?_eq_some hw).mpr ⟨hc, Chunk.contains_iff.mpr ⟨hbase, by omega⟩⟩
  have hin : c.hasBytes a len = true := by
    rw [Chunk.hasBytes, decide_eq_true_eq]
    omega
  have hread : h.read? a len = some (Bytes.resize (c.bytes.extract (a - c.base) (a - c.base + len))
      len) := by
    rw [Arena.read?, hw.chunkOf?_eq, hfind]
    change c.read? a len = _
    rw [Chunk.read?, if_pos hin]
  exact ⟨_, hread, read?_eq hw hread⟩

/-- Numbers in held memory can be read. -/
theorem Holds.readValue? (hw : h.WellFormed) (hh : h.Holds a len) (hlen : 0 < len) :
    Memory.readValue? h a len = some (Bytes.number h.byte a len) := by
  obtain ⟨b, hb, -⟩ := hh.read? hw hlen
  have hvalue : Memory.readValue? h a len = some (Bytes.valueAt b 0 len) :=
    congrArg (Option.map fun b => Bytes.valueAt b 0 len) hb
  rw [hvalue, readValue?_eq hw hvalue]

/-- The addresses of the memory are heap words, and null is none of them. -/
def Addressable (h : Arena) : Prop := ∀ c ∈ h.chunks.toList, c.base ≠ 0 ∧ c.stop ≤ 2 ^ 64

instance (h : Arena) : Decidable h.Addressable :=
  inferInstanceAs (Decidable (∀ c ∈ h.chunks.toList, c.base ≠ 0 ∧ c.stop ≤ 2 ^ 64))

/-- Held memory is not at zero, and it ends within the addresses of a machine. -/
theorem Holds.addressable (hw : h.WellFormed) (ha : h.Addressable) (hh : h.Holds a len) :
    a ≠ 0 ∧ a + len ≤ 2 ^ 64 := by
  obtain ⟨c, hc, hbase, htop⟩ := hh
  obtain ⟨hzero, hstop⟩ := ha c hc
  have hsize := hw.top_le c hc
  rw [Chunk.stop] at hstop
  omega

/-! ## Writing -/

/-- Changing the element that a search finds, where at most one can be found. -/
theorem modify_findIdx {α : Type} {p : α → Bool} {f : α → α} {xs : List α}
    (hunique : xs.Pairwise fun x y => ¬ (p x = true ∧ p y = true)) :
    (match xs.findIdx? p with
      | some i => xs.modify i f
      | none => xs) = xs.map fun x => if p x then f x else x := by
  induction xs with
  | nil => rfl
  | cons x xs ih =>
    obtain ⟨hx, hxs⟩ := List.pairwise_cons.mp hunique
    rw [List.findIdx?_cons, List.map_cons]
    cases hpx : p x with
    | true =>
      -- No other element can be found, so the rest stays as it is.
      have hrest : (xs.map fun y => if p y then f y else y) = xs.map id := by
        apply List.map_congr_left
        intro y hy
        rw [if_neg fun hpy => hx y hy ⟨hpx, hpy⟩]
        rfl
      rw [hrest, List.map_id]
      rfl
    | false =>
      rw [← ih hxs]
      cases hfind : xs.findIdx? p with
      | none => rfl
      | some i => rfl

/-- A write only touches the chunk with its address. -/
theorem toList_write (hw : h.WellFormed) (a : Nat) (bytes : ByteArray) :
    (h.write a bytes).chunks.toList =
      h.chunks.toList.map fun c => if c.contains a then c.write a bytes else c := by
  have hunique : h.chunks.toList.Pairwise fun c d =>
      ¬ (c.contains a = true ∧ d.contains a = true) := by
    apply hw.ordered.imp
    rintro c d hcd ⟨hca, hda⟩
    rw [Chunk.contains_iff] at hca hda
    rw [Chunk.stop] at hcd
    omega
  rw [← modify_findIdx hunique, ← hw.chunkIndex?_eq, write]
  cases h.chunkIndex? a with
  | none => rfl
  | some i => exact Array.toList_modify ..

/-- Writing changes the contents of the chunk with the address only. -/
theorem chunkAt?_write (hw : h.WellFormed) (a : Nat) (bytes : ByteArray) (x : Nat) :
    (h.write a bytes).chunkAt? x =
      (h.chunkAt? x).map fun c => if c.contains a then c.write a bytes else c := by
  have hsame : ((fun c : Chunk => c.contains x) ∘ fun c : Chunk =>
      if c.contains a then c.write a bytes else c) = fun c => c.contains x := by
    funext c
    change (if c.contains a then c.write a bytes else c).contains x = c.contains x
    split
    · rw [Bool.eq_iff_iff, Chunk.contains_iff, Chunk.contains_iff, Chunk.write_base,
        Chunk.write_size]
    · rfl
  rw [chunkAt?, toList_write hw, List.find?_map, hsame]
  rfl

/-- Only the chunks can be different after a write. -/
theorem write_eq (h : Arena) (a : Nat) (bytes : ByteArray) :
    h.write a bytes = { h with chunks := (h.write a bytes).chunks } := by
  unfold write
  split <;> rfl

/-- Writing keeps the place of the next chunk. -/
theorem write_fields (h : Arena) (a : Nat) (bytes : ByteArray) :
    (h.write a bytes).nextBase = h.nextBase := by
  rw [write_eq]

/-- The chunks of an arena after a write. -/
theorem mem_write (hw : h.WellFormed) {bytes : ByteArray} {d : Chunk}
    (hd : d ∈ (h.write a bytes).chunks.toList) :
    ∃ c ∈ h.chunks.toList, d.base = c.base ∧ d.size = c.size ∧ d.top = c.top := by
  rw [toList_write hw] at hd
  obtain ⟨c, hc, rfl⟩ := List.mem_map.mp hd
  refine ⟨c, hc, ?_⟩
  split
  · exact ⟨Chunk.write_base .., Chunk.write_size .., Chunk.write_top ..⟩
  · exact ⟨rfl, rfl, rfl⟩

/-- Writing keeps an arena well formed. -/
theorem WellFormed.write (hw : h.WellFormed) (a : Nat) (bytes : ByteArray) :
    (h.write a bytes).WellFormed where
  ordered := by
    rw [toList_write hw, List.pairwise_map]
    apply hw.ordered.imp
    intro c d hcd
    rw [Chunk.stop] at hcd ⊢
    split <;> split <;> simpa only [Chunk.write_base, Chunk.write_size] using hcd
  below d hd := by
    obtain ⟨c, hc, hbase, hsize, -⟩ := mem_write hw hd
    rw [Chunk.stop, hbase, hsize, write_fields]
    exact hw.below c hc
  top_le d hd := by
    obtain ⟨c, hc, -, hsize, htop⟩ := mem_write hw hd
    rw [hsize, htop]
    exact hw.top_le c hc

/-- Writing keeps what the arena holds. -/
theorem Holds.write (hw : h.WellFormed) (hh : h.Holds a len) (p : Nat) (bytes : ByteArray) :
    (h.write p bytes).Holds a len := by
  obtain ⟨c, hc, hbase, htop⟩ := hh
  refine ⟨if c.contains p then c.write p bytes else c, ?_, ?_⟩
  · rw [toList_write hw]
    exact List.mem_map.mpr ⟨c, hc, rfl⟩
  · split
    · rw [Chunk.write_base, Chunk.write_top]
      exact ⟨hbase, htop⟩
    · exact ⟨hbase, htop⟩

/-- Allocated memory can be written. -/
theorem Holds.canWrite (hw : h.WellFormed) (hh : h.Holds a len) (hlen : 0 < len) :
    h.canWrite a len = true := by
  obtain ⟨c, hc, hbase, htop⟩ := hh
  have hsize := hw.top_le c hc
  have hfind := (chunkAt?_eq_some hw).mpr ⟨hc, Chunk.contains_iff.mpr ⟨hbase, by omega⟩⟩
  rw [Arena.canWrite, hw.chunkOf?_eq, hfind]
  exact decide_eq_true (by omega)

/-- Writing keeps the places of the memory. -/
theorem Addressable.write (ha : h.Addressable) (hw : h.WellFormed) (a : Nat)
    (bytes : ByteArray) : (h.write a bytes).Addressable := by
  intro d hd
  obtain ⟨c, hc, hbase, hsize, -⟩ := mem_write hw hd
  rw [Chunk.stop, hbase, hsize]
  exact ha c hc

/-- **A write** changes the bytes it names and no other. -/
theorem byte_write (hw : h.WellFormed) {bytes : ByteArray}
    (hcan : h.canWrite a bytes.size = true) (x : Nat) : (h.write a bytes).byte x =
      if a ≤ x ∧ x < a + bytes.size then Bytes.get bytes (x - a) else h.byte x := by
  rw [canWrite, hw.chunkOf?_eq] at hcan
  split at hcan
  · rename_i c hfind
    obtain ⟨hc, hca⟩ := (chunkAt?_eq_some hw).mp hfind
    have hin := Chunk.contains_iff.mp hca
    have hfits : a - c.base + bytes.size ≤ c.size := of_decide_eq_true hcan
    rw [byte, byte, chunkAt?_write hw]
    cases hx : h.chunkAt? x with
    | none =>
      have hout : ¬ (a ≤ x ∧ x < a + bytes.size) := by
        intro hx'
        rw [(chunkAt?_eq_some hw).mpr ⟨hc, Chunk.contains_iff.mpr (by omega)⟩] at hx
        cases hx
      rw [if_neg hout]
      rfl
    | some d =>
      obtain ⟨hd, hdx⟩ := (chunkAt?_eq_some hw).mp hx
      change (if d.contains a then d.write a bytes else d).byte x =
        if a ≤ x ∧ x < a + bytes.size then Bytes.get bytes (x - a) else d.byte x
      -- Both addresses are in one chunk, or the write is in another one and reaches no further.
      by_cases hda : d.contains a = true
      · obtain rfl := hw.eq_of_contains hc hd hca hda
        rw [if_pos hda, Chunk.byte_write hcan hin.1 (Chunk.contains_iff.mp hdx).1]
      · have hout : ¬ (a ≤ x ∧ x < a + bytes.size) := by
          intro hx'
          apply hda
          rw [← hw.eq_of_contains hc hd (Chunk.contains_iff.mpr (by omega)) hdx]
          exact hca
        rw [if_neg hda, if_neg hout]
  · cases hcan

/-- The bytes of a number. -/
abbrev numeral (n value : Nat) : ByteArray := Bytes.ofList (Bytes.ofNat n value)

/-- A number in `n` bytes takes up `n` bytes. -/
theorem size_numeral (n value : Nat) : (numeral n value).size = n := by
  rw [numeral, Bytes.size_ofList, Bytes.length_ofNat]

/-- A number that is written can be read back. -/
theorem number_write (hw : h.WellFormed) (hcan : h.canWrite a len = true) (value : Nat) :
    Bytes.number (h.write a (numeral len value)).byte a len = value % 256 ^ len := by
  apply Bytes.number_of_bytes
  intro k hk
  rw [byte_write hw (by rwa [size_numeral]), size_numeral, if_pos (by omega),
    Bytes.get_ofList_ofNat, if_pos (by omega), Nat.add_sub_cancel_left]

/-- Writing a number keeps the bytes on both sides of it. -/
theorem byte_write_of_apart (hw : h.WellFormed) (hcan : h.canWrite a len = true) (value : Nat)
    {x : Nat} (hx : x < a ∨ a + len ≤ x) : (h.write a (numeral len value)).byte x = h.byte x := by
  rw [byte_write hw (by rwa [size_numeral]), size_numeral, if_neg (by omega)]

end Arena

end HeapImage
