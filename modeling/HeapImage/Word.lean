import HeapImage.Alignment

/-!
# Bits of heap words

A heap word is a row of 64 bits, numbered from the least significant one on.

* `Word.bit`: whether a bit is set, the view the others are stated in.
* `Word.mask`, `Word.maskFrom`: the word with one bit, and the word with all bits from one on.
* `Word.trailingZeros`, `Word.popCount`: the number of the first set bit, and of all set bits.
-/

namespace HeapImage.Word

/-- Bit `k` of a word. -/
def bit (w : UInt64) (k : Nat) : Bool := w.toNat.testBit k

/-- The word whose only set bit is `k`. -/
def mask (k : Nat) : UInt64 := 1 <<< UInt64.ofNat k

/-- The word whose set bits are `k` and those above it. -/
def maskFrom (k : Nat) : UInt64 := ~~~0 <<< UInt64.ofNat k

/-- Number of clear bits below the first set one. -/
def trailingZeros (w : UInt64) : Nat := w.toBitVec.ctz.toNat

/-- Number of set bits. -/
def popCount (w : UInt64) : Nat := w.toBitVec.cpop.toNat

variable {w v : UInt64} {j k : Nat}

/-- A word has no bit beyond its last one. -/
theorem bit_eq_false_of_le (h : 64 ≤ k) : bit w k = false :=
  Nat.testBit_lt_two_pow (Nat.lt_of_lt_of_le w.toNat_lt (Nat.pow_le_pow_right (by decide) h))

/-- A word has no set bit from 64 on. -/
theorem lt_of_bit (h : bit w k = true) : k < 64 := by
  rcases Nat.lt_or_ge k 64 with hk | hk
  · exact hk
  · rw [bit_eq_false_of_le hk] at h
    cases h

@[simp] theorem bit_zero (k : Nat) : bit 0 k = false := Nat.zero_testBit k

/-- Words with the same bits are the same. -/
theorem ext_bit (h : ∀ k < 64, bit w k = bit v k) : w = v := by
  refine UInt64.toNat_inj.mp (Nat.eq_of_testBit_eq fun k => ?_)
  rcases Nat.lt_or_ge k 64 with hk | hk
  · exact h k hk
  · exact (bit_eq_false_of_le hk).trans (bit_eq_false_of_le hk).symm

@[simp] theorem bit_or (w v : UInt64) (k : Nat) : bit (w ||| v) k = (bit w k || bit v k) := by
  rw [bit, UInt64.toNat_or, Nat.testBit_or]
  rfl

@[simp] theorem bit_and (w v : UInt64) (k : Nat) : bit (w &&& v) k = (bit w k && bit v k) := by
  rw [bit, UInt64.toNat_and, Nat.testBit_and]
  rfl

/-- The bits of a complement are the other way round, as far as the word goes. -/
theorem bit_not (w : UInt64) (hk : k < 64) : bit (~~~w) k = !bit w k := by
  change (~~~w).toBitVec.getLsbD k = !w.toBitVec.getLsbD k
  rw [UInt64.toBitVec_not, BitVec.getLsbD_not, decide_eq_true hk, Bool.true_and]

/-- Shifting to the left moves every bit up; clear ones come in at the bottom. -/
theorem bit_shiftLeft (w : UInt64) (hj : j < 64) (hk : k < 64) :
    bit (w <<< UInt64.ofNat j) k = (decide (j ≤ k) && bit w (k - j)) := by
  have hmod : (UInt64.ofNat j).toNat % 64 = j := by
    rw [UInt64.toNat_ofNat']
    omega
  rw [bit, UInt64.toNat_shiftLeft, hmod, Nat.testBit_mod_two_pow, decide_eq_true hk,
    Bool.true_and, Nat.testBit_shiftLeft]
  rfl

/-- Shifting to the right moves every bit down. -/
theorem bit_shiftRight (w : UInt64) (hj : j < 64) (k : Nat) :
    bit (w >>> UInt64.ofNat j) k = bit w (j + k) := by
  have hmod : (UInt64.ofNat j).toNat % 64 = j := by
    rw [UInt64.toNat_ofNat']
    omega
  rw [bit, UInt64.toNat_shiftRight, hmod, Nat.testBit_shiftRight]
  rfl

/-- A mask has its one bit set. -/
theorem bit_mask (hj : j < 64) (hk : k < 64) : bit (mask j) k = decide (j = k) := by
  rw [mask, bit_shiftLeft _ hj hk]
  change (decide (j ≤ k) && Nat.testBit (2 ^ 0) (k - j)) = _
  rw [Nat.testBit_two_pow, ← Bool.decide_and]
  exact decide_eq_decide.mpr (by omega)

/-- A mask has all bits from its first one on set. -/
theorem bit_maskFrom (hj : j < 64) (hk : k < 64) : bit (maskFrom j) k = decide (j ≤ k) := by
  have hlt : k - j < 64 := by omega
  rw [maskFrom, bit_shiftLeft _ hj hk, bit_not _ hlt, bit_zero, Bool.not_false, Bool.and_true]

/-- A word without set bits is zero. -/
theorem eq_zero_iff : w = 0 ↔ ∀ k < 64, bit w k = false := by
  refine ⟨fun h k _ => h ▸ bit_zero k, fun h => ext_bit fun k hk => ?_⟩
  rw [h k hk, bit_zero]

/-- Bit `k` is set if something is left once all other bits are masked out. -/
theorem and_mask_ne_zero (w : UInt64) (hk : k < 64) : (w &&& mask k != 0) = bit w k := by
  cases hbit : bit w k with
  | false =>
    rw [bne_eq_false_iff_eq, eq_zero_iff]
    intro j hj
    rw [bit_and, bit_mask hk hj]
    by_cases hjk : k = j
    · rw [← hjk, hbit, Bool.false_and]
    · rw [decide_eq_false hjk, Bool.and_false]
  | true =>
    rw [bne_iff_ne]
    intro hzero
    have hclear := eq_zero_iff.mp hzero k hk
    rw [bit_and, bit_mask hk hk, decide_eq_true rfl, Bool.and_true, hbit] at hclear
    cases hclear

/-! ### Counting -/

/-- In a word that is not zero the first set bit has the number of the clear bits below it. -/
theorem bit_trailingZeros (h : w ≠ 0) : bit w (trailingZeros w) = true := by
  refine BitVec.getLsbD_true_ctz_of_ne_zero fun hzero => h ?_
  exact UInt64.toBitVec_inj.mp hzero

/-- All bits before the first one that is set are clear. -/
theorem bit_eq_false_of_lt_trailingZeros (h : k < trailingZeros w) : bit w k = false :=
  BitVec.getLsbD_false_of_lt_ctz h

/-- The set bits are counted one by one. -/
theorem popCount_eq (w : UInt64) : popCount w = (List.range 64).countP (bit w) := by
  have hrec : ∀ n acc, w.toBitVec.cpopNatRec n acc = acc + (List.range n).countP (bit w) := by
    intro n
    induction n with
    | zero => exact fun acc => rfl
    | succ n ih =>
      intro acc
      rw [BitVec.cpopNatRec_succ, ih, List.range_succ, List.countP_append, List.countP_singleton,
        Nat.add_assoc, Nat.add_comm (Bool.toNat _)]
      change acc + (_ + (bit w n).toNat) = _
      cases bit w n <;> rfl
  rw [popCount, BitVec.toNat_cpop, hrec, Nat.zero_add]

end HeapImage.Word
