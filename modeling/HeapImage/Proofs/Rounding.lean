import HeapImage.Dump.Options
import Mathlib.Algebra.Group.Nat.Defs

/-! # Rounding to a power of two

For an alignment that is a power of two, rounding goes to the nearest multiple below or above.

* `alignUp_eq`, `alignDown_eq`: rounding by division.
* `dvd_alignUp`, `alignUp_le`, `alignUp_lt`: the least multiple that is not below.
* `dvd_alignDown`, `alignDown_sub`: the greatest multiple that is not above, and what rounding down
  leaves of a distance. -/

namespace HeapImage

/-- The rest of a power of two is the remainder. -/
theorem alignRest_two_pow (v k : Nat) : alignRest v (2 ^ k) = v % 2 ^ k := by
  simp [alignRest, Nat.and_two_pow_sub_one_eq_mod]

/-- Rounding down to a power of two is a division. -/
theorem alignDown_two_pow (v k : Nat) : alignDown v (2 ^ k) = 2 ^ k * (v / 2 ^ k) := by
  have h := Nat.div_add_mod v (2 ^ k)
  simp only [alignDown, alignRest_two_pow]
  omega

/-- Being aligned to a power of two is divisibility. -/
theorem isAligned_two_pow (v k : Nat) : isAligned v (2 ^ k) = true ↔ 2 ^ k ∣ v := by
  simp [isAligned, alignRest_two_pow, Nat.dvd_iff_mod_eq_zero]

/-- Rounding up to a power of two adds less than that power. -/
theorem alignUp_two_pow_lt (v k : Nat) : alignUp v (2 ^ k) < v + 2 ^ k := by
  have hk : 0 < 2 ^ k := Nat.two_pow_pos k
  have h := alignDown_le (v + (2 ^ k - 1)) (2 ^ k)
  simp only [alignUp]
  omega

/-- An alignment passes the test exactly if it is a power of two. -/
theorem isPowerOfTwo_iff {a : Nat} : isPowerOfTwo a = true ↔ ∃ k, a = 2 ^ k := by
  simp only [isPowerOfTwo, alignRest, Bool.and_eq_true, bne_iff_ne, beq_iff_eq]
  exact Nat.ne_zero_and_sub_one_eq_zero_iff_isPowerOfTwo

section

variable {a : Nat} (ha : ∃ k, a = 2 ^ k)

include ha

/-- A power of two is not zero. -/
theorem pos_of_two_pow : 0 < a := by
  obtain ⟨k, rfl⟩ := ha
  exact Nat.two_pow_pos k

/-- Rounding down is a division. -/
theorem alignDown_eq (v : Nat) : alignDown v a = a * (v / a) := by
  obtain ⟨k, rfl⟩ := ha
  exact alignDown_two_pow v k

/-- Rounding up is a division, too. -/
theorem alignUp_eq (v : Nat) : alignUp v a = a * ((v + (a - 1)) / a) := alignDown_eq ha _

/-- Being aligned is divisibility. -/
theorem isAligned_iff (v : Nat) : isAligned v a = true ↔ a ∣ v := by
  obtain ⟨k, rfl⟩ := ha
  exact isAligned_two_pow v k

/-- What is rounded down is a multiple. -/
theorem dvd_alignDown (v : Nat) : a ∣ alignDown v a := by
  rw [alignDown_eq ha]
  exact Nat.dvd_mul_right ..

/-- What is rounded up is a multiple. -/
theorem dvd_alignUp (v : Nat) : a ∣ alignUp v a := dvd_alignDown ha _

/-- Rounding up adds less than the alignment. -/
theorem alignUp_lt (v : Nat) : alignUp v a < v + a := by
  obtain ⟨k, rfl⟩ := ha
  exact alignUp_two_pow_lt v k

/-- Rounding down gives the greatest multiple that is not above. -/
theorem le_alignDown {m v : Nat} (hm : a ∣ m) (h : m ≤ v) : m ≤ alignDown v a := by
  have hpos := pos_of_two_pow ha
  obtain ⟨n, rfl⟩ := hm
  rw [alignDown_eq ha]
  apply Nat.mul_le_mul_left
  rwa [Nat.le_div_iff_mul_le hpos, Nat.mul_comm]

/-- Rounding up gives the least multiple that is not below. -/
theorem alignUp_le {m v : Nat} (hm : a ∣ m) (h : v ≤ m) : alignUp v a ≤ m := by
  have hlt := alignUp_lt ha v
  have hup := dvd_alignUp ha v
  obtain ⟨n, rfl⟩ := hm
  obtain ⟨q, hq⟩ := hup
  rw [hq] at hlt ⊢
  apply Nat.mul_le_mul_left
  have hlt' : a * q < a * (n + 1) := by
    rw [Nat.mul_add_one]
    omega
  exact Nat.le_of_lt_succ (Nat.lt_of_mul_lt_mul_left hlt')

/-- Rounding up past a multiple only rounds the rest. -/
theorem alignUp_add {m : Nat} (hm : a ∣ m) (v : Nat) : alignUp (m + v) a = m + alignUp v a := by
  have hpos := pos_of_two_pow ha
  obtain ⟨n, rfl⟩ := hm
  rw [alignUp_eq ha, alignUp_eq ha, Nat.add_assoc, Nat.mul_add_div hpos, Nat.mul_add]

/-- Rounding down what is left of a multiple takes away a distance that is rounded up. -/
theorem alignDown_sub {m v : Nat} (hm : a ∣ m) (h : v ≤ m) :
    alignDown (m - v) a = m - alignUp v a := by
  have hup := dvd_alignUp ha v
  have hle := alignUp_le ha hm h
  have hge := le_alignUp v a
  apply Nat.le_antisymm
  · have hsum : alignUp v a ≤ m - alignDown (m - v) a := by
      apply alignUp_le ha (Nat.dvd_sub hm (dvd_alignDown ha _))
      have := alignDown_le (m - v) a
      omega
    have := alignDown_le (m - v) a
    omega
  · exact le_alignDown ha (Nat.dvd_sub hm hup) (by omega)

/-- Two places lie between the same multiples exactly if rounding down does not tell them apart. -/
theorem alignDown_eq_alignDown_iff {v w : Nat} :
    alignDown v a = alignDown w a ↔ v / a = w / a := by
  have hpos := pos_of_two_pow ha
  rw [alignDown_eq ha, alignDown_eq ha]
  exact ⟨fun h => Nat.eq_of_mul_eq_mul_left hpos h, fun h => by rw [h]⟩

end

/-- A heap word is a power of two. -/
theorem wordSize_two_pow : ∃ k, wordSize = 2 ^ k := ⟨3, rfl⟩

/-- Objects end at word boundaries. -/
theorem dvd_alignUp_wordSize (v : Nat) : wordSize ∣ alignUp v wordSize :=
  dvd_alignUp wordSize_two_pow v

end HeapImage
