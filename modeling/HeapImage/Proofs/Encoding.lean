import HeapImage.Load.Patch
import HeapImage.Proofs.Rounding
import HeapImage.Proofs.Steps

/-! # Stored references

An address that can be stored is what its stored value stands for, and only null is stored as zero.

* `ReferenceEncoding.decode_encode`: storing an address and reading it back.
* `ReferenceEncoding.encode_lt`, `ReferenceEncoding.encode_ne_zero`: stored values fit their slots,
  and differ from null.
* `checkEncodings_eq_ok`: encodings that a load takes. -/

namespace HeapImage.ReferenceEncoding

/-- When an address has a narrow form, and which one. -/
theorem encode_narrow_eq_ok {base : UInt64} {shift : UInt32} {a value : Nat} (ha : a ≠ 0) :
    (narrow base shift).encode a = .ok value ↔
      base.toNat ≤ a ∧ a = base.toNat + value * 2 ^ shift.toNat ∧ value ≠ 0 ∧
        value ≤ maxNarrow := by
  have hunit : 0 < 2 ^ shift.toNat := Nat.two_pow_pos _
  have hdiv := Nat.div_add_mod (a - base.toNat) (2 ^ shift.toNat)
  rw [encode, if_neg ha, Nat.one_shiftLeft]
  constructor
  · intro h
    split at h
    · cases h
    · rename_i hbase
      dsimp only at h
      split at h
      · cases h
      · rename_i hmod
        split at h
        · cases h
        · rename_i hzero
          split at h
          · cases h
          · rename_i hmax
            cases h
            -- What is left over is nothing, so the quotient says it all.
            rw [Decidable.not_not.mp hmod, Nat.add_zero, Nat.mul_comm] at hdiv
            exact ⟨Nat.not_lt.mp hbase, by omega, hzero, Nat.not_lt.mp hmax⟩
  · rintro ⟨hbase, hsum, hzero, hmax⟩
    have hoffset : a - base.toNat = value * 2 ^ shift.toNat := by omega
    dsimp only
    rw [hoffset, Nat.mul_mod_left, Nat.mul_div_cancel _ hunit, if_neg (Nat.not_lt.mpr hbase),
      if_neg (Decidable.not_not.mpr rfl), if_neg hzero, if_neg (Nat.not_lt.mpr hmax)]

/-- Null is stored as zero in every encoding. -/
theorem encode_zero (e : ReferenceEncoding) : e.encode 0 = .ok 0 := by
  cases e <;> rfl

/-- Addresses other than null are not stored as null. -/
theorem encode_ne_zero {e : ReferenceEncoding} {a value : Nat} (ha : a ≠ 0)
    (h : e.encode a = .ok value) : value ≠ 0 := by
  cases e with
  | wide =>
    cases h
    exact ha
  | narrow base shift => exact ((encode_narrow_eq_ok ha).mp h).2.2.1

/-- A stored value fits its slot. -/
theorem encode_lt {e : ReferenceEncoding} {a value : Nat} (ha : a < 2 ^ 64)
    (h : e.encode a = .ok value) : value < 256 ^ e.slotSize := by
  cases e with
  | wide =>
    cases h
    exact ha
  | narrow base shift =>
    by_cases hzero : a = 0
    · rw [hzero, encode_zero] at h
      cases h
      exact Nat.pow_pos (by decide)
    · have hmax := ((encode_narrow_eq_ok hzero).mp h).2.2.2
      rw [maxNarrow] at hmax
      rw [slotSize]
      omega

/-- **A stored address is read back.** -/
theorem decode_encode {e : ReferenceEncoding} {a value : Nat} (ha : a < 2 ^ 64)
    (h : e.encode a = .ok value) : e.decode value = a := by
  cases e with
  | wide =>
    cases h
    rfl
  | narrow base shift =>
    by_cases hzero : a = 0
    · rw [hzero, encode_zero] at h
      cases h
      rw [decode_zero, hzero]
    · obtain ⟨-, hsum, hvalue, -⟩ := (encode_narrow_eq_ok hzero).mp h
      rw [decode, if_neg hvalue, Nat.shiftLeft_eq, Nat.mod_eq_of_lt (by omega), ← hsum]

/-- An address is accepted exactly if it can be stored. -/
theorem require_eq_ok {e : ReferenceEncoding} {a value : Nat} :
    e.require a = .ok value ↔ e.encode a = .ok value := by
  rw [require]
  split
  · rename_i v hv
    rw [hv]
    simp
  · rename_i fault hfault
    rw [hfault]
    simp

/-- The check passes exactly the encodings with a supported shift. -/
theorem check_eq_ok {e : ReferenceEncoding} : e.check = .ok () ↔ e.shift ≤ maxShift := by
  rw [check, isSupported]
  split
  · rename_i hshift
    exact iff_of_true rfl (of_decide_eq_true hshift)
  · rename_i hshift
    refine iff_of_false ?_ fun hle => hshift (decide_eq_true hle)
    rintro ⟨⟩

end HeapImage.ReferenceEncoding

namespace HeapImage

/-- Encodings that a load takes have slots of one size, and supported shifts. -/
theorem checkEncodings_eq_ok {dump runtime : ReferenceEncoding} {u : Unit}
    (h : checkEncodings dump runtime = .ok u) : dump.slotSize = runtime.slotSize ∧
      dump.shift ≤ ReferenceEncoding.maxShift ∧ runtime.shift ≤ ReferenceEncoding.maxShift := by
  rw [checkEncodings, Except.guard_eq_ok, Decidable.not_not] at h
  obtain ⟨hslot, h⟩ := h
  obtain ⟨⟨⟩, hdump, hruntime⟩ := Except.bind_eq_ok.mp h
  exact ⟨hslot, ReferenceEncoding.check_eq_ok.mp hdump, ReferenceEncoding.check_eq_ok.mp hruntime⟩

end HeapImage
