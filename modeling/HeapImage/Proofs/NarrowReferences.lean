import HeapImage.Proofs.CheckedResults
import HeapImage.Proofs.Encoding

/-! # Narrow references

A narrow slot counts units from a base address. That reaches neither the base itself, since zero
stands for null, nor an address between two units, nor one beyond what the slot can count or the end
of memory. On all other addresses storing and reading are inverse to each other.

* `ReferenceEncoding.exists_encode_narrow`: which addresses have a narrow form.
* `ReferenceEncoding.decode_words_eq_ok`: which values stand for an address, and for which one.
* `ReferenceEncoding.narrow_partialBijection`: the two together. -/

namespace HeapImage.ReferenceEncoding

variable {base address : UInt64} {shift : UInt32} {a raw : Nat}

/-- Null has a narrow form, and so has every address at some units above the base that a slot can
count, up to the highest address. -/
theorem exists_encode_narrow :
    (∃ value, (narrow base shift).encode address.toNat = .ok value) ↔
      address = 0 ∨ ∃ highest, (narrow base shift).maxAddress? = some highest ∧ base < address ∧
        address.toNat ≤ highest ∧ 2 ^ shift.toNat ∣ address.toNat - base.toNat := by
  have hunit : 0 < 2 ^ shift.toNat := Nat.two_pow_pos _
  have hword := address.toNat_lt
  by_cases hnull : address = 0
  · exact iff_of_true ⟨0, by rw [hnull]; exact encode_zero _⟩ (.inl hnull)
  have hne : address.toNat ≠ 0 := fun h => hnull (UInt64.toNat_inj.mp h)
  -- The highest address is the last one that the slot can count, or the end of memory before it.
  simp only [encode_narrow_eq_ok hne, hnull, false_or, maxAddress?, Option.some.injEq,
    exists_eq_left', UInt64.lt_iff_toNat_lt, Nat.le_min, Nat.shiftLeft_eq]
  constructor
  · rintro ⟨value, -, hsum, hvalue, hmax⟩
    have hpos := Nat.mul_pos (Nat.pos_of_ne_zero hvalue) hunit
    have hle := Nat.mul_le_mul_right (2 ^ shift.toNat) hmax
    have hoffset : address.toNat - base.toNat = value * 2 ^ shift.toNat := by omega
    exact ⟨by omega, ⟨by omega, by omega⟩, hoffset ▸ Nat.dvd_mul_left ..⟩
  · rintro ⟨hbase, ⟨-, hreach⟩, value, hvalue⟩
    rw [Nat.mul_comm] at hvalue
    have hpos : 0 < value * 2 ^ shift.toNat := by omega
    have hle : value * 2 ^ shift.toNat ≤ maxNarrow * 2 ^ shift.toNat := by omega
    exact ⟨value, by omega, by omega, Nat.ne_of_gt (Nat.pos_of_mul_pos_right hpos),
      Nat.le_of_mul_le_mul_right hle hunit⟩

/-- A value other than null stands for the address as many units above the base, if there is one. -/
theorem decode_words_eq_ok (hshift : shift.toNat ≤ maxShift) (hne : raw ≠ 0) (hraw : raw < 2 ^ 32) :
    Checked.decode .words (narrow base shift) raw = .ok a ↔
      a = base.toNat + raw * 2 ^ shift.toNat ∧ a < 2 ^ 64 := by
  have hunit : 2 ^ shift.toNat ≤ 2 ^ 3 := Nat.pow_le_pow_right (by decide) hshift
  have hdistance : raw * 2 ^ shift.toNat < 0x10000000000000000 :=
    Nat.lt_of_le_of_lt (Nat.mul_le_mul (Nat.le_of_lt hraw) hunit) (by decide)
  rw [Checked.decode, if_neg hne, Nat.shiftLeft_eq, Nat.mod_eq_of_lt hdistance]
  constructor
  · intro h
    obtain ⟨hhas, rfl⟩ := Checked.has_of_add h
    exact ⟨rfl, hhas⟩
  · rintro ⟨rfl, hlt⟩
    exact AddressSpace.add_eq_ok hlt

/-- **Storing and reading narrow references.** With a supported shift, exactly null and the
addresses above the base that are at most the highest one and a whole number of units away can be
stored. What is stored fits half a word, is zero for null only, and is read back, with all sums in
memory. And a value other than null whose address can be worked out is what its address is stored
as. -/
theorem narrow_partialBijection (base : UInt64) {shift : UInt32} (hshift : shift.toNat ≤ maxShift) :
    (∀ address : UInt64,
      ((∃ value, (narrow base shift).encode address.toNat = .ok value) ↔
        address = 0 ∨ ∃ highest, (narrow base shift).maxAddress? = some highest ∧ base < address ∧
          address.toNat ≤ highest ∧ 2 ^ shift.toNat ∣ address.toNat - base.toNat) ∧
      ∀ value, (narrow base shift).encode address.toNat = .ok value →
        value < 2 ^ 32 ∧ (value = 0 ↔ address = 0) ∧
          Checked.decode .words (narrow base shift) value = .ok address.toNat ∧
          (narrow base shift).decode value = address.toNat) ∧
    ∀ raw, 0 < raw → raw < 2 ^ 32 → ∀ a, Checked.decode .words (narrow base shift) raw = .ok a →
      (narrow base shift).encode a = .ok raw := by
  constructor
  · refine fun address => ⟨exists_encode_narrow, fun value hvalue => ?_⟩
    refine ⟨encode_lt address.toNat_lt hvalue, ?_⟩
    have hdecode := decode_encode address.toNat_lt hvalue
    -- Null is stored as zero by a rule of its own.
    by_cases hnull : address = 0
    · subst hnull
      obtain rfl : 0 = value := Except.ok.inj hvalue
      exact ⟨Iff.rfl.trans (by decide), rfl, rfl⟩
    · have hne : address.toNat ≠ 0 := fun h => hnull (UInt64.toNat_inj.mp h)
      obtain ⟨-, hsum, hzero, hmax⟩ := (encode_narrow_eq_ok hne).mp hvalue
      refine ⟨iff_of_false hzero hnull, ?_, hdecode⟩
      exact (decode_words_eq_ok hshift hzero (Nat.lt_succ_of_le hmax)).mpr ⟨hsum, address.toNat_lt⟩
  · intro raw hpos hraw a ha
    obtain ⟨rfl, -⟩ := (decode_words_eq_ok hshift (Nat.ne_of_gt hpos) hraw).mp ha
    have hunits := Nat.mul_pos hpos (Nat.two_pow_pos shift.toNat)
    exact (encode_narrow_eq_ok (by omega)).mpr
      ⟨by omega, rfl, Nat.ne_of_gt hpos, Nat.le_of_lt_succ hraw⟩

/-- With a base close to the end of memory, the last whole unit can be stored and the base cannot;
a value that leads beyond the end stands for no address. -/
theorem narrow_partialBijection_last :
    (3 : UInt32).toNat ≤ maxShift ∧
      (∃ value, (narrow 0xffffffffffffff04 3).encode 0xfffffffffffffffc = .ok value) ∧
      (¬ ∃ value, (narrow 0xffffffffffffff04 3).encode 0xffffffffffffff04 = .ok value) ∧
      Checked.decode .words (narrow 0xffffffffffffff04 3) 0x1f = .ok 0xfffffffffffffffc ∧
      (narrow 0xffffffffffffff04 3).encode 0xfffffffffffffffc = .ok 0x1f ∧
      Checked.decode .words (narrow 0xffffffffffffff04 3) 0x20 = .error .addition := by
  have hshift : (3 : UInt32).toNat ≤ maxShift := by decide
  have hlast : Checked.decode .words (narrow 0xffffffffffffff04 3) 0x1f =
      .ok 0xfffffffffffffffc := rfl
  obtain ⟨hstored, hread⟩ := narrow_partialBijection 0xffffffffffffff04 hshift
  refine ⟨hshift, (hstored 0xfffffffffffffffc).1.mpr (.inr ⟨0xffffffffffffffff, rfl, ?_⟩), ?_,
    hlast, hread 0x1f (by decide) (by decide) _ hlast, rfl⟩
  · decide
  · rw [show 0xffffffffffffff04 = (0xffffffffffffff04 : UInt64).toNat from rfl,
      (hstored 0xffffffffffffff04).1]
    rintro (h | ⟨_, -, h, -⟩)
    · exact absurd h (by decide)
    · exact absurd h (by decide)

end HeapImage.ReferenceEncoding
