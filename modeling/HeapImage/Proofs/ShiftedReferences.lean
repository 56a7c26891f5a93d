import HeapImage.Proofs.CheckedResults
import HeapImage.Proofs.MovedReferences

/-! # References with a constant added to heap words

The constant for all references of an image is found and added in heap words: the distance between
the bases is read with a sign and may have wrapped around, sums wrap around, and only as many bytes
are kept as a slot has. What comes out is the general result all the same wherever there is one,
with null as the exception on either side.

* `Rebasing.delta_eq_words`, `Rebasing.shifted_eq_words`: the distance and the sum as heap words.
* `Rebasing.shifted_eq_general`: both ways to adjust a reference. -/

namespace HeapImage.Rebasing

variable {m : Rebasing} {raw value offset : Nat} {c : Int}

/-- A constant is added to heap words, and what does not fit a slot is dropped. -/
theorem shifted_eq_words (m : Rebasing) (c : Int) (raw : Nat) : m.shifted c raw =
    (UInt64.ofNat raw + UInt64.ofInt c).toNat % 256 ^ m.slotSize := by
  have hword : (UInt64.ofInt c).toNat = (c % 2 ^ 64).toNat % 2 ^ 64 := UInt64.toNat_ofNat'
  rw [shifted, Bytes.one_shiftLeft_bits, UInt64.toNat_add, UInt64.toNat_ofNat', hword, slotSize]
  cases m.runtime with
  | wide =>
    change (((raw : Int) + c) % (2 ^ 64 : Nat)).toNat = _ % 2 ^ 64
    omega
  | narrow base shift =>
    change (((raw : Int) + c) % (2 ^ 32 : Nat)).toNat = _ % 2 ^ 32
    omega

/-- The distance between two bases is their difference as heap words, read with a sign. -/
theorem delta_eq_words (hrequested : m.requested < 2 ^ 64) (hactual : m.actual < 2 ^ 64) :
    m.delta = (UInt64.ofNat m.actual - UInt64.ofNat m.requested).toInt64.toInt := by
  have hword : (UInt64.ofNat m.actual - UInt64.ofNat m.requested).toInt64.toInt =
      Int.bmod ((UInt64.ofNat m.actual - UInt64.ofNat m.requested).toNat : Int) (2 ^ 64) :=
    BitVec.toInt_eq_toNat_bmod _
  rw [delta, hword, UInt64.toNat_sub, UInt64.toNat_ofNat', UInt64.toNat_ofNat',
    Nat.mod_eq_of_lt hactual, Nat.mod_eq_of_lt hrequested, Int.bmod_def, Int.bmod_def]
  omega

/-- **One constant for all references.** If there is a constant for two encodings and the distance
between two bases, read with a sign and wrapped around where it has to be, then adding it to a
stored value and keeping the bytes of a slot gives what decoding the value, moving its address and
encoding it gives, wherever that comes to a result. The only values for which the two can differ are
null and those of an object that is moved to address zero. There they agree exactly if the bases
that are left out differ by a multiple of what a slot can count. -/
theorem shifted_eq_general (hrequested : m.requested < 2 ^ 64) (hactual : m.actual < 2 ^ 64)
    (hcheck : checkEncodings m.dump m.runtime = .ok ()) (hraw : raw < 256 ^ m.dump.slotSize)
    (hc : m.dump.shiftConstant? m.runtime
      (UInt64.ofNat m.actual - UInt64.ofNat m.requested).toInt64.toInt = some c)
    (hgeneral : Checked.general .words m offset raw = .ok (.ok value)) :
    m.value offset raw = .ok (m.shifted c raw) ∧
      m.shifted c raw = (UInt64.ofNat raw + UInt64.ofInt c).toNat % 256 ^ m.slotSize ∧
      (raw ≠ 0 → value ≠ 0 → m.shifted c raw = value) ∧
      (m.shifted c raw = value ↔
        ((256 ^ m.dump.slotSize * 2 ^ m.dump.shift : Nat) : Int) ∣
          ((if raw = 0 then m.dump.base else 0 : Nat) : Int) -
            (if value = 0 then m.runtime.base else 0 : Nat)) := by
  rw [← delta_eq_words hrequested hactual] at hc
  have hplain := Checked.gives_general _ hgeneral
  have hsum := Checked.sum_of_general hgeneral
  obtain ⟨hslot, hdump, -⟩ := checkEncodings_eq_ok hcheck
  refine ⟨?_, shifted_eq_words m c raw, shifted_eq hslot hdump hraw hc hplain.symm hsum,
    shifted_eq_iff hslot hdump hraw hc hplain.symm hsum⟩
  rw [Rebasing.value, constant?, hc]

/-- A distance that wraps around leads to the general result, and a narrow reference that is moved
to address zero does not. -/
theorem shifted_eq_general_wrapped :
    Rebasing.shifted ⟨.wide, .wide, 0x80, 0x8000000000000100, 0x40⟩ (-0x7fffffffffffff80) 0x90 =
        0x8000000000000110 ∧
      Checked.general .words ⟨.narrow 0 3, .narrow 8 3, 0x10, 0, 0x40⟩ 0 2 = .ok (.ok 0) ∧
      Rebasing.shifted ⟨.narrow 0 3, .narrow 8 3, 0x10, 0, 0x40⟩ (-3) 2 ≠ 0 := by
  have hwrapped : Checked.general .words ⟨.wide, .wide, 0x80, 0x8000000000000100, 0x40⟩ 0 0x90 =
      .ok (.ok 0x8000000000000110) := rfl
  have hnull : Checked.general .words ⟨.narrow 0 3, .narrow 8 3, 0x10, 0, 0x40⟩ 0 2 =
      .ok (.ok 0) := rfl
  refine ⟨?_, hnull, ?_⟩
  · obtain ⟨-, -, hne, -⟩ := shifted_eq_general (c := -0x7fffffffffffff80) (by decide)
      (by decide) rfl (by decide) (by decide) hwrapped
    exact hne (by decide) (by decide)
  · obtain ⟨-, -, -, hiff⟩ := shifted_eq_general (c := -3) (by decide) (by decide) rfl
      (by decide) (by decide) hnull
    rw [ne_eq, hiff]
    decide

end HeapImage.Rebasing
