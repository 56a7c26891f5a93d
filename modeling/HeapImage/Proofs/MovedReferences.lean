import HeapImage.Proofs.ByteView
import HeapImage.Proofs.Encoding
import Mathlib.Algebra.Group.Int.Defs

/-! # References of a moved image

An image that stands somewhere else than requested has its references adjusted, by one constant for
all of them if there is one. A constant is added to stored values as they are, without a look at the
addresses that they stand for. Either way an adjusted reference is the stored form of the address to
which the object it named has been moved, with one exception: null has no distance from the base of
an encoding, and neither has an object that comes to stand at address zero.

* `ReferenceEncoding.base_add_mul`: what a stored value stands for, in units.
* `ReferenceEncoding.mul_of_shiftConstant?`: the constant in units.
* `Rebasing.shifted_eq_iff`: where the constant agrees with the moved address.
* `Rebasing.Lands`, `Rebasing.encode_eq_iff_lands`: where an adjusted reference is the stored form
  of the moved address.
* `Rebasing.Fits`: the two places of an image.
* `Rebasing.encode_of_value`: the new value of a reference.
* `Rebasing.encode_edges`: both ends of the image can be referred to. -/

namespace HeapImage

/-! ## Units -/

namespace ReferenceEncoding

variable {e dump runtime : ReferenceEncoding} {value : Nat} {delta c : Int}

/-- A stored value counts units from the base, unless it is null. -/
theorem base_add_mul (hshift : e.shift ≤ maxShift) (hvalue : value < 256 ^ e.slotSize) :
    e.base + value * 2 ^ e.shift = e.decode value + if value = 0 then e.base else 0 := by
  cases e with
  | wide =>
    change 0 + value * 1 = value + if value = 0 then 0 else 0
    split <;> omega
  | narrow base shift =>
    change base.toNat + value * 2 ^ shift.toNat = decode (narrow base shift) value +
      if value = 0 then base.toNat else 0
    rw [decode]
    by_cases hzero : value = 0
    · rw [if_pos hzero, if_pos hzero, hzero, Nat.zero_mul, Nat.add_zero, Nat.zero_add]
    · have hunit : 2 ^ shift.toNat ≤ 2 ^ 3 := Nat.pow_le_pow_right (by decide) hshift
      have hscaled : value * 2 ^ shift.toNat ≤ value * 2 ^ 3 := Nat.mul_le_mul_left _ hunit
      have hslot : 256 ^ (narrow base shift).slotSize = 2 ^ 32 := rfl
      rw [if_neg hzero, if_neg hzero, Nat.shiftLeft_eq, Nat.mod_eq_of_lt (by omega)]
      rfl

/-- **What a value stands for** is stored as that value. -/
theorem encode_decode (hshift : e.shift ≤ maxShift) (hvalue : value < 256 ^ e.slotSize) :
    e.encode (e.decode value) = .ok value := by
  cases e with
  | wide => rfl
  | narrow base shift =>
    by_cases hzero : value = 0
    · rw [hzero, decode_zero]
      exact encode_zero _
    · have hsum := base_add_mul hshift hvalue
      rw [if_neg hzero, Nat.add_zero] at hsum
      change base.toNat + value * 2 ^ shift.toNat = _ at hsum
      have hpos := Nat.mul_pos (Nat.pos_of_ne_zero hzero) (Nat.two_pow_pos shift.toNat)
      exact (encode_narrow_eq_ok (by omega)).mpr
        ⟨by omega, hsum.symm, hzero, Nat.le_of_lt_succ hvalue⟩

/-- An address that can be stored, other than null, lies behind the base. -/
theorem base_lt_of_encode {a : Nat} (ha : a ≠ 0) (h : e.encode a = .ok value) : e.base < a := by
  cases e with
  | wide => exact Nat.pos_of_ne_zero ha
  | narrow base shift =>
    obtain ⟨-, hsum, hzero, -⟩ := (encode_narrow_eq_ok ha).mp h
    have hpos := Nat.mul_pos (Nat.pos_of_ne_zero hzero) (Nat.two_pow_pos shift.toNat)
    change base.toNat < a
    omega

/-- The constant for a distance is the distance between what the encodings measure, in units. -/
theorem mul_of_shiftConstant? (h : dump.shiftConstant? runtime delta = some c) :
    dump.shift = runtime.shift ∧ c * 2 ^ dump.shift = delta + dump.base - runtime.base := by
  rw [shiftConstant?.eq_def] at h
  split at h
  · cases h
    refine ⟨rfl, ?_⟩
    change delta * 1 = delta + 0 - 0
    omega
  · rename_i base shift base' shift'
    split at h
    · cases h
    · rename_i hsame
      -- Both are narrow with one shift, and the distance is a whole number of units.
      obtain rfl := Decidable.not_not.mp hsame
      dsimp only at h
      rw [Nat.one_shiftLeft] at h
      split at h
      · cases h
      · rename_i hunits
        split at h
        · cases h
          refine ⟨rfl, ?_⟩
          have hdvd := Int.dvd_of_emod_eq_zero (Decidable.not_not.mp hunits)
          rw [Int.natCast_pow] at hdvd ⊢
          exact Int.ediv_mul_cancel hdvd
        · cases h
  · cases h

/-- What the values of a slot can count divides the number of heap words. -/
theorem dvd_two_pow (hshift : e.shift ≤ maxShift) :
    256 ^ e.slotSize * 2 ^ e.shift ∣ 2 ^ 64 := by
  cases e with
  | wide => exact Nat.dvd_refl _
  | narrow base shift =>
    have hle : shift.toNat ≤ 3 := hshift
    change 2 ^ 32 * 2 ^ shift.toNat ∣ 2 ^ 64
    rw [← Nat.pow_add]
    exact Nat.pow_dvd_pow 2 (by omega)

end ReferenceEncoding

namespace Rebasing

variable {m : Rebasing} {offset raw value place old new : Nat} {c : Int}

/-! ## Two ways -/

/-- The general way moves an address in the image. -/
theorem of_general (h : m.general offset raw = .ok value) :
    m.requested ≤ m.dump.decode raw ∧ m.dump.decode raw < m.requested + m.length ∧
      m.runtime.encode (m.actual + (m.dump.decode raw - m.requested)) = .ok value := by
  rw [general] at h
  split at h
  · cases h
  · split at h
    · rename_i hencode
      cases h
      exact ⟨by omega, by omega, hencode⟩
    · cases h

/-- The distance between the bases, up to whole turns around the address space. -/
theorem exists_delta (m : Rebasing) :
    ∃ turns : Int, m.delta = (m.actual : Int) - m.requested + turns * 2 ^ 64 := by
  rw [delta, Int.bmod_def]
  split
  · exact ⟨-(((m.actual : Int) - m.requested) / 2 ^ 64), by omega⟩
  · exact ⟨-(((m.actual : Int) - m.requested) / 2 ^ 64) - 1, by omega⟩

/-- **What a constant misses.** The general way goes through an address, where null is apart from
all other values, and the constant does not. Measured in units of the slots, the two results differ
by the base of the encoding for each of the values that is null. -/
theorem exists_mul_eq (hdump : m.dump.shift ≤ ReferenceEncoding.maxShift)
    (hraw : raw < 256 ^ m.dump.slotSize) (hc : m.constant? = some c)
    (hgeneral : m.general offset raw = .ok value)
    (hsum : m.actual + (m.dump.decode raw - m.requested) < 2 ^ 64) :
    ∃ turns : Int, (raw + c - value) * 2 ^ m.dump.shift =
      ((if raw = 0 then m.dump.base else 0 : Nat) : Int) -
        (if value = 0 then m.runtime.base else 0 : Nat) + turns * 2 ^ 64 := by
  obtain ⟨hshift, hconstant⟩ := ReferenceEncoding.mul_of_shiftConstant? hc
  obtain ⟨hlow, -, hencode⟩ := of_general hgeneral
  obtain ⟨turns, hdelta⟩ := m.exists_delta
  have hold := ReferenceEncoding.base_add_mul hdump hraw
  have hnew := ReferenceEncoding.base_add_mul (hshift ▸ hdump)
    (ReferenceEncoding.encode_lt hsum hencode)
  rw [ReferenceEncoding.decode_encode hsum hencode, ← hshift] at hnew
  have hunit : ((2 ^ m.dump.shift : Nat) : Int) = 2 ^ m.dump.shift := Int.natCast_pow 2 _
  have hold' := congrArg (Nat.cast (R := Int)) hold
  have hnew' := congrArg (Nat.cast (R := Int)) hnew
  rw [Int.natCast_add, Int.natCast_mul, hunit] at hold' hnew'
  refine ⟨turns, ?_⟩
  rw [Int.sub_mul, Int.add_mul, hconstant, hdelta]
  generalize (raw : Int) * 2 ^ m.dump.shift = old at hold'
  generalize (value : Int) * 2 ^ m.dump.shift = new at hnew'
  omega

/-- The constant agrees with the moved address exactly if what it misses is a multiple of what a
slot can count. -/
theorem shifted_eq_iff (hslot : m.dump.slotSize = m.runtime.slotSize)
    (hdump : m.dump.shift ≤ ReferenceEncoding.maxShift) (hraw : raw < 256 ^ m.dump.slotSize)
    (hc : m.constant? = some c) (hgeneral : m.general offset raw = .ok value)
    (hsum : m.actual + (m.dump.decode raw - m.requested) < 2 ^ 64) :
    m.shifted c raw = value ↔
      ((256 ^ m.dump.slotSize * 2 ^ m.dump.shift : Nat) : Int) ∣
        ((if raw = 0 then m.dump.base else 0 : Nat) : Int) -
          (if value = 0 then m.runtime.base else 0 : Nat) := by
  obtain ⟨turns, hmul⟩ := exists_mul_eq hdump hraw hc hgeneral hsum
  have hvalue := ReferenceEncoding.encode_lt hsum (of_general hgeneral).2.2
  have hturns : ((256 ^ m.dump.slotSize * 2 ^ m.dump.shift : Nat) : Int) ∣ turns * 2 ^ 64 :=
    Int.dvd_mul_of_dvd_right (Int.natCast_dvd_natCast.mpr (ReferenceEncoding.dvd_two_pow hdump))
  rw [← hslot] at hvalue
  have hunits : ((256 ^ m.dump.slotSize * 2 ^ m.dump.shift : Nat) : Int) =
      (256 ^ m.dump.slotSize : Nat) * 2 ^ m.dump.shift := by
    rw [Int.natCast_mul, Int.natCast_pow 2]
    rfl
  rw [← Int.dvd_add_left hturns, ← hmul, hunits,
    Int.mul_dvd_mul_iff_right (Int.pow_ne_zero (by decide)), shifted, slotSize, ← hslot,
    Bytes.one_shiftLeft_bits]
  have hpos : 0 < 256 ^ m.dump.slotSize := Nat.pow_pos (by decide)
  -- From here on only the number of values of a slot matters.
  generalize 256 ^ m.dump.slotSize = slots at hvalue hpos
  have hnonneg := Int.emod_nonneg ((raw : Int) + c) (Int.natCast_ne_zero.mpr (Nat.ne_of_gt hpos))
  constructor
  · intro h
    have hmod : ((raw : Int) + c) % slots = value := by omega
    exact Int.dvd_self_sub_of_emod_eq hmod
  · rintro ⟨k, hk⟩
    have hsum : (raw : Int) + c = value + slots * k := by omega
    rw [hsum, Int.add_mul_emod_self_left,
      Int.emod_eq_of_lt (Int.natCast_nonneg _) (Int.ofNat_lt.mpr hvalue), Int.toNat_natCast]

/-- **Only null sets the two ways apart.** -/
theorem shifted_eq (hslot : m.dump.slotSize = m.runtime.slotSize)
    (hdump : m.dump.shift ≤ ReferenceEncoding.maxShift) (hraw : raw < 256 ^ m.dump.slotSize)
    (hc : m.constant? = some c) (hgeneral : m.general offset raw = .ok value)
    (hsum : m.actual + (m.dump.decode raw - m.requested) < 2 ^ 64) (hold : raw ≠ 0)
    (hnew : value ≠ 0) : m.shifted c raw = value := by
  rw [shifted_eq_iff hslot hdump hraw hc hgeneral hsum, if_neg hold, if_neg hnew]
  exact Int.dvd_zero _

/-- A shifted value fits its slot. -/
theorem shifted_mod (c : Int) : m.shifted c value % 256 ^ m.slotSize = m.shifted c value := by
  have hpos : 0 < 256 ^ m.slotSize := Nat.pow_pos (by decide)
  rw [shifted, Bytes.one_shiftLeft_bits]
  apply Nat.mod_eq_of_lt
  omega

/-- Shifting by nothing keeps a reference. -/
theorem shifted_zero (h : value < 256 ^ m.slotSize) : m.shifted 0 value = value := by
  rw [shifted, Bytes.one_shiftLeft_bits, Int.add_zero]
  exact Nat.mod_eq_of_lt h

/-- References of an image that stays where it is stay as they are. -/
theorem constant?_of_same (hruntime : m.runtime = m.dump) (hactual : m.actual = m.requested) :
    m.constant? = some 0 := by
  have hdelta : m.delta = 0 := by
    rw [delta, hactual, Int.sub_self]
    rfl
  rw [constant?, hdelta, hruntime]
  cases m.dump with
  | wide => rfl
  | narrow base shift =>
    have htotal : (0 : Int) + base.toNat - base.toNat = 0 := by omega
    rw [ReferenceEncoding.shiftConstant?]
    dsimp only
    rw [if_neg (Decidable.not_not.mpr rfl), htotal, Int.zero_emod,
      if_neg (Decidable.not_not.mpr rfl), Int.zero_ediv]
    rfl

/-! ## Adjusted references -/

/-- Both ends of an image that has passed the check can be referred to. -/
theorem encode_edges {u : Unit} (h : m.checkEdges = .ok u) :
    (∃ low, m.runtime.encode m.actual = .ok low) ∧
      ∃ high, m.runtime.encode (m.actual + (m.length - wordSize)) = .ok high := by
  have hedge : ∀ edge ∈ [m.actual, m.actual + (m.length - wordSize)],
      ∃ value, m.runtime.encode edge = .ok value := by
    intro edge hmem
    have hone := Except.forM_eq_ok.mp h edge hmem
    cases hencode : m.runtime.encode edge with
    | ok value => exact ⟨value, rfl⟩
    | error fault =>
      rw [hencode] at hone
      cases hone
  exact ⟨hedge _ (List.mem_cons_self ..), hedge _ (List.mem_cons_of_mem _ (List.mem_cons_self ..))⟩

/-- The base of the encoding lies below an image that is not at address zero. -/
theorem base_lt_actual {u : Unit} (hedges : m.checkEdges = .ok u) (hactual : m.actual ≠ 0) :
    m.runtime.base < m.actual := by
  obtain ⟨⟨low, hlow⟩, -⟩ := encode_edges hedges
  exact ReferenceEncoding.base_lt_of_encode hactual hlow

/-- With one constant for all references, what can be referred to in an image can be referred to in
its new place, if this lies behind the base. -/
theorem exists_encode (hdump : m.dump.shift ≤ ReferenceEncoding.maxShift) {u : Unit}
    (hedges : m.checkEdges = .ok u) (hc : m.constant? = some c)
    (hbehind : m.runtime.base < m.actual + place)
    (hold : old ≠ 0) (hlt : old < 256 ^ m.dump.slotSize)
    (hdecode : m.dump.decode old = m.requested + place) (hplace : place + wordSize ≤ m.length) :
    ∃ new, m.runtime.encode (m.actual + place) = .ok new := by
  cases hruntime : m.runtime with
  | wide => exact ⟨_, rfl⟩
  | narrow base shift =>
    obtain ⟨hshift, hconstant⟩ := ReferenceEncoding.mul_of_shiftConstant? hc
    obtain ⟨turns, hdelta⟩ := m.exists_delta
    obtain ⟨-, high, hhigh⟩ := encode_edges hedges
    have hsum := ReferenceEncoding.base_add_mul hdump hlt
    have hword : wordSize = 8 := rfl
    rw [if_neg hold, Nat.add_zero, hdecode, hshift] at hsum
    rw [hshift] at hdump hconstant
    rw [hruntime] at hsum hconstant hdump hhigh hbehind
    change base.toNat < m.actual + place at hbehind
    obtain ⟨-, hhighSum, -, hhighMax⟩ :=
      (ReferenceEncoding.encode_narrow_eq_ok (by omega)).mp hhigh
    change m.dump.base + old * 2 ^ shift.toNat = m.requested + place at hsum
    change c * 2 ^ shift.toNat = m.delta + m.dump.base - base.toNat at hconstant
    -- The constant is known up to whole turns of the address space, and a turn is a whole number of
    -- units.
    obtain ⟨words, hwords⟩ : 2 ^ shift.toNat ∣ 2 ^ 64 :=
      Nat.pow_dvd_pow 2 (Nat.le_trans hdump (by decide))
    obtain ⟨value, hvalue⟩ : 2 ^ shift.toNat ∣ m.actual + place - base.toNat := by
      have hcount : ((m.actual + place - base.toNat : Nat) : Int) =
          (2 ^ shift.toNat : Nat) * (c + old - turns * words) := by
        have hsum' := congrArg (Nat.cast (R := Int)) hsum
        have hwords' : (2 : Int) ^ 64 = (2 ^ shift.toNat : Nat) * words := by
          rw [← Int.natCast_mul, ← hwords]
          rfl
        rw [Int.natCast_add, Int.natCast_mul, Int.natCast_add] at hsum'
        have hunit : ((2 ^ shift.toNat : Nat) : Int) = 2 ^ shift.toNat := Int.natCast_pow 2 _
        rw [← hunit] at hconstant
        rw [Int.mul_sub, Int.mul_add, Int.mul_comm _ c, hconstant, Int.mul_comm _ (old : Int),
          Int.mul_left_comm, ← hwords', hdelta]
        omega
      exact Int.natCast_dvd_natCast.mp (hcount ▸ Int.dvd_mul_right ..)
    rw [Nat.mul_comm] at hvalue
    -- Of the four conditions, the bounds follow from the base and from the end of the image.
    refine ⟨value, (ReferenceEncoding.encode_narrow_eq_ok (by omega)).mpr
      ⟨by omega, by omega, ?_, ?_⟩⟩
    · rintro rfl
      omega
    · have hle : value * 2 ^ shift.toNat ≤ high * 2 ^ shift.toNat := by omega
      exact Nat.le_trans (Nat.le_of_mul_le_mul_right hle (Nat.two_pow_pos _)) hhighMax

/-- References to a place of the image lead to its new place. They do if they are looked up. One
constant for all of them has to lead behind the base of the running heap's encoding, as only null is
stored otherwise; it leads to null where the base is a multiple of what a slot can count. -/
def Lands (m : Rebasing) (place : Nat) : Prop :=
  m.constant? = none ∨
    if m.actual + place = 0 then 256 ^ m.dump.slotSize * 2 ^ m.dump.shift ∣ m.runtime.base
    else m.runtime.base < m.actual + place

/-- **An adjusted reference** is the stored form of the address to which its object has been moved
exactly if it leads there. -/
theorem encode_eq_iff_lands (hslot : m.dump.slotSize = m.runtime.slotSize)
    (hdump : m.dump.shift ≤ ReferenceEncoding.maxShift) {u : Unit} (hedges : m.checkEdges = .ok u)
    (htop : m.actual + (m.length - wordSize) < 2 ^ 64) (hold : old ≠ 0)
    (hlt : old < 256 ^ m.dump.slotSize) (hdecode : m.dump.decode old = m.requested + place)
    (hplace : place + wordSize ≤ m.length) (hvalue : m.value offset old = .ok new) :
    m.runtime.encode (m.actual + place) = .ok new ↔ m.Lands place := by
  have hword : wordSize = 8 := rfl
  have hsum : m.actual + (m.dump.decode old - m.requested) < 2 ^ 64 := by omega
  -- What is looked up in the image is at its new place.
  have hgeneral : ∀ {value}, m.general offset old = .ok value ↔
      m.runtime.encode (m.actual + place) = .ok value := by
    intro value
    rw [general, hdecode, Nat.add_sub_cancel_left, if_neg (by omega)]
    cases m.runtime.encode (m.actual + place) with
    | ok value' => simp only [Except.ok.injEq]
    | error fault => exact ⟨nofun, nofun⟩
  rw [Rebasing.value] at hvalue
  rw [Lands]
  cases hc : m.constant? with
  | none =>
    rw [hc] at hvalue
    exact iff_of_true (hgeneral.mp hvalue) (.inl rfl)
  | some c =>
    rw [hc] at hvalue
    obtain rfl := Except.ok.inj hvalue
    rw [or_iff_right nofun]
    by_cases hzero : m.actual + place = 0
    · -- Null is stored as zero whatever the base is, and the constant does not know that.
      have hnull : m.runtime.encode (m.actual + place) = .ok 0 := by
        rw [hzero]
        exact ReferenceEncoding.encode_zero _
      rw [if_pos hzero, hnull, Except.ok.injEq, eq_comm,
        shifted_eq_iff hslot hdump hlt hc (hgeneral.mpr hnull) hsum, if_neg hold, if_pos rfl,
        Int.natCast_zero, Int.zero_sub, Int.dvd_neg, Int.natCast_dvd_natCast]
    · rw [if_neg hzero]
      refine ⟨ReferenceEncoding.base_lt_of_encode hzero, fun hbehind => ?_⟩
      obtain ⟨value, hencode⟩ := exists_encode hdump hedges hc hbehind hold hlt hdecode hplace
      rw [shifted_eq hslot hdump hlt hc (hgeneral.mpr hencode) hsum hold
        (ReferenceEncoding.encode_ne_zero hzero hencode)]
      exact hencode

/-- In an image that is not at address zero, all references lead to the new places. -/
theorem lands_of_ne_zero {u : Unit} (hedges : m.checkEdges = .ok u) (hactual : m.actual ≠ 0)
    (place : Nat) : m.Lands place := by
  have hbehind := base_lt_actual hedges hactual
  refine .inr ?_
  rw [if_neg (by omega)]
  omega

/-- References that assertions let pass lead to the new places. -/
theorem lands_of_agree (hslot : m.dump.slotSize = m.runtime.slotSize)
    (hdump : m.dump.shift ≤ ReferenceEncoding.maxShift) {u : Unit} (hedges : m.checkEdges = .ok u)
    (htop : m.actual + (m.length - wordSize) < 2 ^ 64) (hold : old ≠ 0)
    (hlt : old < 256 ^ m.dump.slotSize) (hdecode : m.dump.decode old = m.requested + place)
    (hplace : place + wordSize ≤ m.length) (hagree : m.disagreement? offset old = none) :
    m.Lands place := by
  cases hc : m.constant? with
  | none => exact .inl hc
  | some c =>
    rw [disagreement?, hc] at hagree
    dsimp only at hagree
    split at hagree
    · rename_i hsome
      have hvalue : m.value offset old = .ok (m.shifted c old) := by
        rw [Rebasing.value, hc]
      refine (encode_eq_iff_lands hslot hdump hedges htop hold hlt hdecode hplace hvalue).mp ?_
      cases hgeneral : m.general offset old with
      | error e =>
        rw [hgeneral] at hsome
        cases hsome
      | ok value =>
        rw [hgeneral] at hsome
        obtain rfl := Option.some.inj hsome
        have hencode := (of_general hgeneral).2.2
        rwa [hdecode, Nat.add_sub_cancel_left] at hencode
    · cases hagree

/-! ## Two places in memory -/

/-- Both places of an image are in memory and are not null, and both encodings are supported. -/
structure Fits (m : Rebasing) : Prop where
  slotSize : m.dump.slotSize = m.runtime.slotSize
  dumpShift : m.dump.shift ≤ ReferenceEncoding.maxShift
  requested_ne_zero : m.requested ≠ 0
  requested_le : m.requested + m.length ≤ 2 ^ 64
  actual_ne_zero : m.actual ≠ 0
  actual_le : m.actual + m.length ≤ 2 ^ 64

/-- What refers to an object before an image is moved is adjusted to what refers to it after. -/
theorem encode_of_value (hfits : m.Fits) {u : Unit} (hedges : m.checkEdges = .ok u)
    (hold : m.dump.encode (m.requested + place) = .ok old) (hplace : place + wordSize ≤ m.length)
    (hvalue : m.value offset old = .ok new) : m.runtime.encode (m.actual + place) = .ok new := by
  have hrequested := hfits.requested_le
  have hactual := hfits.actual_le
  have hne := hfits.requested_ne_zero
  have hword : wordSize = 8 := rfl
  have hlt : m.requested + place < 2 ^ 64 := by omega
  exact (encode_eq_iff_lands hfits.slotSize hfits.dumpShift hedges (by omega)
    (ReferenceEncoding.encode_ne_zero (by omega) hold) (ReferenceEncoding.encode_lt hlt hold)
    (ReferenceEncoding.decode_encode hlt hold) hplace hvalue).mpr
    (lands_of_ne_zero hedges hfits.actual_ne_zero place)

end Rebasing

end HeapImage
