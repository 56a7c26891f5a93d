import HeapImage.Proofs.Encoding
import HeapImage.Proofs.Relocating

/-! # Planned addresses

The options of a dump keep its numbers small enough: identities fit the reference slots, and the
requested addresses are those of a machine.

* `DumpOptions.InWords`: options as a machine can hold them.
* `DumpOptions.capacity_div_lt`: reference slots are wide enough for all identities.
* `DumpSession.plan_spec`: the requested base is the highest one that leaves room below the heap
  end.
* `DumpSession.IsRelocated.number_eq`: relocating an identity stores a requested address. -/

namespace HeapImage

/-- All numbers of the options are machine words. -/
structure DumpOptions.InWords (o : DumpOptions) : Prop where
  heapEnd_lt : o.heapEnd < 2 ^ 64
  capacity_lt : o.capacity < 2 ^ 64
  native_lt : o.native.top < 2 ^ 64

/-- What the options of a dump have to be. -/
theorem DumpOptions.of_check {o : DumpOptions} {u : Unit} (h : o.check = .ok u) :
    (∃ k, o.alignment = 2 ^ k) ∧ headerSize ≤ o.alignment ∧ o.alignment ≤ o.heapEnd ∧
      o.native.bottom ≤ o.native.top ∧
      (o.encoding.isNarrow = true → o.capacity / wordSize < ReferenceEncoding.maxNarrow) ∧
      o.encoding.shift ≤ ReferenceEncoding.maxShift := by
  simp only [check, Except.guard_eq_ok, Bool.or_eq_true, not_or, Bool.and_eq_true, not_and,
    Bool.not_eq_true', Bool.not_eq_false, decide_eq_true_eq, Nat.not_lt, Nat.not_le] at h
  obtain ⟨⟨hpow, hmin⟩, hend, hnative, hcapacity, hencoding⟩ := h
  exact ⟨isPowerOfTwo_iff.mp hpow, hmin, hend, hnative, hcapacity,
    ReferenceEncoding.check_eq_ok.mp hencoding⟩

/-- Regions start at word boundaries. -/
theorem DumpOptions.wordSize_dvd_alignment {o : DumpOptions} {u : Unit} (h : o.check = .ok u) :
    wordSize ∣ o.alignment := by
  obtain ⟨⟨k, hk⟩, hmin, -⟩ := of_check h
  have hword : wordSize = 2 ^ 3 := rfl
  rw [hk] at hmin ⊢
  rw [hword]
  apply Nat.pow_dvd_pow
  exact Nat.le_of_lt ((Nat.pow_lt_pow_iff_right (a := 2) (by decide)).mp
    (Nat.lt_of_lt_of_le (by decide) hmin))

/-- A reference slot holds the number of any heap word that a staging buffer may have. -/
theorem DumpOptions.capacity_div_lt {o : DumpOptions} (hcheck : o.check = .ok ())
    (hcapacity : o.capacity < 2 ^ 64) : o.capacity / wordSize < 256 ^ o.encoding.slotSize := by
  obtain ⟨-, -, -, -, hnarrow, -⟩ := DumpOptions.of_check hcheck
  cases henc : o.encoding with
  | wide => exact Nat.lt_of_le_of_lt (Nat.div_le_self ..) hcapacity
  | narrow base shift =>
    rw [henc] at hnarrow
    exact Nat.lt_of_lt_of_le (hnarrow rfl) (show ReferenceEncoding.maxNarrow ≤ 256 ^ 4 by decide)

variable {g : ObjectGraph} {r : TypeRegistry} {roots : List ObjectId}

namespace DumpSession

variable {s t : DumpSession} {q : RequestedRegions} {ref : ObjectId → Nat}

/-! ## Planning -/

/-- **The requested base** is a multiple of the alignment other than null, and the image ends at the
last multiple below the heap end. -/
theorem plan_spec (ha : ∃ k, s.options.alignment = 2 ^ k)
    (hbottom : s.closedBottom = alignUp s.openTop s.options.alignment)
    (htop : s.closedBottom ≤ s.closedTop) (h : s.plan = .ok q) :
    q.opened.bottom ≠ 0 ∧ s.options.alignment ∣ q.opened.bottom ∧
      q.opened.bottom + s.imageSize = alignDown s.options.heapEnd s.options.alignment := by
  simp only [plan, Except.guard_eq_ok, Except.pure_eq_ok, Nat.not_lt, Nat.not_le] at h
  obtain ⟨hclosed, hroom, -, rfl⟩ := h
  have hend := dvd_alignDown ha s.options.heapEnd
  have hdvd : s.options.alignment ∣ s.closedBottom := by
    rw [hbottom]
    exact dvd_alignUp ha _
  have hdown := alignDown_sub ha hend hclosed
  have hup := alignUp_le ha hend hclosed
  have hsize : s.imageSize =
      s.closedBottom + alignUp (s.closedTop - s.closedBottom) s.options.alignment := by
    have hsum : max s.closedTop s.closedBottom =
        s.closedBottom + (s.closedTop - s.closedBottom) := by omega
    rw [imageSize, hsum, alignUp_add ha hdvd]
  dsimp only
  rw [hdown] at hroom ⊢
  refine ⟨by omega, ?_, by omega⟩
  exact Nat.dvd_sub (Nat.dvd_sub hend (dvd_alignUp ha _)) hdvd

/-- Every member's requested address can be stored. -/
theorem of_checkAddresses {u : Unit} (h : s.checkAddresses q = .ok u) :
    ∀ p ∈ s.placements.toList, ∃ value,
      s.options.encoding.encode (q.addressOf p.offset) = .ok value := by
  intro p hp
  have hone := Except.forM_eq_ok.mp h p hp
  cases hrequire : s.options.encoding.require (q.addressOf p.offset) with
  | ok value => exact ⟨value, ReferenceEncoding.require_eq_ok.mp hrequire⟩
  | error e =>
    rw [hrequire] at hone
    cases hone

/-! ## Stored addresses -/

/-- What stands for references to an object: the stored form of its requested address. -/
def storedRef (s : DumpSession) (q : RequestedRegions) (id : ObjectId) : Nat :=
  match s.offsetOf? id with
  | none => 0
  | some offset =>
    match s.options.encoding.encode (q.addressOf offset) with
    | .ok value => value
    | .error _ => 0

/-- Identities and offsets belong together. -/
theorem slotOfIdentity?_identityOf {p : Nat} (hp : wordSize ∣ p) :
    slotOfIdentity? (identityOf p) = some p := by
  rw [slotOfIdentity?, identityOf, if_neg (Nat.succ_ne_zero _), Nat.add_sub_cancel,
    Nat.div_mul_cancel hp]

/-- The identity of a copied object is encoded as its requested address. -/
theorem encodeIdentity_identityOf {position p offset : Nat} (hp : wordSize ∣ p)
    (hoffset : s.offsets[p]? = some offset) :
    s.encodeIdentity q position (identityOf p) =
      s.options.encoding.require (q.addressOf offset) := by
  rw [encodeIdentity, slotOfIdentity?_identityOf hp]
  dsimp only
  rw [hoffset]

/-- Relocating the identity of a copied object stores its requested address. -/
theorem IsRelocated.number_eq {ref' : ObjectId → Nat} {position new : Nat} {c : Cell}
    {target : Option ObjectId} (h : t.IsRelocated q position (c.value.number ref id) new)
    (hc : c.value = .reference target)
    (htarget : ∀ id, target = some id → ∃ p offset, ref id = identityOf p ∧ wordSize ∣ p ∧
      t.offsets[p]? = some offset ∧
      t.options.encoding.encode (q.addressOf offset) = .ok (ref' id) ∧
      ref' id < 256 ^ t.slotSize) :
    new = c.value.number ref' id := by
  rw [hc] at h ⊢
  cases target with
  | none =>
    rcases h with ⟨-, hnew⟩ | ⟨hne, -⟩
    · exact hnew
    · exact absurd rfl hne
  | some id =>
    obtain ⟨p, offset, hidentity, hdvd, hoffset, hencode, hlt⟩ := htarget id rfl
    have hold : FieldValue.number ref (fun x => x) (.reference (some id)) = identityOf p :=
      hidentity
    -- An identity is never zero, so it is not taken for null.
    rcases h with ⟨hzero, -⟩ | ⟨-, value, hvalue, hnew⟩
    · exact absurd (hold.symm.trans hzero) (Nat.succ_ne_zero _)
    · change t.encodeIdentity q position (ref id) = .ok value at hvalue
      rw [hidentity, encodeIdentity_identityOf hdvd hoffset, ReferenceEncoding.require_eq_ok,
        hencode] at hvalue
      rw [hnew, ← Except.ok.inj hvalue, Nat.mod_eq_of_lt hlt]
      rfl

end DumpSession

end HeapImage
