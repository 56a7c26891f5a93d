import HeapImage.Proofs.ByteView

/-! # Rewriting numbers in place

Linking, relocation and loading all go through places that do not overlap and replace the number at
each. What such a pass leaves behind is described by what became of each number, and by what stayed.

* `Apart`: two places of one width do not overlap.
* `Rewrites`: what a pass over some places has made of a byte view.
* `Rewrites.step`: one more place.
* `Rewrites.both`: two passes over different places. -/

namespace HeapImage

/-- The `width` bytes at two positions do not overlap. -/
def Apart (width i j : Nat) : Prop := i + width ≤ j ∨ j + width ≤ i

/-- Being apart goes both ways. -/
theorem Apart.symm {width i j : Nat} (h : Apart width i j) : Apart width j i := Or.symm h

/-- At the given positions the number of `width` bytes went over into another one, as a relation
allows; all other bytes are as before. -/
structure Rewrites (width : Nat) (R : (position old new : Nat) → Prop) (positions : List Nat)
    (before after : Nat → UInt8) : Prop where
  inside : ∀ i ∈ positions, R i (Bytes.number before i width) (Bytes.number after i width)
  outside : ∀ j, (∀ i ∈ positions, j < i ∨ i + width ≤ j) → after j = before j

namespace Rewrites

variable {width : Nat} {R : Nat → Nat → Nat → Prop} {positions : List Nat}
variable {before after : Nat → UInt8}

/-- Nothing has been rewritten. -/
theorem nil : Rewrites width R [] before before where
  inside _ hi := nomatch hi
  outside _ _ := rfl

/-- Numbers away from the positions are as before. -/
theorem number_eq (h : Rewrites width R positions before after) {i n : Nat}
    (hapart : ∀ p ∈ positions, i + n ≤ p ∨ p + width ≤ i) :
    Bytes.number after i n = Bytes.number before i n := by
  apply Bytes.number_congr
  intro k hk
  apply h.outside
  intro p hp
  have := hapart p hp
  omega

/-- One more position, which lies apart from those before it. -/
theorem step {next : Nat → UInt8} {i : Nat} (h : Rewrites width R positions before after)
    (hapart : ∀ p ∈ positions, Apart width p i)
    (hsame : ∀ j, j < i ∨ i + width ≤ j → next j = after j)
    (hnew : R i (Bytes.number after i width) (Bytes.number next i width)) :
    Rewrites width R (positions ++ [i]) before next where
  inside p hp := by
    rcases List.mem_append.mp hp with hp | hp
    · -- The new position lies apart from the old ones, which keep their numbers.
      have hkept : Bytes.number next p width = Bytes.number after p width := by
        apply Bytes.number_congr
        intro k hk
        apply hsame
        have := hapart p hp
        rw [Apart] at this
        omega
      rw [hkept]
      exact h.inside p hp
    · have hold : Bytes.number after i width = Bytes.number before i width :=
        h.number_eq fun p hp => (hapart p hp).symm
      rw [List.mem_singleton.mp hp, ← hold]
      exact hnew
  outside j hj := by
    have hi := hj i (List.mem_append_right _ (List.mem_singleton.mpr rfl))
    rw [hsame j hi]
    exact h.outside j fun p hp => hj p (List.mem_append_left _ hp)

/-- One position before the others. -/
theorem cons {next : Nat → UInt8} {i : Nat} (h : Rewrites width R positions next after)
    (hapart : ∀ p ∈ positions, Apart width i p)
    (hsame : ∀ j, j < i ∨ i + width ≤ j → next j = before j)
    (hnew : R i (Bytes.number before i width) (Bytes.number next i width)) :
    Rewrites width R (i :: positions) before after where
  inside p hp := by
    rcases List.mem_cons.mp hp with rfl | hp
    · rw [h.number_eq hapart]
      exact hnew
    · have hold : Bytes.number next p width = Bytes.number before p width := by
        apply Bytes.number_congr
        intro k hk
        apply hsame
        have := hapart p hp
        rw [Apart] at this
        omega
      rw [← hold]
      exact h.inside p hp
  outside j hj := by
    rw [h.outside j fun p hp => hj p (List.mem_cons_of_mem _ hp)]
    exact hsame j (hj i (List.mem_cons_self ..))

/-- What a pass does in a window does not depend on what is outside. -/
theorem window {before' : Nat → UInt8} {a b : Nat} (h : Rewrites width R positions before after)
    (hinside : ∀ i ∈ positions, a ≤ i ∧ i + width ≤ b)
    (hbefore : ∀ x, a ≤ x → x < b → before' x = before x) :
    Rewrites width R positions before' fun x => if a ≤ x ∧ x < b then after x else before' x where
  inside i hi := by
    have hbounds := hinside i hi
    have hold : Bytes.number before' i width = Bytes.number before i width :=
      Bytes.number_congr fun k hk => hbefore _ (by omega) (by omega)
    have hnew : Bytes.number (fun x => if a ≤ x ∧ x < b then after x else before' x) i width =
        Bytes.number after i width :=
      Bytes.number_congr fun k hk => if_pos (by omega)
    rw [hold, hnew]
    exact h.inside i hi
  outside j hj := by
    split
    · rename_i hin
      rw [h.outside j hj, hbefore j hin.1 hin.2]
    · rfl

/-- What is allowed may be widened, and the positions may be listed in another way. -/
theorem mono {S : Nat → Nat → Nat → Prop} {positions' : List Nat}
    (h : Rewrites width R positions before after)
    (hmem : ∀ i, i ∈ positions' ↔ i ∈ positions)
    (hR : ∀ i old new, i ∈ positions → R i old new → S i old new) :
    Rewrites width S positions' before after where
  inside i hi := hR i _ _ ((hmem i).mp hi) (h.inside i ((hmem i).mp hi))
  outside j hj := h.outside j fun i hi => hj i ((hmem i).mpr hi)

/-- **Two passes** over places that lie apart: neither sees what the other has done. -/
theorem both {width' : Nat} {S : Nat → Nat → Nat → Prop} {positions' : List Nat}
    {last : Nat → UInt8} (h : Rewrites width R positions before after)
    (h' : Rewrites width' S positions' after last)
    (hapart : ∀ i ∈ positions, ∀ j ∈ positions', i + width ≤ j ∨ j + width' ≤ i) :
    (∀ i ∈ positions, R i (Bytes.number before i width) (Bytes.number last i width)) ∧
      (∀ j ∈ positions', S j (Bytes.number before j width') (Bytes.number last j width')) ∧
      ∀ x, (∀ i ∈ positions, x < i ∨ i + width ≤ x) →
        (∀ j ∈ positions', x < j ∨ j + width' ≤ x) → last x = before x := by
  refine ⟨?_, ?_, ?_⟩
  · intro i hi
    rw [h'.number_eq (hapart i hi)]
    exact h.inside i hi
  · intro j hj
    rw [← h.number_eq fun i hi => (hapart i hi j hj).symm]
    exact h'.inside j hj
  · intro x hx hx'
    rw [h'.outside x hx', h.outside x hx]

end Rewrites

/-- A native pointer moves by a distance. -/
def PlusDelta (delta : UInt64) (_position old new : Nat) : Prop :=
  new = (UInt64.ofNat old + delta).toNat

/-- Moving by nothing keeps a pointer. -/
theorem PlusDelta.eq_of_zero {position old new : Nat} (h : PlusDelta 0 position old new)
    (hlt : old < 2 ^ 64) : new = old := by
  rw [h, UInt64.add_zero, UInt64.toNat_ofNat', Nat.mod_eq_of_lt hlt]

/-- No distance leaves everything where it is. -/
theorem Rewrites.plusDelta_zero (positions : List Nat) (v : Nat → UInt8) :
    Rewrites wordSize (PlusDelta 0) positions v v where
  inside i _ := by
    have hlt : Bytes.number v i wordSize < 2 ^ 64 := Bytes.number_lt v i 8
    rw [PlusDelta, UInt64.add_zero, UInt64.toNat_ofNat', Nat.mod_eq_of_lt hlt]
  outside _ _ := rfl

end HeapImage
