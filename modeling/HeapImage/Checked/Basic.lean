import HeapImage.Load.Patch

/-!
# Checked operations

What reads a file works with offsets, sizes and bit numbers that the file has chosen. Here every
operation on them that can go wrong either has a result or says what went wrong. A run that changes
a state as it goes keeps what it has changed when it comes to a fault.

* `OperationFault`, `Checked`: what can go wrong, and results of operations that might have.
* `Halt`, `CheckedRun`: runs over a state, which a fault leaves as it is.
* `Stop`: what ends operations that have errors of their own.
* `AddressSpace`: the addresses there are; sums have to be among them.
* `Checks`: what a build checks apart from accesses.
* `Checked.sub`, `Checked.slice`, `Checked.valueAt`, `Checked.setValue`: distances and bytes.
* `Checked.contains`, `Checked.insert`, `Checked.ones`: bits.
-/

namespace HeapImage

/-- Why an operation has no result. -/
inductive OperationFault where
  /-- An access to something that is not there. -/
  | bounds (fault : BoundsFault)
  /-- A sum beyond the last address. -/
  | addition
  /-- A difference below zero. -/
  | subtraction
  /-- Two ways to adjust a reference that ought to agree. -/
  | assertion (disagreement : Disagreement)
  deriving DecidableEq, Repr

/-- The wording of a fault. -/
def OperationFault.message : OperationFault → String
  | bounds fault => fault.message
  | addition => "attempt to add with overflow"
  | subtraction => "attempt to subtract with overflow"
  | assertion disagreement => disagreement.message

/-- The result of operations, unless one of them has none. -/
abbrev Checked (α : Type) := Except OperationFault α

/-- A fault, and the state in which a run has come to it. -/
structure Halt (σ : Type) where
  fault : OperationFault
  state : σ
  deriving DecidableEq, Repr

/-- The result of a run that changes a state, unless it comes to a fault. What it has done before
the fault stays done. -/
abbrev CheckedRun (σ α : Type) := Except (Halt σ) α

/-- The result of an operation in a run that has come to a state. -/
def Checked.inState {σ α : Type} (c : Checked α) (s : σ) : CheckedRun σ α :=
  c.mapError fun fault => ⟨fault, s⟩

/-- What ends operations early: a fault, or an error of their own. -/
inductive Stop (ε : Type) where
  | fault (fault : OperationFault)
  | error (e : ε)

/-- The result of an operation among operations that have errors of their own. -/
def Checked.orStop {ε α : Type} (c : Checked α) : Except (Stop ε) α := c.mapError .fault

/-- A result or an error of operations that may come to a fault as well. -/
def Stop.settle {ε α : Type} : Except (Stop ε) α → Checked (Except ε α)
  | .ok x => .ok (.ok x)
  | .error (.error e) => .ok (.error e)
  | .error (.fault f) => .error f

/-! ### Addresses -/

/-- The addresses there are. -/
inductive AddressSpace where
  /-- Every number is one. -/
  | unbounded
  /-- The numbers below a limit. -/
  | below (limit : Nat)
  deriving DecidableEq, Repr

namespace AddressSpace

variable {space : AddressSpace} {a b : Nat}

/-- The addresses that fit a heap word. -/
def words : AddressSpace := below 0x10000000000000000

/-- A number is an address. -/
def Has : AddressSpace → Nat → Prop
  | unbounded, _ => True
  | below limit, a => a < limit

instance (space : AddressSpace) (a : Nat) : Decidable (space.Has a) :=
  match space with
  | unbounded => .isTrue trivial
  | below limit => Nat.decLt a limit

/-- A range with a sum has all smaller ones. -/
theorem Has.mono (h : space.Has b) (hle : a ≤ b) : space.Has a := by
  cases space with
  | unbounded => trivial
  | below limit => exact Nat.lt_of_le_of_lt hle h

/-- Refuses numbers that are not all addresses. -/
def check (space : AddressSpace) (as : List Nat) : Checked Unit :=
  if ∀ a ∈ as, space.Has a then .ok () else .error .addition

/-- A sum of addresses, which has to be an address. -/
def add (space : AddressSpace) (a b : Nat) : Checked Nat :=
  if space.Has (a + b) then .ok (a + b) else .error .addition

/-- The check passes if the range has all the sums. -/
theorem check_eq_ok {as : List Nat} (h : ∀ a ∈ as, space.Has a) : space.check as = .ok () :=
  if_pos h

/-- A sum in the range is the plain one. -/
theorem add_eq_ok (h : space.Has (a + b)) : space.add a b = .ok (a + b) := if_pos h

/-- A sum of addresses is their sum. -/
theorem eq_of_add_eq_ok {s : Nat} (h : space.add a b = .ok s) : s = a + b := by
  rw [add] at h
  split at h
  · exact (Except.ok.inj h).symm
  · cases h

end AddressSpace

/-- What a build checks apart from accesses. -/
structure Checks where
  /-- Sums have to be among these addresses. -/
  space : AddressSpace
  /-- Whether assertions are checked. -/
  assertions : Bool
  deriving DecidableEq, Repr

namespace Checks

/-- Accesses are checked, and nothing else. -/
def unbounded : Checks := ⟨.unbounded, false⟩

/-- Sums have to fit a heap word. -/
def words : Checks := ⟨.words, false⟩

/-- Sums have to fit a heap word, and assertions have to hold. -/
def all : Checks := ⟨.words, true⟩

end Checks

namespace Checked

/-! ### Bytes -/

variable {b : ByteArray} {i n : Nat}

/-- A result is passed on. -/
@[simp] theorem ok_bind {ε α β : Type} (x : α) (k : α → Except ε β) :
    ((.ok x : Except ε α) >>= k) = k x := rfl

/-- The distance from one offset up to another. -/
def sub (i j : Nat) : Checked Nat := if j ≤ i then .ok (i - j) else .error .subtraction

/-- Refuses the `n` bytes at offset `i` unless a buffer of `size` bytes has them. -/
def within (size i n : Nat) : Checked Unit := (BoundsFault.checkBytes size i n).mapError .bounds

/-- The `n` bytes at offset `i`. -/
def slice (b : ByteArray) (i n : Nat) : Checked ByteArray := do
  within b.size i n
  return b.extract i (i + n)

/-- The number in the `n` bytes at offset `i`. -/
def valueAt (b : ByteArray) (i n : Nat) : Checked Nat := do
  within b.size i n
  return Bytes.valueAt b i n

/-- Replaces the number in the `n` bytes at offset `i`. -/
def setValue (b : ByteArray) (i n value : Nat) : Checked ByteArray := do
  within b.size i n
  return Bytes.setValue b i n value

/-- Replaces the heap word at offset `i`. -/
def setWord (b : ByteArray) (i : Nat) (w : UInt64) : Checked ByteArray := do
  within b.size i wordSize
  return Bytes.setWord b i w

/-- A difference that is no less than zero is the plain one. -/
theorem sub_eq_ok {i j : Nat} (h : j ≤ i) : sub i j = .ok (i - j) := if_pos h

/-- The check for bytes passes if they lie inside. -/
theorem within_eq_ok {size : Nat} (h : i + n ≤ size) : within size i n = .ok () := by
  rw [within, BoundsFault.checkBytes_eq_ok_iff.mpr h]
  rfl

/-- A slice inside the bytes is the plain one. -/
theorem slice_eq_ok (h : i + n ≤ b.size) : slice b i n = .ok (b.extract i (i + n)) := by
  rw [slice, within_eq_ok h]
  rfl

/-- A number inside the bytes is read as by the plain function. -/
theorem valueAt_eq_ok (h : i + n ≤ b.size) : valueAt b i n = .ok (Bytes.valueAt b i n) := by
  rw [valueAt, within_eq_ok h]
  rfl

/-- A number inside the bytes is written as by the plain function. -/
theorem setValue_eq_ok (h : i + n ≤ b.size) (value : Nat) :
    setValue b i n value = .ok (Bytes.setValue b i n value) := by
  rw [setValue, within_eq_ok h]
  rfl

/-- A word inside the bytes is written as by the plain function. -/
theorem setWord_eq_ok (h : i + wordSize ≤ b.size) (w : UInt64) :
    setWord b i w = .ok (Bytes.setWord b i w) := by
  rw [setWord, within_eq_ok h]
  rfl

/-! ### Bits -/

variable {m : BitMap} {start stop : Nat}

/-- Membership of bit `i`. -/
def contains (m : BitMap) (i : Nat) : Checked Bool := (m.at? i).mapError .bounds

/-- Inserts bit `i`. -/
def insert (m : BitMap) (i : Nat) : Checked BitMap := (m.set? i).mapError .bounds

/-- A bit of the map is the plain one. -/
theorem contains_eq_ok (h : i < m.size) : contains m i = .ok (m.contains i) := by
  rw [contains, BitMap.at?, BitMap.within, dif_pos h]
  rfl

/-- A bit of the map is set as by the plain function. -/
theorem insert_eq_ok (h : i < m.size) : insert m i = .ok (m.insert i) := by
  rw [insert, BitMap.set?, BitMap.within, dif_pos h, BitMap.insert, dif_pos h]
  rfl

/-- Word `k` of a map. -/
def word (m : BitMap) (k : Nat) : Checked UInt64 :=
  if k < m.words.size then .ok (m.word k) else .error (.bounds (.element k m.words.size))

/-- The least member below `stop` among the set bits of `w`, which is what is left of word `k`, and
the bits of the words behind it. -/
def search (m : BitMap) (stop k : Nat) (w : UInt64) : Checked (Option Nat) :=
  if w ≠ 0 then
    let i := k * 64 + Word.trailingZeros w
    .ok (if i < stop then some i else none)
  else if stop ≤ (k + 1) * 64 then .ok none
  else
    match word m (k + 1) with
    | .error fault => .error fault
    | .ok w => search m stop (k + 1) w
termination_by stop - k * 64

/-- The least member in `[start, stop)`. -/
def findIn (m : BitMap) (start stop : Nat) : Checked (Option Nat) :=
  let stop := min stop m.size
  if stop ≤ start then .ok none
  else
    match word m (start / 64) with
    | .error fault => .error fault
    | .ok w => search m stop (start / 64) (w &&& Word.maskFrom (start % 64))

/-- A word with a bit of the map is the plain one. -/
theorem word_eq_ok {k : Nat} (h : k * 64 < m.size) : word m k = .ok (m.word k) := by
  have hk := m.word_lt_of_lt h
  rw [Nat.mul_div_cancel _ (by decide)] at hk
  exact if_pos hk

/-- The words of a map have all its bits. -/
theorem search_eq_ok {k : Nat} {w : UInt64} (h : stop ≤ m.size) :
    search m stop k w = .ok (m.search stop k w) := by
  fun_induction BitMap.search m stop k w with
  | case1 k w hw i hi =>
    rw [search, if_pos hw]
    exact congrArg Except.ok (if_pos hi)
  | case2 k w hw i hi =>
    rw [search, if_pos hw]
    exact congrArg Except.ok (if_neg hi)
  | case3 k w hw hstop => rw [search, if_neg hw, if_pos hstop]
  | case4 k w hw hstop ih =>
    rw [search, if_neg hw, if_neg hstop, word_eq_ok (by omega)]
    exact ih

/-- A search never leaves the map, whatever range it is given. -/
theorem findIn_eq_ok : findIn m start stop = .ok (m.findIn start stop) := by
  rw [findIn, BitMap.findIn]
  split
  · rfl
  · rw [word_eq_ok (by omega)]
    exact search_eq_ok (Nat.min_le_right ..)

/-- Adds the members in `[start, stop)` to a list of smaller ones. -/
def onesAfter (m : BitMap) (start stop : Nat) (found : Array Nat) : Checked (Array Nat) :=
  match h : findIn m start stop with
  | .error fault => .error fault
  | .ok none => .ok found
  | .ok (some i) => onesAfter m (i + 1) stop (found.push i)
termination_by stop - start
decreasing_by
  rw [findIn_eq_ok] at h
  have := BitMap.le_and_lt_of_findIn (Except.ok.inj h)
  omega

/-- The members in `[start, stop)` in ascending order. -/
def ones (m : BitMap) (start stop : Nat) : Checked (List Nat) :=
  (onesAfter m start stop #[]).map Array.toList

/-- Collecting the set bits never leaves the map either. -/
theorem onesAfter_eq_ok (found : Array Nat) :
    onesAfter m start stop found = .ok (m.onesAfter start stop found) := by
  fun_induction BitMap.onesAfter m start stop found with
  | case1 start found h =>
    rw [onesAfter]
    split <;> simp_all [findIn_eq_ok]
  | case2 start found i h ih =>
    rw [onesAfter]
    split <;> simp_all [findIn_eq_ok]

/-- The set bits of a range are the plain ones. -/
theorem ones_eq_ok : ones m start stop = .ok (m.ones start stop) := by
  rw [ones, onesAfter_eq_ok]
  rfl

end Checked

end HeapImage
