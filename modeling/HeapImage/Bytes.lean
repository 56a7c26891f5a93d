import HeapImage.Alignment

/-!
# Bytes and little-endian numbers

Files, images and heap memory are byte arrays, in which numbers stand least significant byte first.

* `Bytes.ofNat`, `Bytes.toNat`: a number as a list of bytes and back.
* `Bytes.get`, `Bytes.value?`, `Bytes.word?`: reading at an offset.
* `Bytes.setByte`, `Bytes.setValue`, `Bytes.overwrite`: writing at an offset; a write outside the
  array changes nothing.
* `Bytes.zeros`, `Bytes.grow`, `Bytes.resize`, `Bytes.slice?`: building and cutting byte arrays.
-/

namespace HeapImage.Bytes

/-! ### Numbers as byte lists -/

/-- The `n` low bytes of `v`, least significant first. -/
def ofNat : (n : Nat) → (v : Nat) → List UInt8
  | 0, _ => []
  | n + 1, v => UInt8.ofNat v :: ofNat n (v / 256)

/-- The number that a list of bytes stands for, least significant first. -/
def toNat : List UInt8 → Nat
  | [] => 0
  | b :: bs => b.toNat + 256 * toNat bs

/-- A number in `n` bytes takes up `n` bytes. -/
@[simp] theorem length_ofNat (n v : Nat) : (ofNat n v).length = n := by
  induction n generalizing v with
  | zero => rfl
  | succ n ih => simp [ofNat, ih]

/-- Splits off the first `n` bytes of a list, if it has as many. -/
def take? (n : Nat) (bs : List UInt8) : Option (List UInt8 × List UInt8) :=
  if n ≤ bs.length then some (bs.take n, bs.drop n) else none

/-- Splits off a number of `n` bytes. -/
def takeNat? (n : Nat) (bs : List UInt8) : Option (Nat × List UInt8) :=
  (take? n bs).map fun (front, rest) => (toNat front, rest)

/-- Bytes that are put in front are taken off again. -/
theorem take?_append (front rest : List UInt8) :
    take? front.length (front ++ rest) = some (front, rest) := by
  simp [take?]

/-! ### Reading at an offset -/

/-- The byte at offset `i`, zero past the end. -/
def get (b : ByteArray) (i : Nat) : UInt8 := if h : i < b.size then b[i] else 0

/-- The number in the `n` bytes at offset `i`. -/
def valueAt (b : ByteArray) (i : Nat) : (n : Nat) → Nat
  | 0 => 0
  | n + 1 => (get b i).toNat + 256 * valueAt b (i + 1) n

/-- The number in the `n` bytes at offset `i`, if they lie inside the array. -/
def value? (b : ByteArray) (i n : Nat) : Option Nat :=
  if i + n ≤ b.size then some (valueAt b i n) else none

/-- The heap word at offset `i`, if it lies inside the array. -/
def word? (b : ByteArray) (i : Nat) : Option UInt64 := (value? b i wordSize).map UInt64.ofNat

/-- The `n` bytes at offset `i`, if they lie inside the array. -/
def slice? (b : ByteArray) (i n : Nat) : Option ByteArray :=
  if i + n ≤ b.size then some (b.extract i (i + n)) else none

/-! ### Writing at an offset -/

/-- Replaces the byte at offset `i`. -/
def setByte (b : ByteArray) (i : Nat) (x : UInt8) : ByteArray :=
  if h : i < b.size then b.set i x h else b

/-- Writes the `n` low bytes of `v` at offset `i`. -/
def setValue (b : ByteArray) (i : Nat) : (n : Nat) → (v : Nat) → ByteArray
  | 0, _ => b
  | n + 1, v => setValue (setByte b i (UInt8.ofNat v)) (i + 1) n (v / 256)

/-- Writes a heap word at offset `i`. -/
def setWord (b : ByteArray) (i : Nat) (w : UInt64) : ByteArray := setValue b i wordSize w.toNat

/-- Replaces the bytes from offset `i` on by `src`, if all of it fits. -/
def overwrite (b : ByteArray) (i : Nat) (src : ByteArray) : ByteArray :=
  if i + src.size ≤ b.size then src.copySlice 0 b i src.size else b

/-- A byte is the one in the array, or zero behind the end. -/
theorem get_eq_getD (b : ByteArray) (i : Nat) : get b i = b.data[i]?.getD 0 := by
  unfold get
  split
  · rename_i h
    have h' : i < b.data.size := h
    rw [Array.getElem?_eq_getElem h']
    rfl
  · rename_i h
    have h' : b.data.size ≤ i := Nat.le_of_not_lt h
    rw [Array.getElem?_eq_none h']
    rfl

/-- Writing a byte sets one element of the array, if it has that element. -/
theorem data_setByte (b : ByteArray) (i : Nat) (x : UInt8) :
    (setByte b i x).data = b.data.setIfInBounds i x := by
  unfold setByte Array.setIfInBounds
  split <;> rename_i h
  · have h' : i < b.data.size := h
    simp only [h', dite_true]
    rfl
  · have h' : ¬ i < b.data.size := h
    simp only [h', dite_false]

/-- Writing a byte keeps the size. -/
@[simp] theorem size_setByte (b : ByteArray) (i : Nat) (x : UInt8) :
    (setByte b i x).size = b.size := by
  change (setByte b i x).data.size = b.data.size
  rw [data_setByte, Array.size_setIfInBounds]

/-- Writing a byte changes this byte only. -/
theorem get_setByte (b : ByteArray) (i j : Nat) (x : UInt8) :
    get (setByte b i x) j = if i = j ∧ i < b.size then x else get b j := by
  rw [get_eq_getD, get_eq_getD, data_setByte, Array.getElem?_setIfInBounds]
  change _ = if i = j ∧ i < b.data.size then x else _
  by_cases h : i = j
  · subst h
    by_cases hi : i < b.size <;> simp [hi]
  · simp [h]

/-- Writing a number keeps the size. -/
@[simp] theorem size_setValue (b : ByteArray) (i n v : Nat) :
    (setValue b i n v).size = b.size := by
  induction n generalizing b i v with
  | zero => rfl
  | succ n ih => simp [setValue, ih]

/-- Writing a word keeps the size. -/
@[simp] theorem size_setWord (b : ByteArray) (i : Nat) (w : UInt64) :
    (setWord b i w).size = b.size := size_setValue ..

/-! ### Building byte arrays -/

/-- The bytes of a list. -/
def ofList (bs : List UInt8) : ByteArray := ⟨bs.toArray⟩

/-- The bytes of an array in order. -/
def toList (b : ByteArray) : List UInt8 := b.data.toList

/-- `n` zero bytes, built by doubling. -/
def zeros (n : Nat) : ByteArray :=
  if n = 0 then ByteArray.empty
  else
    let half := zeros (n / 2)
    if n % 2 = 0 then half ++ half else (half ++ half).push 0
termination_by n

/-- Extends an array to at least `n` bytes with zeros. -/
def grow (b : ByteArray) (n : Nat) : ByteArray :=
  if b.size < n then b ++ zeros (n - b.size) else b

/-- Cuts an array to `n` bytes, or extends it to `n` bytes with zeros. -/
def resize (b : ByteArray) (n : Nat) : ByteArray :=
  if n ≤ b.size then b.extract 0 n else b ++ zeros (n - b.size)

/-- There are as many zeros as asked for. -/
@[simp] theorem size_zeros (n : Nat) : (zeros n).size = n := by
  induction n using Nat.strongRecOn with
  | ind n ih =>
    unfold zeros
    split
    · simp [*]
    · have := ih (n / 2) (by omega)
      simp only []
      split <;> simp [ByteArray.size_append, this] <;> omega

/-- The zeros as an array. -/
theorem data_zeros (n : Nat) : (zeros n).data = Array.replicate n 0 := by
  induction n using Nat.strongRecOn with
  | ind n ih =>
    unfold zeros
    split
    · simp [*]
    · have h := ih (n / 2) (by omega)
      simp only []
      split
      · rw [ByteArray.data_append, h, Array.replicate_append_replicate]
        congr 1
        omega
      · change (zeros (n / 2) ++ zeros (n / 2)).data.push 0 = _
        rw [ByteArray.data_append, h, Array.replicate_append_replicate, ← Array.replicate_succ]
        congr 1
        omega

/-- Every byte among zeros is zero, and so are all behind them. -/
theorem get_zeros (n i : Nat) : get (zeros n) i = 0 := by
  rw [get_eq_getD, data_zeros, Array.getElem?_replicate]
  split <;> rfl

/-- Growing brings bytes up to a size and never cuts them off. -/
theorem size_grow (b : ByteArray) (n : Nat) : (grow b n).size = max b.size n := by
  unfold grow
  split
  · simp [ByteArray.size_append]; omega
  · omega

/-- Bytes past the end read as zero, so an extended array reads as before. -/
theorem get_grow (b : ByteArray) (n i : Nat) : get (grow b n) i = get b i := by
  unfold grow
  split
  · rw [get_eq_getD, get_eq_getD, ByteArray.data_append, data_zeros, Array.getElem?_append,
      Array.getElem?_replicate]
    split
    · rfl
    · rename_i h
      rw [Array.getElem?_eq_none (Nat.le_of_not_lt h)]
      split <;> rfl
  · rfl

/-- Bytes that are resized have the new size. -/
@[simp] theorem size_resize (b : ByteArray) (n : Nat) : (resize b n).size = n := by
  unfold resize
  split
  · simp [ByteArray.size_extract]; omega
  · simp [ByteArray.size_append]; omega

end HeapImage.Bytes
