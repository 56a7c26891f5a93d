import HeapImage.Bytes
import Mathlib.Algebra.Group.Nat.Defs

/-! # Byte views

A byte array and a piece of heap memory are read in the same way: as a function from positions to
bytes. Facts about numbers in memory are stated over such a view, and are then facts about files,
images and heaps alike.

* `Bytes.toNat_ofNat`, `Bytes.takeNat?_ofNat`: a number is read back from its bytes.
* `Bytes.number`: the number at a position of a view; `Bytes.valueAt` is the number at an offset
  of an array.
* `Bytes.byteOf`: the bytes of a number.
* `Bytes.get_setValue`, `Bytes.get_overwrite`, `Bytes.get_append`, …: what the operations on arrays
  do to the view. -/

namespace HeapImage.Bytes

/-! ## Encoded numbers -/

/-- The numbers of `n` bytes end where those of `8 * n` bits end. -/
theorem one_shiftLeft_bits (n : Nat) : 1 <<< (8 * n) = 256 ^ n := by
  rw [Nat.one_shiftLeft, Nat.pow_mul]

/-- A number in `n` bytes reads back as what fits in them. -/
theorem toNat_ofNat (n v : Nat) : toNat (ofNat n v) = v % 256 ^ n := by
  induction n generalizing v with
  | zero => simp [ofNat, toNat, Nat.mod_one]
  | succ n ih =>
    have hd : 256 ^ (n + 1) = 256 * 256 ^ n := by rw [Nat.pow_succ, Nat.mul_comm]
    rw [ofNat, toNat, ih, hd, Nat.mod_mul]
    simp [UInt8.toNat_ofNat']

/-- A number is taken off from in front of other bytes. -/
theorem takeNat?_ofNat (n v : Nat) (rest : List UInt8) :
    takeNat? n (ofNat n v ++ rest) = some (v % 256 ^ n, rest) := by
  have h := take?_append (ofNat n v) rest
  rw [length_ofNat] at h
  simp [takeNat?, h, toNat_ofNat]

/-- The bytes of two arrays one behind the other. -/
theorem toList_append (a b : ByteArray) : toList (a ++ b) = toList a ++ toList b := by
  rw [toList, ByteArray.data_append, Array.toList_append]
  rfl

/-! ## Numbers in a view -/

/-- The number in the `n` bytes at position `i` of a view. -/
def number (v : Nat → UInt8) (i : Nat) : (n : Nat) → Nat
  | 0 => 0
  | n + 1 => (v i).toNat + 256 * number v (i + 1) n

/-- The byte of number `k` in a number, counted from the least significant one. -/
def byteOf (value k : Nat) : UInt8 := UInt8.ofNat (value / 256 ^ k)

/-- Reading an array at an offset is reading its view. -/
theorem valueAt_eq_number (b : ByteArray) (i n : Nat) : valueAt b i n = number (get b) i n := by
  induction n generalizing i with
  | zero => rfl
  | succ n ih => rw [valueAt, number, ih]

/-- A number depends on its own bytes only. -/
theorem number_congr {v w : Nat → UInt8} {i j n : Nat} (h : ∀ k < n, v (i + k) = w (j + k)) :
    number v i n = number w j n := by
  induction n generalizing i j with
  | zero => rfl
  | succ n ih =>
    have hhead : v i = w j := by simpa using h 0 (Nat.succ_pos n)
    have htail : number v (i + 1) n = number w (j + 1) n := by
      apply ih
      intro k hk
      have := h (k + 1) (Nat.succ_lt_succ hk)
      rwa [Nat.add_right_comm i 1 k, Nat.add_right_comm j 1 k]
    rw [number, number, hhead, htail]

/-- A number in `n` bytes is less than `n` bytes can tell apart. -/
theorem number_lt (v : Nat → UInt8) (i n : Nat) : number v i n < 256 ^ n := by
  induction n generalizing i with
  | zero => simp [number]
  | succ n ih =>
    have hbyte := (v i).toNat_lt
    have htail := ih (i + 1)
    rw [number, Nat.pow_succ]
    omega

/-- The bytes of a number from the second on are those of its quotient. -/
theorem byteOf_succ (value k : Nat) : byteOf value (k + 1) = byteOf (value / 256) k := by
  rw [byteOf, byteOf, Nat.pow_succ, Nat.mul_comm, Nat.div_div_eq_div_mul]

/-- A view that shows the bytes of a number shows the number, cut to the bytes that are there. -/
theorem number_of_bytes {v : Nat → UInt8} {i n value : Nat}
    (h : ∀ k < n, v (i + k) = byteOf value k) : number v i n = value % 256 ^ n := by
  induction n generalizing i value with
  | zero => simp [number, Nat.mod_one]
  | succ n ih =>
    have hhead : v i = UInt8.ofNat value := by simpa [byteOf] using h 0 (Nat.succ_pos n)
    have htail : number v (i + 1) n = value / 256 % 256 ^ n := by
      apply ih
      intro k hk
      rw [Nat.add_right_comm, Nat.add_assoc, h (k + 1) (Nat.succ_lt_succ hk), byteOf_succ]
    rw [number, hhead, htail, Nat.pow_succ, Nat.mul_comm (256 ^ n), Nat.mod_mul,
      UInt8.toNat_ofNat']

/-- The bytes of a number that was read are those of the view. -/
theorem byteOf_number {v : Nat → UInt8} {i n k : Nat} (hk : k < n) :
    byteOf (number v i n) k = v (i + k) := by
  induction n generalizing i k with
  | zero => exact absurd hk (Nat.not_lt_zero k)
  | succ n ih =>
    have hbyte := (v i).toNat_lt
    cases k with
    | zero =>
      apply UInt8.toNat_inj.mp
      rw [byteOf, Nat.pow_zero, Nat.div_one, UInt8.toNat_ofNat', number]
      simp only [Nat.add_zero]
      omega
    | succ k =>
      have hdiv : number v i (n + 1) / 256 = number v (i + 1) n := by
        rw [number]
        omega
      rw [byteOf_succ, hdiv, ih (Nat.lt_of_succ_lt_succ hk), Nat.add_right_comm, Nat.add_assoc]

/-- Where two views show one number they show the same bytes. -/
theorem eq_of_number_eq {v w : Nat → UInt8} {i n j : Nat} (h : number v i n = number w i n)
    (hlow : i ≤ j) (hhigh : j < i + n) : v j = w j := by
  obtain ⟨k, rfl⟩ := Nat.exists_eq_add_of_le hlow
  have hk : k < n := by omega
  rw [← byteOf_number (v := v) hk, h, byteOf_number hk]

/-- A number that is read in `n` bytes is less than `n` bytes can tell apart. -/
theorem valueAt_lt (b : ByteArray) (i n : Nat) : valueAt b i n < 256 ^ n := by
  rw [valueAt_eq_number]
  exact number_lt ..

/-! ## The view of an array -/

/-- A byte inside is the one in the array. -/
theorem get_of_lt {b : ByteArray} {i : Nat} (h : i < b.size) : get b i = b[i] := by
  rw [get, dif_pos h]

/-- Behind the end all bytes are zero. -/
theorem get_of_size_le {b : ByteArray} {i : Nat} (h : b.size ≤ i) : get b i = 0 := by
  rw [get, dif_neg (Nat.not_lt.mpr h)]

/-- Arrays of one size with the same view are equal. -/
theorem ext_get {a b : ByteArray} (hsize : a.size = b.size) (h : ∀ i < a.size, get a i = get b i) :
    a = b := by
  refine ByteArray.ext_getElem hsize ?_
  intro i hi hi'
  rw [← get_of_lt, ← get_of_lt, h i hi]

/-- The bytes of two arrays are those of the first and, behind them, those of the second. -/
theorem get_append (a b : ByteArray) (i : Nat) :
    get (a ++ b) i = if i < a.size then get a i else get b (i - a.size) := by
  split
  · rename_i h
    rw [get_of_lt (by rw [ByteArray.size_append]; omega), get_of_lt h,
      ByteArray.getElem_append_left h]
  · rename_i h
    by_cases hb : i - a.size < b.size
    · rw [get_of_lt (by rw [ByteArray.size_append]; omega), get_of_lt hb,
        ByteArray.getElem_append_right (Nat.not_lt.mp h)]
    · rw [get_of_size_le (by rw [ByteArray.size_append]; omega), get_of_size_le (by omega)]

/-- The bytes of a slice are those from its start on, and zero behind its end. -/
theorem get_extract (b : ByteArray) (i j k : Nat) :
    get (b.extract i j) k = if i + k < j then get b (i + k) else 0 := by
  by_cases h : k < (b.extract i j).size
  · have hsize := h
    rw [ByteArray.size_extract] at hsize
    rw [get_of_lt h, ByteArray.getElem_extract, if_pos (by omega), get_of_lt (by omega)]
  · have hsize := h
    rw [ByteArray.size_extract] at hsize
    rw [get_of_size_le (Nat.not_lt.mp h)]
    split
    · rw [get_of_size_le (by omega)]
    · rfl

/-- A byte of an array that was made from a list. -/
theorem get_ofList (bs : List UInt8) (i : Nat) : get (ofList bs) i = bs.getD i 0 := by
  rw [get_eq_getD, ofList, List.getElem?_toArray, List.getD_eq_getElem?_getD]

/-- An array that was made from a list is as long as the list. -/
@[simp] theorem size_ofList (bs : List UInt8) : (ofList bs).size = bs.length := by
  change bs.toArray.size = bs.length
  exact List.size_toArray ..

/-- The bytes of a number, by their position. -/
theorem getElem?_ofNat (n value k : Nat) :
    (ofNat n value)[k]? = if k < n then some (byteOf value k) else none := by
  induction n generalizing value k with
  | zero => rfl
  | succ n ih =>
    cases k with
    | zero => simp [ofNat, byteOf]
    | succ k => simp [ofNat, ih, byteOf_succ]

/-- The bytes of an array that holds a number, and zero behind them. -/
theorem get_ofList_ofNat (n value k : Nat) :
    get (ofList (ofNat n value)) k = if k < n then byteOf value k else 0 := by
  rw [get_ofList, List.getD_eq_getElem?_getD, getElem?_ofNat]
  split <;> rfl

/-- Resizing keeps the bytes that are left and fills up with zeros. -/
theorem get_resize (b : ByteArray) (n i : Nat) :
    get (resize b n) i = if i < n then get b i else 0 := by
  unfold resize
  split
  · rw [get_extract, Nat.zero_add]
  · rename_i h
    rw [get_append, get_zeros]
    split
    · rw [if_pos (by omega)]
    · rw [get_of_size_le (b := b) (by omega)]
      split <;> rfl

/-! ## Views after a write -/

/-- Writing a number changes its own bytes and no others. -/
theorem get_setValue (b : ByteArray) (i n value j : Nat) :
    get (setValue b i n value) j =
      if i ≤ j ∧ j < i + n ∧ j < b.size then byteOf value (j - i) else get b j := by
  induction n generalizing b i value with
  | zero => rw [setValue, if_neg (by omega)]
  | succ n ih =>
    rw [setValue, ih, size_setByte, get_setByte]
    by_cases hij : i = j
    · subst hij
      by_cases hb : i < b.size
      · rw [if_neg (by omega), if_pos ⟨rfl, hb⟩, if_pos (by omega), Nat.sub_self, byteOf,
          Nat.pow_zero, Nat.div_one]
      · rw [if_neg (by omega), if_neg (by omega), if_neg (by omega)]
    · by_cases hin : i + 1 ≤ j ∧ j < i + 1 + n ∧ j < b.size
      · have hk : j - i = j - (i + 1) + 1 := by omega
        rw [if_pos hin, if_pos (by omega), hk, byteOf_succ]
      · rw [if_neg hin, if_neg (by omega), if_neg (by omega)]

/-- A number that was written where it fits is read back, cut to its bytes. -/
theorem valueAt_setValue_self {b : ByteArray} {i n : Nat} (h : i + n ≤ b.size) (value : Nat) :
    valueAt (setValue b i n value) i n = value % 256 ^ n := by
  rw [valueAt_eq_number]
  apply number_of_bytes
  intro k hk
  rw [get_setValue, if_pos (by omega), Nat.add_sub_cancel_left]

/-- Numbers elsewhere are not touched by a write. -/
theorem valueAt_setValue_of_disjoint {b : ByteArray} {i n j m : Nat}
    (h : j + m ≤ i ∨ i + n ≤ j) (value : Nat) :
    valueAt (setValue b i n value) j m = valueAt b j m := by
  rw [valueAt_eq_number, valueAt_eq_number]
  apply number_congr
  intro k hk
  rw [get_setValue, if_neg (by omega)]

/-- A heap word that was written where it fits is read back. -/
theorem number_setWord_self {b : ByteArray} {i : Nat} (h : i + wordSize ≤ b.size) (w : UInt64) :
    number (get (setWord b i w)) i wordSize = w.toNat := by
  rw [← valueAt_eq_number, setWord, valueAt_setValue_self h]
  exact Nat.mod_eq_of_lt w.toNat_lt

/-- Numbers elsewhere are not touched by writing a heap word. -/
theorem number_setWord_of_disjoint {b : ByteArray} {i j m : Nat}
    (h : j + m ≤ i ∨ i + wordSize ≤ j) (w : UInt64) :
    number (get (setWord b i w)) j m = number (get b) j m := by
  rw [← valueAt_eq_number, ← valueAt_eq_number, setWord, valueAt_setValue_of_disjoint h]

/-- Writing a word keeps the bytes on both sides of it. -/
theorem get_setWord_of_outside {b : ByteArray} {i j : Nat} (h : j < i ∨ i + wordSize ≤ j)
    (w : UInt64) : get (setWord b i w) j = get b j := by
  rw [setWord, get_setValue, if_neg (by omega)]

/-- Overwriting puts other bytes in a window and keeps the rest. -/
theorem get_overwrite {b src : ByteArray} {i : Nat} (h : i + src.size ≤ b.size) (j : Nat) :
    get (overwrite b i src) j = if i ≤ j ∧ j < i + src.size then get src (j - i) else get b j := by
  have hfront : (b.extract 0 i).size = i := by
    rw [ByteArray.size_extract]
    omega
  have hmiddle : (src.extract 0 (0 + src.size)).size = src.size := by
    rw [ByteArray.size_extract]
    omega
  rw [overwrite, if_pos h, ByteArray.copySlice_eq_append, get_append, get_append,
    ByteArray.size_append, hfront, hmiddle, get_extract, get_extract, get_extract,
    ByteArray.size_data, ByteArray.size_data, Nat.sub_zero, Nat.min_self]
  by_cases hlow : j < i
  · have hmid : j < i + src.size := by omega
    have hout : ¬ (i ≤ j ∧ j < i + src.size) := by omega
    rw [if_pos hmid, if_pos hlow, if_neg hout, Nat.zero_add, if_pos hlow]
  · by_cases hmid : j < i + src.size
    · have hin : i ≤ j ∧ j < i + src.size := by omega
      have hoff : j - i < src.size := by omega
      rw [if_pos hmid, if_neg hlow, if_pos hin, Nat.zero_add, Nat.zero_add, if_pos hoff]
    · have hout : ¬ (i ≤ j ∧ j < i + src.size) := by omega
      have hj : i + src.size + (j - (i + src.size)) = j := by omega
      rw [if_neg hmid, if_neg hout, hj]
      split
      · rfl
      · rw [get_of_size_le (by omega)]

end HeapImage.Bytes
