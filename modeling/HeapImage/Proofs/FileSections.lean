import HeapImage.Archive.File
import HeapImage.Proofs.ByteView
import HeapImage.Proofs.Steps

/-! # Sections of an archive file

A file is written by appending its sections and read by cutting it at the places that the header
gives. Cutting a row of byte arrays where one of them stands gives back that array.

* `Bytes.extract_append`, `Bytes.slice?_append`: a part of a row of byte arrays.
* `ArchiveHeader.decode?_encode`: a header reads back.
* `BitMap.ofBytes?_bytes`, `Archive.readMaps_bitmapBytes`: the maps read back. -/

namespace HeapImage

namespace Bytes

variable {front part rest : ByteArray}

/-- The part of a row behind a front of `i` bytes. -/
theorem extract_append {i n : Nat} (hi : front.size = i) (hn : part.size = n) :
    (front ++ (part ++ rest)).extract i (i + n) = part := by
  have h := ByteArray.extract_append_size_add' (a := front) (b := part ++ rest) (i := 0) (j := n)
    hi.symm
  rw [Nat.add_zero] at h
  rw [h]
  exact ByteArray.extract_append_eq_left hn.symm

/-- A part is cut out from between others. -/
theorem slice?_append {i n : Nat} (hi : front.size = i) (hn : part.size = n) :
    slice? (front ++ (part ++ rest)) i n = some part := by
  have hfits : i + n ≤ (front ++ (part ++ rest)).size := by
    rw [ByteArray.size_append, ByteArray.size_append]
    omega
  rw [slice?, if_pos hfits, extract_append hi hn]

/-- A start of a row that ends in its first array. -/
theorem extract_append_of_le {n : Nat} (h : n ≤ front.size) :
    (front ++ rest).extract 0 n = front.extract 0 n := by
  have hempty : rest.extract 0 0 = ByteArray.empty :=
    ByteArray.extract_eq_empty_iff.mpr (Nat.min_le_left ..)
  rw [ByteArray.extract_append, Nat.zero_sub, Nat.sub_eq_zero_of_le h, hempty,
    ByteArray.append_empty]

/-- Zeros behind zeros. -/
theorem zeros_append (m n : Nat) : zeros m ++ zeros n = zeros (m + n) := by
  apply ByteArray.ext
  rw [ByteArray.data_append, data_zeros, data_zeros, data_zeros, Array.replicate_append_replicate]

/-- Extending an array only appends zeros. -/
theorem resize_of_le {b : ByteArray} {n : Nat} (h : b.size ≤ n) :
    resize b n = b ++ zeros (n - b.size) := by
  rw [resize]
  split
  · have hn : n = b.size := by omega
    have hzeros : zeros 0 = ByteArray.empty := by
      rw [zeros, if_pos rfl]
    rw [hn, Nat.sub_self, hzeros, ByteArray.append_empty, ByteArray.extract_zero_size]
  · rfl

end Bytes

namespace ArchiveHeader

/-! ## Headers -/

/-- Reading goes on behind a number. -/
theorem word_bind {α : Type} (w : UInt64) (rest : List UInt8)
    (k : UInt64 → StateT (List UInt8) Option α) :
    (word >>= k) (encodeWord w ++ rest) = k w rest := by
  have hmod : w.toNat % 256 ^ 8 = w.toNat :=
    Nat.mod_eq_of_lt (by have := w.toNat_lt; omega)
  change StateT.run (word >>= k) _ = _
  rw [StateT.run_bind, StateT.run, word, encodeWord, Bytes.takeNat?_ofNat, Option.map_some, hmod]
  change k (UInt64.ofNat w.toNat) rest = k w rest
  rw [UInt64.ofNat_toNat]

/-- A half word that was written is read first. -/
theorem half_bind {α : Type} (w : UInt32) (rest : List UInt8)
    (k : UInt32 → StateT (List UInt8) Option α) :
    (half >>= k) (encodeHalf w ++ rest) = k w rest := by
  have hmod : w.toNat % 256 ^ 4 = w.toNat :=
    Nat.mod_eq_of_lt (by have := w.toNat_lt; omega)
  change StateT.run (half >>= k) _ = _
  rw [StateT.run_bind, StateT.run, half, encodeHalf, Bytes.takeNat?_ofNat, Option.map_some, hmod]
  change k (UInt32.ofNat w.toNat) rest = k w rest
  rw [UInt32.ofNat_toNat]

/-- An encoded header has the size of a header. -/
theorem length_encode (h : ArchiveHeader) : h.encode.length = size := by
  simp only [encode, encodeWord, encodeHalf, List.flatMap_cons, List.flatMap_nil,
    List.length_append, Bytes.length_ofNat, List.length_nil, size]

/-- A header reads back, whatever bytes come after it. -/
theorem fields_encode (h : ArchiveHeader) (rest : List UInt8) :
    fields (h.encode ++ rest) = some (h, rest) := by
  rw [fields, encode]
  simp only [List.flatMap_cons, List.flatMap_nil, List.append_assoc, List.nil_append]
  simp only [word_bind, half_bind]
  rfl

/-- **A header reads back** from its bytes. -/
theorem decode?_encode (h : ArchiveHeader) : decode? h.encode = some h := by
  have hfields := fields_encode h []
  rw [List.append_nil] at hfields
  rw [decode?, StateT.run, hfields, Option.map_some]

end ArchiveHeader

/-! ## Maps -/

namespace Bytes

/-- Words take up eight bytes each. -/
theorem size_ofWords (words : Array UInt64) : (ofWords words).size = wordSize * words.size := by
  rw [ofWords, size_ofList, ← Array.length_toList]
  induction words.toList with
  | nil => rfl
  | cons w words ih =>
    rw [List.flatMap_cons, List.length_append, ih, length_ofNat, List.length_cons, Nat.mul_succ,
      Nat.add_comm]

/-- Byte `i` of some words is a byte of one of them. -/
theorem get_ofWords (words : Array UInt64) (i : Nat) :
    get (ofWords words) i =
      byteOf (Word.get words (i / wordSize)).toNat (i % wordSize) := by
  rw [ofWords, get_ofList, Word.get, Array.getD_eq_getD_getElem?, ← Array.getElem?_toList,
    ← List.getD_eq_getElem?_getD]
  induction words.toList generalizing i with
  | nil =>
    change (0 : UInt8) = UInt8.ofNat (0 / 256 ^ (i % wordSize))
    rw [Nat.zero_div]
    rfl
  | cons w words ih =>
    have hword : wordSize = 8 := rfl
    rw [List.flatMap_cons, List.getD_eq_getElem?_getD, List.getElem?_append, length_ofNat]
    split
    · rename_i hlt
      rw [getElem?_ofNat, if_pos hlt, Nat.div_eq_of_lt hlt, Nat.mod_eq_of_lt hlt]
      rfl
    · rename_i hle
      rw [← List.getD_eq_getElem?_getD, ih, hword]
      have hdiv : i / 8 = (i - 8) / 8 + 1 := by omega
      have hmod : (i - 8) % 8 = i % 8 := by omega
      rw [hdiv, hmod, List.getD_cons_succ]

/-- There are as many words as asked for. -/
theorem size_words (b : ByteArray) (n : Nat) : (words b n).size = n := by
  rw [words, Array.size_map, Array.size_range]

/-- The words of a map are those that its bytes spell. -/
theorem get_words (b : ByteArray) {n k : Nat} (hk : k < n) :
    Word.get (words b n) k = UInt64.ofNat (valueAt b (wordSize * k) wordSize) := by
  rw [Word.get, Array.getD_eq_getD_getElem?, words, Array.getElem?_map, Array.getElem?_range,
    if_pos hk]
  rfl

/-- The words that are read from the bytes of some words are these words. -/
theorem words_ofWords (words : Array UInt64) :
    Bytes.words (ofWords words) words.size = words := by
  refine Array.ext (size_words ..) fun k hk hk' => ?_
  have hget := get_words (ofWords words) hk'
  have hbytes : ∀ j < wordSize,
      get (ofWords words) (wordSize * k + j) = byteOf (Word.get words k).toNat j := by
    intro j hj
    rw [get_ofWords, Nat.mul_add_div (by decide), Nat.div_eq_of_lt hj, Nat.add_zero,
      Nat.mul_add_mod, Nat.mod_eq_of_lt hj]
  have hvalue : (Word.get words k).toNat % 256 ^ wordSize = (Word.get words k).toNat :=
    Nat.mod_eq_of_lt (Word.get words k).toNat_lt
  rw [valueAt_eq_number, number_of_bytes hbytes, hvalue, UInt64.ofNat_toNat, Word.get_of_lt hk,
    Word.get_of_lt hk'] at hget
  exact hget

end Bytes

namespace BitMap

/-- The last word of a map is clear beyond its size. -/
theorem tailIsClear_words (m : BitMap) : tailIsClear m.words m.size = true := by
  rw [tailIsClear, Bool.or_eq_true, beq_iff_eq, Decidable.or_iff_not_imp_left]
  intro htail
  have hsize := m.size_words
  rw [wordCount] at hsize
  have hlast : m.words.size - 1 = m.size / 64 := by omega
  have hlt : m.size / 64 < m.words.size := by omega
  rw [Array.back?_eq_getElem?, hlast, Array.getElem?_eq_getElem hlt]
  refine beq_iff_eq.mpr (Word.eq_zero_iff.mpr fun k _ => ?_)
  rw [Word.bit_shiftRight _ (Nat.mod_lt _ (by decide)), ← Word.get_of_lt hlt]
  rcases Nat.lt_or_ge (m.size % 64 + k) 64 with hk | hk
  · have hclear := m.clear_beyond (m.size + k) (Nat.le_add_right ..)
    have hdiv : (m.size + k) / 64 = m.size / 64 := by omega
    have hmod : (m.size + k) % 64 = m.size % 64 + k := by omega
    rwa [Word.bitAt, hdiv, hmod] at hclear
  · exact Word.bit_eq_false_of_le hk

/-- A map is read back from its words. -/
theorem ofWords?_words (m : BitMap) : ofWords? m.words m.size = some m := by
  rw [ofWords?, dif_pos m.size_words, dif_pos m.tailIsClear_words]

/-- The bytes of a map are those of its words. -/
theorem size_bytes (m : BitMap) : m.bytes.size = wordSize * wordCount m.size := by
  rw [bytes, Bytes.size_ofWords, m.size_words]

/-- A map reads back from its bytes. -/
theorem ofBytes?_bytes (m : BitMap) : ofBytes? m.bytes m.size = some m := by
  rw [ofBytes?, ← m.size_words, bytes, Bytes.words_ofWords, ofWords?_words]

end BitMap

namespace Archive

/-- Reading goes on behind a map. -/
theorem readMap_bind {α : Type} {bits : UInt64} {m : BitMap} (hbits : bits.toNat = m.size)
    (rest : ByteArray) (k : BitMap → StateT ByteArray (Except FormatError) α) :
    (readMap bits >>= k) (m.bytes ++ rest) = k m rest := by
  have hslice : Bytes.slice? (m.bytes ++ rest) 0 (wordSize * wordCount m.size) = some m.bytes := by
    have h : Bytes.slice? (ByteArray.empty ++ (m.bytes ++ rest)) 0 (wordSize * wordCount m.size) =
        some m.bytes := Bytes.slice?_append rfl m.size_bytes
    rwa [ByteArray.empty_append] at h
  have hrest : (m.bytes ++ rest).extract (wordSize * wordCount m.size)
      (m.bytes ++ rest).size = rest :=
    ByteArray.extract_append_eq_right m.size_bytes.symm ByteArray.size_append
  change StateT.run (readMap bits >>= k) _ = _
  rw [StateT.run_bind, StateT.run, readMap, hbits, hslice]
  dsimp only
  rw [BitMap.ofBytes?_bytes]
  dsimp only
  rw [hrest]
  rfl

/-- The four maps read back from their bytes. -/
theorem readMaps_bitmapBytes {h : ArchiveHeader} {opened closed : RegionMaps}
    (hopenReferences : h.openReferenceBits.toNat = opened.references.size)
    (hopenNatives : h.openNativeBits.toNat = opened.natives.size)
    (hclosedReferences : h.closedReferenceBits.toNat = closed.references.size)
    (hclosedNatives : h.closedNativeBits.toNat = closed.natives.size) :
    (readMaps h).run (bitmapBytes opened closed) = .ok ((opened, closed), ByteArray.empty) := by
  have hbytes : bitmapBytes opened closed = opened.references.bytes ++ (opened.natives.bytes ++
      (closed.references.bytes ++ (closed.natives.bytes ++ ByteArray.empty))) := by
    rw [bitmapBytes, ByteArray.append_empty, ByteArray.append_assoc, ByteArray.append_assoc]
  rw [hbytes, StateT.run, readMaps, readMap_bind hopenReferences, readMap_bind hopenNatives,
    readMap_bind hclosedReferences, readMap_bind hclosedNatives]
  rfl

end Archive

end HeapImage
