import HeapImage.Proofs.TypeTableCodec

/-! # Type tables are canonical

Bytes that can be read as a registry are the stored form of that registry, with further bytes
behind it. So a table that was read can be written again, and it stands in one place only.

* `Bytes.eq_ofNat_append`: a number that was read is the number that is stored.
* `TypeTable.eq_encode_append`: a registry that was read is the registry that is stored, and its
  counts and lengths fit.
* `TypeTable.eq_zero_of_repeated`: a table does not start again behind its first byte.
* `TypeTable.decode_eq_ok_iff`: which bytes are read as which registry. -/

namespace HeapImage

namespace Bytes

/-- Bytes that are taken off were in front of the rest. -/
theorem eq_append_of_take? {n : Nat} {bs front rest : List UInt8}
    (h : take? n bs = some (front, rest)) : bs = front ++ rest ∧ front.length = n := by
  unfold take? at h
  split at h
  · rename_i hle
    obtain ⟨rfl, rfl⟩ := Prod.mk.inj (Option.some.inj h)
    exact ⟨(List.take_append_drop n bs).symm, List.length_take_of_le hle⟩
  · cases h

/-- Bytes spell a number less than they can tell apart. -/
theorem toNat_lt (bs : List UInt8) : toNat bs < 256 ^ bs.length := by
  induction bs with
  | nil => simp [toNat]
  | cons b bs ih =>
    have hb := b.toNat_lt
    rw [toNat, List.length_cons, Nat.pow_succ]
    omega

/-- The number that bytes spell is written as these bytes. -/
theorem ofNat_toNat (bs : List UInt8) : ofNat bs.length (toNat bs) = bs := by
  induction bs with
  | nil => rfl
  | cons b bs ih =>
    have hb := b.toNat_lt
    have hhead : UInt8.ofNat (b.toNat + 256 * toNat bs) = b := by
      rw [← UInt8.toNat_inj, UInt8.toNat_ofNat']
      omega
    have htail : (b.toNat + 256 * toNat bs) / 256 = toNat bs := by omega
    rw [toNat, List.length_cons, ofNat, hhead, htail, ih]

/-- A number that was read is the number that is stored. -/
theorem eq_ofNat_append {n v : Nat} {bs rest : List UInt8} (h : takeNat? n bs = some (v, rest)) :
    bs = ofNat n v ++ rest ∧ v < 256 ^ n := by
  rw [takeNat?, Option.map_eq_some_iff] at h
  obtain ⟨⟨front, rest'⟩, htake, heq⟩ := h
  obtain ⟨rfl, rfl⟩ := Prod.mk.inj heq
  obtain ⟨hbs, rfl⟩ := eq_append_of_take? htake
  rw [ofNat_toNat]
  exact ⟨hbs, toNat_lt front⟩

end Bytes

/-- A tag that is read is the tag of its kind. -/
theorem FieldKind.tag_of_ofTag? {t : UInt8} {k : FieldKind} (h : ofTag? t = some k) :
    k.tag = t := by
  unfold ofTag? at h
  split at h
  · rename_i ht
    rw [← Option.some.inj h, ht]
    rfl
  · split at h
    · rename_i ht
      rw [← Option.some.inj h, ht]
      rfl
    · split at h
      · rename_i ht
        rw [← Option.some.inj h, ht]
        rfl
      · cases h

namespace TypeTable

/-! ## Entries -/

variable {bs rest : List UInt8}

/-- A number that is read is what its bytes encode. -/
theorem eq_number_append {n : Nat} (h : decodeNumber bs = .ok (n, rest)) :
    bs = Bytes.ofNat numberSize n ++ rest ∧ FitsNumber n := by
  unfold decodeNumber at h
  split at h
  · rename_i htake
    rw [Except.ok.inj h] at htake
    obtain ⟨hbs, hlt⟩ := Bytes.eq_ofNat_append htake
    exact ⟨hbs, by rw [numberSize] at hlt; rw [FitsNumber]; omega⟩
  · cases h

/-- A name that is read is what its bytes encode. -/
theorem eq_encodeName_append {name : String} (h : decodeName bs = .ok (name, rest)) :
    bs = encodeName name ++ rest ∧ FitsNumber name.utf8ByteSize := by
  rw [decodeName, Except.bind_eq_ok] at h
  obtain ⟨⟨length, bs'⟩, hnumber, h⟩ := h
  obtain ⟨rfl, hfits⟩ := eq_number_append hnumber
  dsimp only at h
  split at h
  · cases h
  · rename_i text rest' htake
    obtain ⟨rfl, rfl⟩ := Bytes.eq_append_of_take? htake
    split at h
    · cases h
    · rename_i name' htext
      obtain ⟨rfl, rfl⟩ := Prod.mk.inj (Except.ok.inj h)
      -- The text of the name is the bytes it was read from.
      have hbytes : name'.toUTF8 = Bytes.ofList text := by
        rw [String.fromUTF8?] at htext
        split at htext
        · rw [← Option.some.inj htext]
          rfl
        · cases htext
      have hlist : Bytes.toList name'.toUTF8 = text := by
        rw [hbytes]
        rfl
      have hsize : name'.utf8ByteSize = text.length := by
        rw [← hlist]
        rfl
      rw [encodeName, hlist, hsize, List.append_assoc]
      exact ⟨rfl, hfits⟩

/-- Fields that are read are what their tags encode. -/
theorem eq_tags_append {n : Nat} {fields : List FieldKind}
    (h : decodeFields n bs = .ok (fields, rest)) :
    bs = fields.map FieldKind.tag ++ rest ∧ fields.length = n := by
  induction n generalizing bs fields with
  | zero =>
    obtain ⟨rfl, rfl⟩ := Prod.mk.inj (Except.ok.inj h)
    exact ⟨rfl, rfl⟩
  | succ n ih =>
    cases bs with
    | nil => cases h
    | cons t bs =>
      rw [decodeFields] at h
      split at h
      · cases h
      · rename_i k htag
        obtain ⟨⟨ks, rest'⟩, hfields, h⟩ := Except.bind_eq_ok.mp h
        obtain ⟨rfl, rfl⟩ := Prod.mk.inj (Except.ok.inj h)
        obtain ⟨rfl, rfl⟩ := ih hfields
        rw [List.map_cons, FieldKind.tag_of_ofTag? htag]
        exact ⟨rfl, rfl⟩

/-- A kind that is read is what its bytes encode. -/
theorem eq_encodeKind_append {k : TypeKind} (h : decodeKind bs = .ok (k, rest)) :
    bs = encodeKind k ++ rest ∧ k.FitsTable := by
  cases bs with
  | nil => cases h
  | cons t bs =>
    rw [decodeKind.eq_def] at h
    dsimp only at h
    split at h
    · rename_i ht
      obtain ⟨⟨n, bs'⟩, hnumber, h⟩ := Except.bind_eq_ok.mp h
      obtain ⟨⟨fields, rest'⟩, hfields, h⟩ := Except.bind_eq_ok.mp h
      obtain ⟨rfl, rfl⟩ := Prod.mk.inj (Except.ok.inj h)
      obtain ⟨rfl, hfits⟩ := eq_number_append hnumber
      obtain ⟨rfl, rfl⟩ := eq_tags_append hfields
      -- A record says how many fields follow.
      rw [encodeKind, ht, List.cons_append, List.append_assoc]
      exact ⟨rfl, hfits⟩
    · split at h
      · rename_i ht
        cases bs with
        | nil => cases h
        | cons n bs =>
          obtain ⟨rfl, rfl⟩ := Prod.mk.inj (Except.ok.inj h)
          rw [encodeKind, ht, UInt8.ofNat_toNat]
          exact ⟨rfl, trivial⟩
      · split at h
        · rename_i ht
          obtain ⟨rfl, rfl⟩ := Prod.mk.inj (Except.ok.inj h)
          rw [encodeKind, ht]
          exact ⟨rfl, trivial⟩
        · cases h

/-- A type that is read is what its bytes encode. -/
theorem eq_encodeInfo_append {t : TypeInfo} (h : decodeInfo bs = .ok (t, rest)) :
    bs = encodeInfo t ++ rest ∧ FitsNumber t.name.utf8ByteSize ∧ t.kind.FitsTable := by
  rw [decodeInfo, Except.bind_eq_ok] at h
  obtain ⟨⟨name, bs'⟩, hname, h⟩ := h
  obtain ⟨⟨kind, rest'⟩, hkind, h⟩ := Except.bind_eq_ok.mp h
  obtain ⟨rfl, rfl⟩ := Prod.mk.inj (Except.ok.inj h)
  obtain ⟨rfl, hfitsName⟩ := eq_encodeName_append hname
  obtain ⟨rfl, hfitsKind⟩ := eq_encodeKind_append hkind
  rw [encodeInfo, List.append_assoc]
  exact ⟨rfl, hfitsName, hfitsKind⟩

/-- Types that are read are what their bytes encode. -/
theorem eq_encodeInfos_append {n : Nat} {ts : List TypeInfo}
    (h : decodeInfos n bs = .ok (ts, rest)) : bs = ts.flatMap encodeInfo ++ rest ∧
      ts.length = n ∧ ∀ t ∈ ts, FitsNumber t.name.utf8ByteSize ∧ t.kind.FitsTable := by
  induction n generalizing bs ts with
  | zero =>
    obtain ⟨rfl, rfl⟩ := Prod.mk.inj (Except.ok.inj h)
    exact ⟨rfl, rfl, fun _ ht => absurd ht List.not_mem_nil⟩
  | succ n ih =>
    rw [decodeInfos, Except.bind_eq_ok] at h
    obtain ⟨⟨t, bs'⟩, hinfo, h⟩ := h
    obtain ⟨⟨ts', rest'⟩, hinfos, h⟩ := Except.bind_eq_ok.mp h
    obtain ⟨rfl, rfl⟩ := Prod.mk.inj (Except.ok.inj h)
    obtain ⟨rfl, hfits⟩ := eq_encodeInfo_append hinfo
    obtain ⟨rfl, rfl, hrest⟩ := ih hinfos
    rw [List.flatMap_cons, List.append_assoc]
    exact ⟨rfl, rfl, List.forall_mem_cons.mpr ⟨hfits, hrest⟩⟩

/-! ## Registries -/

/-- Types that are added one by one come behind those that were there. -/
theorem types_of_foldlM {ts : List TypeInfo} {r s : TypeRegistry}
    (h : ts.foldlM TypeRegistry.add? s = .ok r) : r.types.toList = s.types.toList ++ ts := by
  induction ts generalizing s with
  | nil =>
    rw [List.foldlM_nil, Except.pure_eq_ok] at h
    rw [h, List.append_nil]
  | cons t ts ih =>
    rw [List.foldlM_cons, Except.bind_eq_ok] at h
    obtain ⟨s', hadd, h⟩ := h
    have htypes : s'.types = s.types.push t := by
      rw [TypeRegistry.add?] at hadd
      split at hadd
      · cases hadd
      · split at hadd
        · rw [← Except.ok.inj hadd]
        · cases hadd
    rw [ih h, htypes, Array.toList_push, List.append_assoc]
    rfl

/-- A registry that is built from a list has the types of the list. -/
theorem types_of_registryOf {ts : List TypeInfo} {r : TypeRegistry}
    (h : registryOf ts = .ok r) : r.types.toList = ts := by
  cases ts with
  | nil => cases h
  | cons t ts =>
    rw [registryOf] at h
    split at h
    · rename_i ht
      split at h
      · rename_i r' hlist
        rw [← Except.ok.inj h, types_of_foldlM hlist, ht]
        rfl
      · cases h
    · cases h

/-- **A registry that was read** is the registry that is stored, and it can be stored again. -/
theorem eq_encode_append {r : TypeRegistry} (h : decode bs = .ok (r, rest)) :
    bs = encode r ++ rest ∧ r.FitsTable := by
  rw [decode, Except.bind_eq_ok] at h
  obtain ⟨⟨n, bs'⟩, hnumber, h⟩ := h
  obtain ⟨⟨ts, rest'⟩, hinfos, h⟩ := Except.bind_eq_ok.mp h
  obtain ⟨r', hregistry, h⟩ := Except.bind_eq_ok.mp h
  obtain ⟨rfl, rfl⟩ := Prod.mk.inj (Except.ok.inj h)
  obtain ⟨rfl, hfits⟩ := eq_number_append hnumber
  obtain ⟨rfl, rfl, hentries⟩ := eq_encodeInfos_append hinfos
  obtain rfl := types_of_registryOf hregistry
  rw [Array.length_toList] at hfits ⊢
  refine ⟨?_, hfits, fun t ht => (hentries t ht).1, fun t ht => (hentries t ht).2⟩
  rw [encode, List.append_assoc]
  rfl

/-- A stored registry is not all zeros: it holds the name of the root array. -/
theorem exists_ne_zero (r : TypeRegistry) : ∃ x ∈ encode r, x ≠ 0 := by
  obtain ⟨ts, hts⟩ := r.exists_types_eq
  refine ⟨82, ?_, by decide⟩
  rw [encode, hts, List.flatMap_cons]
  apply List.mem_append_right
  apply List.mem_append_left
  decide

/-- Bytes that are not all zeros do not repeat themselves behind their start, where there are zeros
behind them. -/
theorem eq_zero_of_repeated {k : Nat} {xs : List UInt8} (hne : ∃ x ∈ xs, x ≠ 0)
    (h : ∀ i < xs.length, xs.getD (i + k) 0 = xs.getD i 0) : k = 0 := by
  rcases Nat.eq_zero_or_pos k with hk | hk
  · exact hk
  exfalso
  -- Backwards from the zeros at the end, since each byte is one of those behind it.
  have hzero : ∀ n i, xs.length ≤ i + n → xs.getD i 0 = 0 := by
    intro n
    induction n with
    | zero =>
      intro i hi
      rw [List.getD_eq_getElem?_getD, List.getElem?_eq_none (by omega), Option.getD_none]
    | succ n ih =>
      intro i hi
      by_cases hlt : i < xs.length
      · rw [← h i hlt]
        exact ih (i + k) (by omega)
      · exact ih i (by omega)
  obtain ⟨x, hx, hx0⟩ := hne
  obtain ⟨i, hi⟩ := List.mem_iff_getElem?.mp hx
  have hi0 := hzero xs.length i (by omega)
  rw [List.getD_eq_getElem?_getD, hi, Option.getD_some] at hi0
  exact hx0 hi0

/-! ## Tables -/

/-- **Type tables are in bijection** with the registries that can be stored. Bytes are read as a
registry, with some of them left over, exactly if the registry is one that is built from types, its
counts and lengths fit, and the bytes are its table with those that are left over behind it; the
table is as long as its length says. -/
theorem decode_eq_ok_iff (bs rest : List UInt8) (r : TypeRegistry) :
    decode bs = .ok (r, rest) ↔ (∃ ts, TypeRegistry.ofList? ts = .ok r) ∧ r.FitsTable ∧
      bs = encode r ++ rest ∧ bs.length = encodedLength r + rest.length := by
  constructor
  · intro h
    obtain ⟨hbs, hfits⟩ := eq_encode_append h
    obtain ⟨ts, hts⟩ := r.exists_types_eq
    refine ⟨⟨ts, TypeRegistry.ofList?_eq_ok hts⟩, hfits, hbs, ?_⟩
    rw [hbs, List.length_append, length_encode]
  · rintro ⟨-, hfits, hbs, -⟩
    rw [hbs]
    exact decode_encode hfits rest

end TypeTable

end HeapImage
