import HeapImage.Proofs.ByteView
import HeapImage.Proofs.Steps
import HeapImage.Types.Table

/-! # Type tables read back

Reading the stored form of a registry gives the registry, whatever bytes come after it. Counts and
lengths are stored in four bytes, so they have to fit.

* `TypeRegistry.FitsTable`: the limits of a type table.
* `TypeTable.decodeInfos_encode`: the entries of a table read back.
* `TypeRegistry.ofList?_eq_ok`: every registry is built from its own types.
* `TypeTable.decode_encode`: the whole table. -/

namespace HeapImage

/-- A number that fits in four bytes. -/
abbrev FitsNumber (n : Nat) : Prop := n < 2 ^ 32

/-- The field count of a record fits in a type table. -/
def TypeKind.FitsTable : TypeKind → Prop
  | .record fields => FitsNumber fields.length
  | _ => True

/-- All counts and lengths of a registry fit in a type table. -/
structure TypeRegistry.FitsTable (r : TypeRegistry) : Prop where
  size : FitsNumber r.size
  name : ∀ t ∈ r.types.toList, FitsNumber t.name.utf8ByteSize
  kind : ∀ t ∈ r.types.toList, t.kind.FitsTable

namespace TypeTable

/-! ## Entries -/

/-- A number that fits reads back. -/
theorem decodeNumber_ofNat {n : Nat} (hn : FitsNumber n) (rest : List UInt8) :
    decodeNumber (Bytes.ofNat numberSize n ++ rest) = .ok (n, rest) := by
  have hmod : n % 256 ^ numberSize = n :=
    Nat.mod_eq_of_lt (by rw [FitsNumber] at hn; rw [numberSize]; omega)
  rw [decodeNumber, Bytes.takeNat?_ofNat, hmod]

/-- **A name is cut off** where its length leaves the four bytes that are stored of it. -/
theorem decodeName_encodeName_append {front back : String} {n : Nat}
    (hfront : FitsNumber front.utf8ByteSize) (hback : back.utf8ByteSize = n * 2 ^ 32)
    (rest : List UInt8) : decodeName (encodeName (front ++ back) ++ rest) =
      .ok (front, Bytes.toList back.toUTF8 ++ rest) := by
  have hbytes : Bytes.toList (front ++ back).toUTF8 =
      Bytes.toList front.toUTF8 ++ Bytes.toList back.toUTF8 := by
    rw [String.toUTF8_eq_toByteArray, String.toByteArray_append, Bytes.toList_append]
    rfl
  have hlength : (Bytes.toList (front ++ back).toUTF8).length % 256 ^ numberSize =
      front.utf8ByteSize := by
    rw [hbytes, List.length_append]
    change (front.utf8ByteSize + back.utf8ByteSize) % 256 ^ 4 = front.utf8ByteSize
    rw [FitsNumber] at hfront
    omega
  have hvalid : (Bytes.ofList (Bytes.toList front.toUTF8)).IsValidUTF8 := front.isValidUTF8
  have htext : String.fromUTF8? (Bytes.ofList (Bytes.toList front.toUTF8)) = some front := by
    rw [String.fromUTF8?, dif_pos hvalid]
    rfl
  have htake : Bytes.take? front.utf8ByteSize
      (Bytes.toList front.toUTF8 ++ (Bytes.toList back.toUTF8 ++ rest)) =
        some (Bytes.toList front.toUTF8, Bytes.toList back.toUTF8 ++ rest) := Bytes.take?_append ..
  rw [encodeName, decodeName]
  dsimp only
  rw [List.append_assoc, decodeNumber, Bytes.takeNat?_ofNat, hlength, hbytes, List.append_assoc]
  dsimp only [bind, Except.bind]
  rw [htake]
  dsimp only
  rw [htext]

/-- A name that fits is read back. -/
theorem decodeName_encodeName {name : String} (hname : FitsNumber name.utf8ByteSize)
    (rest : List UInt8) : decodeName (encodeName name ++ rest) = .ok (name, rest) := by
  have happend := decodeName_encodeName_append hname (n := 0) (String.utf8ByteSize_empty) rest
  rwa [String.append_empty] at happend

/-- Fields read back from their tags. -/
theorem decodeFields_tags (fields : List FieldKind) (rest : List UInt8) :
    decodeFields fields.length (fields.map FieldKind.tag ++ rest) = .ok (fields, rest) := by
  induction fields with
  | nil => rfl
  | cons k ks ih =>
    rw [List.map_cons, List.cons_append, List.length_cons, decodeFields, FieldKind.ofTag?_tag]
    dsimp only
    rw [ih]
    rfl

/-- A kind that fits reads back. -/
theorem decodeKind_encodeKind {k : TypeKind} (hfits : k.FitsTable) (hfault : k.fault? = none)
    (rest : List UInt8) : decodeKind (encodeKind k ++ rest) = .ok (k, rest) := by
  cases k with
  | record fields =>
    rw [encodeKind, List.cons_append, List.append_assoc]
    change (decodeNumber (Bytes.ofNat numberSize fields.length ++ _) >>= _) = _
    rw [decodeNumber_ofNat hfits]
    change (decodeFields fields.length (fields.map FieldKind.tag ++ rest) >>= _) = _
    rw [decodeFields_tags]
    rfl
  | scalarArray n =>
    have hn : n < 256 := by
      rw [TypeKind.fault?] at hfault
      split at hfault
      · rename_i hmem
        simp only [TypeKind.supportedElementSizes, List.mem_cons, List.not_mem_nil,
          or_false] at hmem
        omega
      · cases hfault
    change Except.ok (TypeKind.scalarArray (UInt8.ofNat n).toNat, rest) = _
    rw [UInt8.toNat_ofNat_of_lt' hn]
  | referenceArray => rfl

/-- A type that fits reads back. -/
theorem decodeInfo_encodeInfo {t : TypeInfo} (hname : FitsNumber t.name.utf8ByteSize)
    (hkind : t.kind.FitsTable) (hfault : t.kind.fault? = none) (rest : List UInt8) :
    decodeInfo (encodeInfo t ++ rest) = .ok (t, rest) := by
  rw [encodeInfo, decodeInfo, List.append_assoc, decodeName_encodeName hname]
  change (decodeKind (encodeKind t.kind ++ rest) >>= _) = _
  rw [decodeKind_encodeKind hkind hfault]
  rfl

/-- Types that fit read back. -/
theorem decodeInfos_encode {ts : List TypeInfo}
    (hts : ∀ t ∈ ts, FitsNumber t.name.utf8ByteSize ∧ t.kind.FitsTable ∧ t.kind.fault? = none)
    (rest : List UInt8) :
    decodeInfos ts.length (ts.flatMap encodeInfo ++ rest) = .ok (ts, rest) := by
  induction ts with
  | nil => rfl
  | cons t ts ih =>
    obtain ⟨hname, hkind, hfault⟩ := hts t (List.mem_cons_self ..)
    rw [List.flatMap_cons, List.append_assoc, List.length_cons, decodeInfos,
      decodeInfo_encodeInfo hname hkind hfault]
    change (decodeInfos ts.length (ts.flatMap encodeInfo ++ rest) >>= _) = _
    rw [ih fun u hu => hts u (List.mem_cons_of_mem _ hu)]
    rfl

end TypeTable

/-! ## Registries -/

namespace TypeRegistry

/-- Registries with the same types are equal. -/
theorem eq_of_types_eq {r s : TypeRegistry} (h : r.types = s.types) : r = s := by
  cases r
  cases s
  cases h
  rfl

/-- Adding types of another registry to those in front of them. -/
theorem foldlM_add?_eq_ok {r : TypeRegistry} {ts : List TypeInfo} {s : TypeRegistry}
    (h : r.types.toList = s.types.toList ++ ts) : ts.foldlM add? s = .ok r := by
  induction ts generalizing s with
  | nil =>
    rw [List.append_nil] at h
    rw [eq_of_types_eq (Array.toList_inj.mp h)]
    rfl
  | cons t ts ih =>
    have hmem : t ∈ r.types := by
      rw [← Array.mem_toList_iff, h]
      exact List.mem_append_right _ (List.mem_cons_self ..)
    -- The names of a registry are distinct, so the next type is never refused for its name.
    have hname : s.hasName t.name = false := by
      have hdistinct := r.distinct
      rw [h, List.map_append, List.map_cons, List.nodup_append] at hdistinct
      rw [hasName_eq_false_iff]
      intro hs
      exact hdistinct.2.2 _ hs _ (List.mem_cons_self ..) rfl
    obtain ⟨s', hadd, htypes⟩ : ∃ s', add? s t = .ok s' ∧ s'.types = s.types.push t := by
      rw [add?]
      split
      · rename_i fault hfault
        rw [r.supported t hmem] at hfault
        cases hfault
      · exact ⟨_, dif_pos hname, rfl⟩
    rw [List.foldlM_cons, hadd]
    apply ih
    rw [htypes, Array.toList_push, List.append_assoc, h]
    rfl

/-- Every registry is built from the types after its root array. -/
theorem ofList?_eq_ok {r : TypeRegistry} {ts : List TypeInfo}
    (h : r.types.toList = .rootArray :: ts) : ofList? ts = .ok r :=
  foldlM_add?_eq_ok h

/-- Every registry starts with the root array. -/
theorem exists_types_eq (r : TypeRegistry) : ∃ ts, r.types.toList = .rootArray :: ts := by
  have hfirst := r.first
  rw [← Array.getElem?_toList] at hfirst
  cases htypes : r.types.toList with
  | nil =>
    rw [htypes] at hfirst
    cases hfirst
  | cons t ts =>
    rw [htypes] at hfirst
    exact ⟨ts, by rw [Option.some.inj hfirst]⟩

end TypeRegistry

/-! ## Tables -/

/-- **A type table reads back** as the registry it stores. -/
theorem TypeTable.decode_encode {r : TypeRegistry} (h : r.FitsTable) (rest : List UInt8) :
    decode (encode r ++ rest) = .ok (r, rest) := by
  obtain ⟨ts, hts⟩ := r.exists_types_eq
  have hregistry : registryOf r.types.toList = .ok r := by
    rw [hts, registryOf, if_pos rfl, TypeRegistry.ofList?_eq_ok hts]
  have hinfos : decodeInfos r.types.toList.length (r.types.toList.flatMap encodeInfo ++ rest) =
      .ok (r.types.toList, rest) := decodeInfos_encode
    (fun t ht => ⟨h.name t ht, h.kind t ht, r.supported t (Array.mem_toList_iff.mp ht)⟩) rest
  rw [Array.length_toList] at hinfos
  rw [encode, decode, List.append_assoc, decodeNumber_ofNat h.size]
  change (decodeInfos r.types.size (r.types.toList.flatMap encodeInfo ++ rest) >>= _) = _
  rw [hinfos]
  change (registryOf r.types.toList >>= _) = _
  rw [hregistry]
  rfl

/-! ## Tables that read back as others -/

namespace TypeTable

variable {front tail : String} {kind : TypeKind} {n : Nat}

/-- What is behind the part of a name that is read is taken for the kind of the type. -/
theorem decodeInfo_encodeInfo_append (hfront : FitsNumber front.utf8ByteSize)
    (htail : ("\x02" ++ tail).utf8ByteSize = n * 2 ^ 32) (rest : List UInt8) :
    ∃ rest', decodeInfo (encodeInfo ⟨front ++ ("\x02" ++ tail), kind⟩ ++ rest) =
      .ok (⟨front, .referenceArray⟩, rest') := by
  have hname := decodeName_encodeName_append hfront htail (encodeKind kind ++ rest)
  have htag : Bytes.toList ("\x02" ++ tail).toUTF8 = 2 :: Bytes.toList tail.toUTF8 := by
    rw [String.toUTF8_eq_toByteArray, String.toByteArray_append, Bytes.toList_append]
    rfl
  rw [encodeInfo, List.append_assoc, decodeInfo, hname]
  dsimp only [bind, Except.bind]
  rw [htag, List.cons_append]
  exact ⟨_, rfl⟩

/-- **A type table with a name that is cut off** may read back as another registry. -/
theorem decode_encode_append {r r' : TypeRegistry} (hfront : FitsNumber front.utf8ByteSize)
    (htail : ("\x02" ++ tail).utf8ByteSize = n * 2 ^ 32)
    (hr : r.types.toList = [.rootArray, ⟨front ++ ("\x02" ++ tail), kind⟩])
    (hr' : r'.types.toList = [.rootArray, ⟨front, .referenceArray⟩]) (rest : List UInt8) :
    ∃ rest', decode (encode r ++ rest) = .ok (r', rest') := by
  obtain ⟨rest', hinfo⟩ : ∃ rest', decodeInfo (encodeInfo ⟨front ++ ("\x02" ++ tail), kind⟩ ++
      rest) = .ok (⟨front, .referenceArray⟩, rest') :=
    decodeInfo_encodeInfo_append hfront htail rest
  have hroot := decodeInfo_encodeInfo (t := .rootArray)
    (show FitsNumber TypeInfo.rootArray.name.utf8ByteSize by decide) trivial rfl
    (encodeInfo ⟨front ++ ("\x02" ++ tail), kind⟩ ++ rest)
  have hsize : r.size = 2 := by
    rw [TypeRegistry.size, ← Array.length_toList, hr]
    rfl
  have hinfos : decodeInfos 2 (r.types.toList.flatMap encodeInfo ++ rest) =
      .ok ([.rootArray, ⟨front, .referenceArray⟩], rest') := by
    rw [hr, List.flatMap_cons, List.flatMap_cons, List.flatMap_nil, List.append_nil,
      List.append_assoc, decodeInfos, hroot]
    dsimp only [bind, Except.bind]
    rw [decodeInfos, hinfo]
    rfl
  have hregistry : registryOf [.rootArray, ⟨front, .referenceArray⟩] = .ok r' := by
    rw [registryOf, if_pos rfl, TypeRegistry.ofList?_eq_ok hr']
  refine ⟨rest', ?_⟩
  rw [encode, decode, List.append_assoc, hsize, decodeNumber_ofNat (by decide)]
  dsimp only [bind, Except.bind]
  rw [hinfos]
  dsimp only
  rw [hregistry]

end TypeTable

/-- 4 GiB less a byte of blanks. -/
@[irreducible]
def blanks : String := String.ofList (List.replicate (2 ^ 32 - 1) ' ')

/-- A blank is one byte. -/
theorem utf8ByteSize_replicate (n : Nat) :
    (String.ofList (List.replicate n ' ')).utf8ByteSize = n := by
  rw [← String.size_toByteArray, String.toByteArray_ofList]
  induction n with
  | zero => rfl
  | succ n ih =>
    rw [List.replicate_succ, List.utf8Encode_cons, ByteArray.size_append, ih, Nat.add_comm]
    rfl

/-- The blanks and one more byte are 4 GiB. -/
theorem utf8ByteSize_blanks : ("\x02" ++ blanks).utf8ByteSize = 1 * 2 ^ 32 := by
  have htag : "\x02".utf8ByteSize = 1 := by decide
  have hblanks : blanks.utf8ByteSize = 2 ^ 32 - 1 := by
    unfold blanks
    exact utf8ByteSize_replicate _
  rw [String.utf8ByteSize_append]
  omega

namespace TypeRegistry

/-- Scalars with a name that does not fit in a type table. -/
def oversized : TypeRegistry where
  types := #[.rootArray, ⟨"A" ++ ("\x02" ++ blanks), .scalarArray 8⟩]
  first := rfl
  supported := by
    intro t ht
    simp only [List.mem_toArray, List.mem_cons, List.not_mem_nil, or_false] at ht
    rcases ht with rfl | rfl
    · rfl
    · rfl
  distinct := by
    have hne : "RootArray" ≠ "A" ++ ("\x02" ++ blanks) := by
      intro h
      have hsize := congrArg String.utf8ByteSize h
      rw [String.utf8ByteSize_append, utf8ByteSize_blanks] at hsize
      exact absurd hsize (by decide)
    simpa [TypeInfo.rootArray] using hne

/-- References with the first letter of that name. -/
def cutOff : TypeRegistry where
  types := #[.rootArray, ⟨"A", .referenceArray⟩]
  first := rfl
  supported := by decide
  distinct := by decide

end TypeRegistry

namespace TypeTable

/-- The type table of scalars with such a name reads back as one of references. -/
theorem decode_oversized (rest : List UInt8) :
    ∃ rest', decode (encode .oversized ++ rest) = .ok (.cutOff, rest') :=
  decode_encode_append (by decide) utf8ByteSize_blanks rfl rfl rest

/-- The length of a table with one type besides the root array. -/
theorem length_encode_eq {r : TypeRegistry} {t : TypeInfo}
    (h : r.types.toList = [.rootArray, t]) : (encode r).length = 18 + infoLength t := by
  rw [encode, h, List.flatMap_cons, List.flatMap_cons, List.flatMap_nil, List.append_nil,
    List.length_append, List.length_append, Bytes.length_ofNat, length_encodeInfo,
    length_encodeInfo, ← Nat.add_assoc]
  rfl

/-- The table has the whole name in it. -/
theorem length_encode_oversized : (encode .oversized).length = 2 ^ 32 + 25 := by
  have hname : ("A" ++ ("\x02" ++ blanks)).utf8ByteSize = 1 + 1 * 2 ^ 32 := by
    rw [String.utf8ByteSize_append, utf8ByteSize_blanks]
    rfl
  have hinfo : ∀ name : String, infoLength ⟨name, .scalarArray 8⟩ = 4 + name.utf8ByteSize + 2 :=
    fun _ => rfl
  have htypes : TypeRegistry.oversized.types.toList =
    [.rootArray, ⟨"A" ++ ("\x02" ++ blanks), .scalarArray 8⟩] := rfl
  have hlength := length_encode_eq htypes
  rw [hinfo, hname] at hlength
  omega

end TypeTable

end HeapImage
