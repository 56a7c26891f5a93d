import HeapImage.Proofs.FileSections
import HeapImage.Proofs.SoundArchives
import HeapImage.Proofs.TypeTableCodec

/-! # Archive files as they are written

A file is written front to back: the header, the image, the type table, the maps and the checksum.
Of the places in the header, writing looks only at those of the image and of the maps. A file reads
back if its header gives the places where the other sections have come to stand.

* `Archive.lead`, `Archive.front`: the file in front of the image, and in front of the maps.
* `Archive.get_toBytes_table`: where the type table comes to stand.
* `Archive.InPlace`: the header says where the sections are.
* `Archive.ofBytes_of_decode`, `Archive.ofBytes_of_inPlace`: the file of an archive with a sound
  header reads back, with the types that its type table stands for. -/

namespace HeapImage

/-- A digest has 32 bytes. -/
theorem Digest.size_ofBytes (b : ByteArray) : (Digest.ofBytes b).size = Digest.size := by
  simp only [ofBytes, State.toBytes, Bytes.size_ofList, List.flatMap_cons, List.flatMap_nil,
    List.length_append, bigEndian, List.length_reverse, Bytes.length_ofNat, List.length_nil, size]

namespace Archive

variable {a : Archive}

/-! ## The file as a row of sections -/

/-- The bytes in front of the image. -/
def lead (a : Archive) : ByteArray :=
  Bytes.resize (Bytes.ofList a.header.encode) a.header.imageOffset.toNat

/-- The header, the image and the type table, up to the maps. -/
def front (a : Archive) : ByteArray :=
  Bytes.resize (a.lead ++ a.image ++ Bytes.ofList (TypeTable.encode a.types))
    a.header.bitmapsOffset.toNat

/-- The lead ends where the image starts. -/
theorem size_lead (a : Archive) : a.lead.size = a.header.imageOffset.toNat := Bytes.size_resize ..

/-- The front ends where the maps start. -/
theorem size_front (a : Archive) : a.front.size = a.header.bitmapsOffset.toNat :=
  Bytes.size_resize ..

/-- The body is the front and the maps behind it. -/
theorem body_eq (a : Archive) : a.body = a.front ++ bitmapBytes a.opened a.closed := rfl

/-- The body ends behind the maps. -/
theorem size_body (a : Archive) :
    a.body.size = a.header.bitmapsOffset.toNat + (bitmapBytes a.opened a.closed).size := by
  rw [body_eq, ByteArray.size_append, size_front]

/-- The file ends with its checksum. -/
theorem size_toBytes (a : Archive) : a.toBytes.size =
    a.header.bitmapsOffset.toNat + (bitmapBytes a.opened a.closed).size + Digest.size := by
  rw [toBytes, ByteArray.size_append, size_body, Digest.size_ofBytes]

/-- The type table comes to stand right behind the image, wherever the header says it is, and there
are zeros up to the maps. -/
theorem get_toBytes_table {i : Nat}
    (h : a.header.imageOffset.toNat + a.image.size + i < a.header.bitmapsOffset.toNat) :
    Bytes.get a.toBytes (a.header.imageOffset.toNat + a.image.size + i) =
      (TypeTable.encode a.types).getD i 0 := by
  have hlead : (a.lead ++ a.image).size = a.header.imageOffset.toNat + a.image.size := by
    rw [ByteArray.size_append, size_lead]
  have hbody : a.header.imageOffset.toNat + a.image.size + i < a.body.size := by
    rw [size_body]
    omega
  rw [toBytes, Bytes.get_append, if_pos hbody, body_eq, Bytes.get_append,
    if_pos (by rw [size_front]; exact h), front, Bytes.get_resize, if_pos h, Bytes.get_append,
    if_neg (by omega), hlead, Nat.add_sub_cancel_left, Bytes.get_ofList]

/-! ## Reading the sections -/

/-- The header says where the sections are written, and how many bits the maps have. The table may
be given more room than it takes up. -/
structure InPlace (a : Archive) : Prop where
  /-- The header stands in front of the image, or the image starts with it. -/
  stored : ArchiveHeader.size ≤ (a.lead ++ a.image).size ∧
    ArchiveHeader.decode? (Bytes.toList ((a.lead ++ a.image).extract 0 ArchiveHeader.size)) =
      some a.header
  imageLength : a.header.imageLength.toNat = a.image.size
  typesOffset : a.header.typesOffset.toNat = a.header.imageOffset.toNat + a.image.size
  typesLength : (TypeTable.encode a.types).length ≤ a.header.typesLength.toNat
  typesEnd : a.header.typesOffset.toNat + a.header.typesLength.toNat ≤
    a.header.bitmapsOffset.toNat
  checksumOffset : a.header.checksumOffset.toNat =
    a.header.bitmapsOffset.toNat + (bitmapBytes a.opened a.closed).size
  pageSize_le : ArchiveHeader.pageSize ≤ a.header.checksumOffset.toNat + Digest.size
  openReferences : a.header.openReferenceBits.toNat = a.opened.references.size
  openNatives : a.header.openNativeBits.toNat = a.opened.natives.size
  closedReferences : a.header.closedReferenceBits.toNat = a.closed.references.size
  closedNatives : a.header.closedNativeBits.toNat = a.closed.natives.size

/-- The header stands in front of an image that leaves room for it. -/
theorem stored_of_size_le (h : ArchiveHeader.size ≤ a.header.imageOffset.toNat) :
    ArchiveHeader.size ≤ (a.lead ++ a.image).size ∧
      ArchiveHeader.decode? (Bytes.toList ((a.lead ++ a.image).extract 0 ArchiveHeader.size)) =
        some a.header := by
  have hencode : (Bytes.ofList a.header.encode).size = ArchiveHeader.size := by
    rw [Bytes.size_ofList, ArchiveHeader.length_encode]
  have hlead : a.lead = Bytes.ofList a.header.encode ++
      Bytes.zeros (a.header.imageOffset.toNat - (Bytes.ofList a.header.encode).size) :=
    Bytes.resize_of_le (hencode ▸ h)
  rw [← size_lead] at h
  refine ⟨?_, ?_⟩
  · rw [ByteArray.size_append]
    omega
  · rw [Bytes.extract_append_of_le h, hlead, ByteArray.extract_append_eq_left hencode.symm]
    exact ArchiveHeader.decode?_encode _

/-- A section is cut out from between others. -/
theorem sectionAt_append {b part : ByteArray} {i n : Nat} (s : Section) (front rest : ByteArray)
    (hb : b = front ++ (part ++ rest)) (hi : front.size = i) (hn : part.size = n) :
    sectionAt b s i n = .ok part := by
  rw [sectionAt, hb, Bytes.slice?_append hi hn]

namespace InPlace

/-- With all sections in place, the body ends where the checksum starts. -/
theorem size_body (h : a.InPlace) : a.body.size = a.header.checksumOffset.toNat := by
  rw [Archive.size_body, h.checksumOffset]

/-- The front with all sections in place: header, image, types and padding. -/
theorem front_eq (h : a.InPlace) :
    a.front = a.lead ++ a.image ++ Bytes.ofList (TypeTable.encode a.types) ++
      Bytes.zeros (a.header.bitmapsOffset.toNat -
        (a.lead ++ a.image ++ Bytes.ofList (TypeTable.encode a.types)).size) := by
  apply Bytes.resize_of_le
  have htypes := h.typesOffset
  have hlength := h.typesLength
  have hend := h.typesEnd
  rw [ByteArray.size_append, ByteArray.size_append, size_lead, Bytes.size_ofList]
  omega

/-- The header reads back from the file. -/
theorem readHeader_toBytes (h : a.InPlace) (hcheck : a.header.check = .ok ()) :
    readHeader a.toBytes = .ok a.header := by
  obtain ⟨hsize, hdecode⟩ := h.stored
  refine readHeader_eq_ok.mpr ⟨?_, ?_, hcheck⟩
  · have hpage := h.pageSize_le
    rw [h.checksumOffset] at hpage
    rw [size_toBytes]
    exact hpage
  · have hbytes : ∃ rest, a.toBytes = (a.lead ++ a.image) ++ rest := by
      rw [toBytes, body_eq, h.front_eq]
      simp only [ByteArray.append_assoc]
      exact ⟨_, rfl⟩
    obtain ⟨rest, hrest⟩ := hbytes
    have hextract : a.toBytes.extract 0 ArchiveHeader.size =
        (a.lead ++ a.image).extract 0 ArchiveHeader.size := by
      rw [hrest]
      exact Bytes.extract_append_of_le hsize
    rw [storedHeader?, hextract]
    exact hdecode

/-- The checksum reads back from the file. -/
theorem storedDigest_toBytes (h : a.InPlace) :
    storedDigest a.toBytes a.header = .ok (Digest.ofBytes a.body) :=
  sectionAt_append .checksum a.body ByteArray.empty (by rw [ByteArray.append_empty]; rfl)
    h.size_body (Digest.size_ofBytes _)

/-- The checksum of the file is right. -/
theorem checkDigest_toBytes (h : a.InPlace) :
    checkDigest a.toBytes a.header (Digest.ofBytes a.body) = .ok () := by
  have hbody : a.toBytes.extract 0 a.header.checksumOffset.toNat = a.body :=
    ByteArray.extract_append_eq_left h.size_body.symm
  have hself : (Digest.ofBytes a.body == Digest.ofBytes a.body) = true :=
    beq_self_eq_true (Digest.ofBytes a.body).data
  rw [checkDigest, hbody, if_pos hself]

/-- The type table is read for what its bytes stand for. -/
theorem readTypes_toBytes (h : a.InPlace) {r : TypeRegistry}
    (hdecode : ∀ rest, ∃ rest', TypeTable.decode (TypeTable.encode a.types ++ rest) =
      .ok (r, rest')) : readTypes a.toBytes a.header = .ok r := by
  have hlength := h.typesLength
  have hend := h.typesEnd
  have hoffset := h.typesOffset
  have hlead : (a.lead ++ a.image).size = a.header.typesOffset.toNat := by
    rw [ByteArray.size_append, size_lead, hoffset]
  have htable : (Bytes.ofList (TypeTable.encode a.types)).size =
      (TypeTable.encode a.types).length := Bytes.size_ofList _
  -- The room of the table that it does not take up is filled with zeros.
  have hsection : sectionAt a.toBytes .typeTable a.header.typesOffset.toNat
      a.header.typesLength.toNat = .ok (Bytes.ofList (TypeTable.encode a.types) ++
        Bytes.zeros (a.header.typesLength.toNat - (TypeTable.encode a.types).length)) := by
    have hzeros : a.header.bitmapsOffset.toNat -
        (a.lead ++ a.image ++ Bytes.ofList (TypeTable.encode a.types)).size =
          (a.header.typesLength.toNat - (TypeTable.encode a.types).length) +
            (a.header.bitmapsOffset.toNat -
              (a.header.typesOffset.toNat + a.header.typesLength.toNat)) := by
      rw [ByteArray.size_append, hlead, htable]
      omega
    have hbytes : ∃ rest, a.toBytes = (a.lead ++ a.image) ++
        ((Bytes.ofList (TypeTable.encode a.types) ++
          Bytes.zeros (a.header.typesLength.toNat - (TypeTable.encode a.types).length)) ++
            rest) := by
      rw [toBytes, body_eq, h.front_eq, hzeros, ← Bytes.zeros_append]
      simp only [ByteArray.append_assoc]
      exact ⟨_, rfl⟩
    obtain ⟨rest, hrest⟩ := hbytes
    apply sectionAt_append .typeTable (a.lead ++ a.image) rest hrest hlead
    rw [ByteArray.size_append, htable, Bytes.size_zeros]
    omega
  obtain ⟨rest, hrest⟩ := hdecode (Bytes.toList
    (Bytes.zeros (a.header.typesLength.toNat - (TypeTable.encode a.types).length)))
  rw [readTypes, hsection]
  dsimp only [bind, Except.bind]
  rw [Bytes.toList_append,
    show Bytes.toList (Bytes.ofList (TypeTable.encode a.types)) = TypeTable.encode a.types from rfl,
    hrest]

/-- The maps are where the header says. -/
theorem bitmaps_toBytes (h : a.InPlace) :
    sectionAt a.toBytes .bitmaps a.header.bitmapsOffset.toNat
      (a.header.checksumOffset.toNat - a.header.bitmapsOffset.toNat) =
        .ok (bitmapBytes a.opened a.closed) := by
  apply sectionAt_append .bitmaps a.front (Digest.ofBytes a.body)
  · rw [toBytes, body_eq, ByteArray.append_assoc]
  · exact a.size_front
  · rw [h.checksumOffset, Nat.add_sub_cancel_left]

/-- The image is where the header says. -/
theorem image_toBytes (h : a.InPlace) :
    sectionAt a.toBytes .image a.header.imageOffset.toNat a.header.imageLength.toNat =
      .ok a.image := by
  have hbytes : ∃ rest, a.toBytes = a.lead ++ (a.image ++ rest) := by
    rw [toBytes, body_eq, h.front_eq]
    simp only [ByteArray.append_assoc]
    exact ⟨_, rfl⟩
  obtain ⟨rest, hrest⟩ := hbytes
  exact sectionAt_append .image a.lead rest hrest a.size_lead h.imageLength.symm

end InPlace

/-- The archive with other types. -/
def withTypes (a : Archive) (r : TypeRegistry) : Archive := { a with types := r }

/-- **Reading the file of an archive** gives the archive with the types that its type table stands
for. -/
theorem ofBytes_of_decode (h : a.InPlace) (hcheck : a.header.check = .ok ()) {r : TypeRegistry}
    (hdecode : ∀ rest, ∃ rest', TypeTable.decode (TypeTable.encode a.types ++ rest) =
      .ok (r, rest')) (hmapped : a.isMapped = false) (verifyChecksum : Bool) :
    ofBytes a.toBytes verifyChecksum = .ok (a.withTypes r) :=
  ofBytes_eq_ok.mpr ⟨_, _, _, h.readHeader_toBytes hcheck, h.storedDigest_toBytes,
    fun _ => h.checkDigest_toBytes, h.readTypes_toBytes hdecode, h.bitmaps_toBytes,
    readMaps_bitmapBytes h.openReferences h.openNatives h.closedReferences h.closedNatives,
    h.image_toBytes, hmapped⟩

/-- **Reading the file of an archive** in memory gives the archive, with or without a look at the
checksum. -/
theorem ofBytes_of_inPlace (h : a.InPlace) (hcheck : a.header.check = .ok ())
    (hfits : a.types.FitsTable) (hmapped : a.isMapped = false) (verifyChecksum : Bool) :
    ofBytes a.toBytes verifyChecksum = .ok a :=
  ofBytes_of_decode h hcheck (fun rest => ⟨rest, TypeTable.decode_encode hfits rest⟩) hmapped
    verifyChecksum

end Archive

end HeapImage
