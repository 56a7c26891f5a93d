import HeapImage.Archive.Basic

/-!
# Archive files

* `Archive.toBytes`: the file of an archive: header page, image, type table, maps and checksum.
* `Archive.ofBytes`: the archive in a file, or what keeps the file from being one.
* `ArchiveSource`: bytes in memory or a file, both of which can be opened as an archive.
-/

namespace HeapImage

namespace Archive

/-! ### Writing -/

/-- The bytes of an archive file in front of its checksum. -/
def body (a : Archive) : ByteArray :=
  let page := Bytes.resize (Bytes.ofList a.header.encode) a.header.imageOffset.toNat
  let table := page ++ a.image ++ Bytes.ofList (TypeTable.encode a.types)
  Bytes.resize table a.header.bitmapsOffset.toNat ++ bitmapBytes a.opened a.closed

/-- The bytes of an archive file. -/
def toBytes (a : Archive) : ByteArray :=
  let body := a.body
  let digest := Digest.ofBytes body
  body ++ digest

/-! ### Reading -/

/-- The section of `length` bytes at an offset of a file. -/
def sectionAt (b : ByteArray) (part : Section) (offset length : Nat) :
    Except FormatError ByteArray :=
  match Bytes.slice? b offset length with
  | some bytes => .ok bytes
  | none => .error (.truncated part)

/-- The header at the start of a file, sound or not. -/
def storedHeader? (b : ByteArray) : Option ArchiveHeader :=
  ArchiveHeader.decode? (Bytes.toList (b.extract 0 ArchiveHeader.size))

/-- The header of a file, which takes up a page and has to be sound. -/
def readHeader (b : ByteArray) : Except FormatError ArchiveHeader :=
  if b.size < ArchiveHeader.pageSize then .error (.truncated .header)
  else
    match storedHeader? b with
    | none => .error (.truncated .header)
    | some h => do
      h.check
      .ok h

/-- The stored digest is that of the bytes in front of it. -/
def checkDigest (b : ByteArray) (h : ArchiveHeader) (stored : ByteArray) :
    Except FormatError Unit :=
  if Digest.ofBytes (b.extract 0 h.checksumOffset.toNat) == stored then .ok ()
  else .error .checksumMismatch

/-- The digest stored in a file. -/
def storedDigest (b : ByteArray) (h : ArchiveHeader) : Except FormatError ByteArray :=
  sectionAt b .checksum h.checksumOffset.toNat Digest.size

/-- Reads a map of `bits` bits from the front of the maps in a file; gives the bytes after it. -/
def readMap (bits : UInt64) : StateT ByteArray (Except FormatError) BitMap := fun b =>
  let length := wordSize * wordCount bits.toNat
  match Bytes.slice? b 0 length with
  | none => .error (.truncated .bitmaps)
  | some bytes =>
    match BitMap.ofBytes? bytes bits.toNat with
    | none => .error (.corrupt .strayBits)
    | some m => .ok (m, b.extract length b.size)

/-- Reads the maps of both regions. -/
def readMaps (h : ArchiveHeader) :
    StateT ByteArray (Except FormatError) (RegionMaps × RegionMaps) := do
  let openReferences ← readMap h.openReferenceBits
  let openNatives ← readMap h.openNativeBits
  let closedReferences ← readMap h.closedReferenceBits
  let closedNatives ← readMap h.closedNativeBits
  return (⟨openReferences, openNatives⟩, ⟨closedReferences, closedNatives⟩)

/-- The types in a file. -/
def readTypes (b : ByteArray) (h : ArchiveHeader) : Except FormatError TypeRegistry := do
  let table ← sectionAt b .typeTable h.typesOffset.toNat h.typesLength.toNat
  match TypeTable.decode (Bytes.toList table) with
  -- Bytes behind the last type are ignored.
  | .ok (types, _) => .ok types
  | .error e => .error (.corrupt (.typeTable e))

/-- Reads an archive from the bytes of a file. -/
def ofBytes (b : ByteArray) (verifyChecksum : Bool) : Except FormatError Archive := do
  let h ← readHeader b
  let stored ← storedDigest b h
  if verifyChecksum then checkDigest b h stored
  let types ← readTypes b h
  let bitmaps ← sectionAt b .bitmaps h.bitmapsOffset.toNat
    (h.checksumOffset.toNat - h.bitmapsOffset.toNat)
  let ((opened, closed), _) ← (readMaps h).run bitmaps
  let image ← sectionAt b .image h.imageOffset.toNat h.imageLength.toNat
  return {
    header := h
    image := image
    types := types
    opened := opened
    closed := closed
    isMapped := false }

/-- Opens the file whose contents, or the failure to read them, are given; the image is a private
view of the file. -/
def openFile (contents : Except FileError ByteArray) (verifyChecksum : Bool) :
    Except FormatError Archive :=
  match contents with
  | .error e => .error (.file e)
  | .ok b => do
    let a ← ofBytes b verifyChecksum
    return { a with isMapped := true }

end Archive

/-- Where an archive comes from. -/
inductive ArchiveSource where
  /-- The bytes of a file, already in memory. -/
  | memory (bytes : ByteArray)
  /-- A file with its contents, or the failure to read them. -/
  | file (contents : Except FileError ByteArray)

/-- Reads the archive. -/
def ArchiveSource.open? (source : ArchiveSource) (verifyChecksum : Bool) :
    Except FormatError Archive :=
  match source with
  | memory b => Archive.ofBytes b verifyChecksum
  | file contents => Archive.openFile contents verifyChecksum

end HeapImage
