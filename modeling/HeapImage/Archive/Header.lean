import HeapImage.Error
import HeapImage.Extent

/-!
# Archive headers

An archive file starts with a page whose first 208 bytes are the header: six words that identify the
file and its encoding, then the places of the regions in the image and of the sections in the file.

* `ArchiveHeader`: the fields in file order.
* `ArchiveHeader.encode`, `ArchiveHeader.decode?`: the stored form.
* `ArchiveHeader.check`: the fields fit together, so that every section can be found.
-/

namespace HeapImage

/-- The fields of a header, in file order. -/
structure ArchiveHeader where
  magic : UInt64
  version : UInt32
  flags : UInt32
  endianness : UInt32
  refSize : UInt32
  narrowShift : UInt32
  reserved : UInt32
  narrowBase : UInt64
  regionAlignment : UInt64
  requestedBase : UInt64
  openOffset : UInt64
  openSize : UInt64
  closedOffset : UInt64
  closedSize : UInt64
  imageLength : UInt64
  rootOffset : UInt64
  nativeBase : UInt64
  nativeSize : UInt64
  objectCount : UInt64
  imageOffset : UInt64
  typesOffset : UInt64
  typesLength : UInt64
  bitmapsOffset : UInt64
  bitmapsLength : UInt64
  openReferenceBits : UInt64
  openNativeBits : UInt64
  closedReferenceBits : UInt64
  closedNativeBits : UInt64
  checksumOffset : UInt64
  deriving DecidableEq, Repr

namespace ArchiveHeader

/-- The first eight bytes of an archive, `RAYAHEAP` in ASCII. -/
def expectedMagic : UInt64 := 0x5041454841594152

/-- The version of the format. -/
def expectedVersion : UInt32 := 1

/-- A number that reads differently in the other byte order. -/
def endiannessMark : UInt32 := 0x01020304

/-- The flag of narrow references. -/
def narrowFlag : UInt32 := 1

/-- Bytes of the page that holds the header. -/
def pageSize : Nat := 4096

/-- Bytes of a header. -/
def size : Nat := 208

/-- A header that identifies a file with wide references and says nothing else. -/
def blank : ArchiveHeader where
  magic := expectedMagic
  version := expectedVersion
  flags := 0
  endianness := endiannessMark
  refSize := 8
  narrowShift := 0
  reserved := 0
  narrowBase := 0
  regionAlignment := 0
  requestedBase := 0
  openOffset := 0
  openSize := 0
  closedOffset := 0
  closedSize := 0
  imageLength := 0
  rootOffset := 0
  nativeBase := 0
  nativeSize := 0
  objectCount := 0
  imageOffset := 0
  typesOffset := 0
  typesLength := 0
  bitmapsOffset := 0
  bitmapsLength := 0
  openReferenceBits := 0
  openNativeBits := 0
  closedReferenceBits := 0
  closedNativeBits := 0
  checksumOffset := 0

instance : Inhabited ArchiveHeader := ⟨blank⟩

/-! ### Reading fields -/

/-- References are narrow. -/
def isNarrow (h : ArchiveHeader) : Bool := h.flags &&& narrowFlag != 0

/-- The encoding of the references in the image. -/
def encoding (h : ArchiveHeader) : ReferenceEncoding :=
  if h.isNarrow then .narrow h.narrowBase h.narrowShift else .wide

/-- Stores an encoding. -/
def withEncoding (h : ArchiveHeader) : ReferenceEncoding → ArchiveHeader
  | .wide =>
    { h with
      flags := h.flags &&& (narrowFlag ^^^ 0xffffffff)
      refSize := 8
      narrowBase := 0
      narrowShift := 0 }
  | .narrow base shift =>
    { h with
      flags := h.flags ||| narrowFlag
      refSize := 4
      narrowBase := base
      narrowShift := shift }

/-- The range of a region in the image. -/
def range (h : ArchiveHeader) : Region → Extent
  | .opened => ⟨h.openOffset.toNat, h.openOffset.toNat + h.openSize.toNat⟩
  | .closed => ⟨h.closedOffset.toNat, h.closedOffset.toNat + h.closedSize.toNat⟩

/-- The requested addresses of the native image, cut off at the end of the address space. -/
def native (h : ArchiveHeader) : Extent :=
  ⟨h.nativeBase.toNat, min 0xffffffffffffffff (h.nativeBase.toNat + h.nativeSize.toNat)⟩

/-! ### Stored form -/

/-- The bytes of a number of the header. -/
def encodeWord (w : UInt64) : List UInt8 := Bytes.ofNat 8 w.toNat

/-- The bytes of a short number of the header. -/
def encodeHalf (w : UInt32) : List UInt8 := Bytes.ofNat 4 w.toNat

/-- The bytes of a header. -/
def encode (h : ArchiveHeader) : List UInt8 :=
  encodeWord h.magic ++
    [h.version, h.flags, h.endianness, h.refSize, h.narrowShift, h.reserved].flatMap encodeHalf ++
    [h.narrowBase, h.regionAlignment, h.requestedBase, h.openOffset, h.openSize, h.closedOffset,
      h.closedSize, h.imageLength, h.rootOffset, h.nativeBase, h.nativeSize, h.objectCount,
      h.imageOffset, h.typesOffset, h.typesLength, h.bitmapsOffset, h.bitmapsLength,
      h.openReferenceBits, h.openNativeBits, h.closedReferenceBits, h.closedNativeBits,
      h.checksumOffset].flatMap encodeWord

/-- Reads a number. -/
def word : StateT (List UInt8) Option UInt64 := fun bs =>
  (Bytes.takeNat? 8 bs).map fun (n, rest) => (UInt64.ofNat n, rest)

/-- Reads a short number. -/
def half : StateT (List UInt8) Option UInt32 := fun bs =>
  (Bytes.takeNat? 4 bs).map fun (n, rest) => (UInt32.ofNat n, rest)

/-- Reads the fields of a header in file order. -/
def fields : StateT (List UInt8) Option ArchiveHeader := do
  return {
    magic := ← word
    version := ← half
    flags := ← half
    endianness := ← half
    refSize := ← half
    narrowShift := ← half
    reserved := ← half
    narrowBase := ← word
    regionAlignment := ← word
    requestedBase := ← word
    openOffset := ← word
    openSize := ← word
    closedOffset := ← word
    closedSize := ← word
    imageLength := ← word
    rootOffset := ← word
    nativeBase := ← word
    nativeSize := ← word
    objectCount := ← word
    imageOffset := ← word
    typesOffset := ← word
    typesLength := ← word
    bitmapsOffset := ← word
    bitmapsLength := ← word
    openReferenceBits := ← word
    openNativeBits := ← word
    closedReferenceBits := ← word
    closedNativeBits := ← word
    checksumOffset := ← word }

/-- Reads a header from the front of some bytes; refused if there are too few. -/
def decode? (bs : List UInt8) : Option ArchiveHeader := (fields.run bs).map Prod.fst

/-! ### Checking -/

/-- The end of a part, which has to be an offset. -/
def endOf (part : Section) (offset length : UInt64) : Except FormatError Nat :=
  if offset.toNat + length.toNat < 0x10000000000000000 then .ok (offset.toNat + length.toNat)
  else .error (.corrupt (.extent part offset.toNat length.toNat))

/-- Fails with a corruption unless a condition holds. -/
def require (ok : Bool) (fault : Corruption) : Except FormatError Unit :=
  if ok then .ok () else .error (.corrupt fault)

/-- The file is an archive of this format, and its encoding is one that is supported. -/
def checkIdentity (h : ArchiveHeader) : Except FormatError Unit := do
  if h.magic ≠ expectedMagic then throw .invalidMagic
  if h.version ≠ expectedVersion then
    throw (.incompatibleVersion expectedVersion.toNat h.version.toNat)
  if h.endianness ≠ endiannessMark then throw .endiannessMismatch
  require (h.refSize == if h.isNarrow then 4 else 8) (.referenceSize h.refSize.toNat)
  require (!h.isNarrow || h.narrowShift.toNat ≤ ReferenceEncoding.maxShift)
    (.narrowShift h.narrowShift.toNat)

/-- Both regions lie in the image, the open one first, and the root array starts in the open one. -/
def checkRegions (h : ArchiveHeader) : Except FormatError Unit := do
  let g := h.regionAlignment.toNat
  -- Only powers of two have no bit in common with the number below them.
  require (g != 0 && alignRest g g == 0) (.regionAlignment g)
  require (h.requestedBase.toNat % g == 0 && h.requestedBase != 0)
    (.requestedBase h.requestedBase.toNat)
  require (h.openOffset == 0 && h.openSize ≤ h.closedOffset && h.closedOffset.toNat % g == 0 &&
    h.imageLength.toNat % g == 0) .regionLayout
  let closedEnd ← endOf .closedRegion h.closedOffset h.closedSize
  require (closedEnd ≤ h.imageLength.toNat) .regionLayout
  require (h.rootOffset.toNat % 8 == 0) (.rootOffset h.rootOffset.toNat)
  let rootEnd ← endOf .rootArray h.rootOffset 16
  require (rootEnd ≤ h.openSize.toNat) (.rootOffset h.rootOffset.toNat)

/-- The maps have a bit for every slot and every word of their regions. -/
def checkBitCounts (h : ArchiveHeader) : Except FormatError Unit :=
  require (h.openReferenceBits == h.openSize / h.refSize.toUInt64 &&
    h.openNativeBits == h.openSize / 8 &&
    h.closedReferenceBits == h.closedSize / h.refSize.toUInt64 &&
    h.closedNativeBits == h.closedSize / 8) .bitmapSizes

/-- The sections follow each other in the file. -/
def checkSections (h : ArchiveHeader) : Except FormatError Unit := do
  require (h.imageOffset.toNat % pageSize == 0) .sectionLayout
  let imageEnd ← endOf .image h.imageOffset h.imageLength
  -- Sections may lie apart, but not in each other or in another order.
  require (imageEnd ≤ h.typesOffset.toNat) .sectionLayout
  let typesEnd ← endOf .typeTable h.typesOffset h.typesLength
  require (typesEnd ≤ h.bitmapsOffset.toNat) .sectionLayout
  let bitmapsEnd ← endOf .bitmaps h.bitmapsOffset h.bitmapsLength
  require (bitmapsEnd ≤ h.checksumOffset.toNat) .sectionLayout
  discard (endOf .checksum h.checksumOffset 32)

/-- The fields fit together. -/
def check (h : ArchiveHeader) : Except FormatError Unit := do
  h.checkIdentity
  h.checkRegions
  h.checkBitCounts
  h.checkSections

end ArchiveHeader

end HeapImage
