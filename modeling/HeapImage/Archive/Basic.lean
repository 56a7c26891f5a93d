import HeapImage.Archive.Digest
import HeapImage.Archive.Header
import HeapImage.Dump.Session

/-!
# Archives

An archive is an image with everything needed to load it elsewhere: a header, the types of its
objects and the maps of its regions.

* `Archive`, `Archive.assemble`: an archive, and one built from its parts.
* `Archive.checkMaps`: the maps are those that the image's objects call for.
* `Archive.dump`: a selection of a graph as an archive.
-/

namespace HeapImage

/-- A heap in stored form. -/
structure Archive where
  header : ArchiveHeader
  /-- The open region, padding, the closed region, and padding. -/
  image : ByteArray
  types : TypeRegistry
  opened : RegionMaps
  closed : RegionMaps
  /-- The image is a private view of a file. -/
  isMapped : Bool

namespace Archive

/-- The maps of a region. -/
def maps (a : Archive) : Region → RegionMaps
  | .opened => a.opened
  | .closed => a.closed

/-- The encoding of the references in the image. -/
def encoding (a : Archive) : ReferenceEncoding := a.header.encoding

/-- Bytes of a reference slot. -/
def slotSize (a : Archive) : Nat := a.encoding.slotSize

/-- The bytes of the four maps in file order. -/
def bitmapBytes (opened closed : RegionMaps) : ByteArray :=
  opened.references.bytes ++ opened.natives.bytes ++ closed.references.bytes ++
    closed.natives.bytes

/-- An archive of the given parts, with the places of its sections in the header: the image after
the header page, the type table, the maps at the next word boundary, and the checksum. -/
def assemble (header : ArchiveHeader) (image : ByteArray) (types : TypeRegistry)
    (opened closed : RegionMaps) : Archive :=
  let typesOffset := ArchiveHeader.pageSize + image.size
  let typesLength := (TypeTable.encode types).length
  let bitmapsOffset := alignUp (typesOffset + typesLength) wordSize
  let bitmapsLength := (bitmapBytes opened closed).size
  { header := { header with
      openReferenceBits := UInt64.ofNat opened.references.size
      openNativeBits := UInt64.ofNat opened.natives.size
      closedReferenceBits := UInt64.ofNat closed.references.size
      closedNativeBits := UInt64.ofNat closed.natives.size
      imageOffset := UInt64.ofNat ArchiveHeader.pageSize
      imageLength := UInt64.ofNat image.size
      typesOffset := UInt64.ofNat typesOffset
      typesLength := UInt64.ofNat typesLength
      bitmapsOffset := UInt64.ofNat bitmapsOffset
      bitmapsLength := UInt64.ofNat bitmapsLength
      checksumOffset := UInt64.ofNat (bitmapsOffset + bitmapsLength) }
    image := image
    types := types
    opened := opened
    closed := closed
    isMapped := false }

/-! ### Checking maps -/

/-- The maps of one region are those that its objects call for. -/
def checkRegionMaps (a : Archive) (region : Region) : Except ArchiveError Unit := do
  let e := a.header.range region
  let derived ← RegionMaps.derive (a.image.extract e.bottom e.top) a.types
    a.header.refSize.toNat a.header.native
  crossCheck derived.references (a.maps region).references 0 region
  crossCheck derived.natives (a.maps region).natives 0 region

/-- The maps of both regions are those that the objects of the image call for. -/
def checkMaps (a : Archive) : Except ArchiveError Unit := Region.all.forM a.checkRegionMaps

/-! ### Dumping -/

/-- The header of a relocated session whose regions have the given requested addresses. -/
def headerOf (s : DumpSession) (requested : RequestedRegions) : ArchiveHeader :=
  { ArchiveHeader.blank.withEncoding s.options.encoding with
    regionAlignment := UInt64.ofNat s.options.alignment
    requestedBase := UInt64.ofNat requested.opened.bottom
    openSize := UInt64.ofNat s.openTop
    closedOffset := UInt64.ofNat s.closedBottom
    closedSize := UInt64.ofNat (s.closedTop - s.closedBottom)
    imageLength := UInt64.ofNat s.output.size
    rootOffset := UInt64.ofNat s.rootOffset
    nativeBase := UInt64.ofNat s.options.native.bottom
    nativeSize := UInt64.ofNat s.options.native.length
    objectCount := UInt64.ofNat s.placements.size }

/-- The archive of a session that has come to its end. -/
def ofSession (s : DumpSession) : Except ArchiveError Archive := do
  let (opened, closed) ← s.maps
  match s.requested with
  | none => throw (.outOfOrder .notFinalized)
  | some requested => return assemble (headerOf s requested) s.output s.registry opened closed

/-- All steps of a dump up to relocation. -/
def dumpSteps (g : ObjectGraph) (selection : Selection) : DumpStep Unit := do
  selection.entries.forM fun (id, region) => discard (DumpSession.allocate g id region)
  discard (DumpSession.allocateRoots selection.roots)
  DumpSession.link g
  DumpSession.copy .opened
  DumpSession.copy .closed
  discard DumpSession.finalize
  DumpSession.relocate

/-- Dumps a selection of a graph. -/
def dump (r : TypeRegistry) (g : ObjectGraph) (selection : Selection) (options : DumpOptions) :
    Except ArchiveError Archive := do
  let s ← DumpSession.start? r options
  let (result, s) := (dumpSteps g selection).run s
  result
  ofSession s

end Archive

end HeapImage
