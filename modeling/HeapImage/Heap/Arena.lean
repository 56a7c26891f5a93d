import HeapImage.Heap.Memory

/-!
# Arenas

An arena serves allocations from chunks by moving a mark upwards. Chunks lie a guard page apart, so
objects of different chunks are never neighbours. The arena also keeps the address ranges that
mapped images take.

* `Arena`, `Chunk`: the chunks in address order, counters, and what has been handed over.
* `MappingPolicy`: how requests for an address range are answered.
* `Arena.standard`, `Arena.withBase` and the like: a fresh arena and its settings.
-/

namespace HeapImage

/-- Contiguous memory from which objects are allocated upwards. -/
structure Chunk where
  /-- The first address. -/
  base : Nat
  /-- Number of bytes. -/
  size : Nat
  /-- The bytes up to the last one ever written. All bytes behind them are zero. -/
  bytes : ByteArray
  /-- Number of allocated bytes, all at the bottom. -/
  top : Nat

namespace Chunk

/-- The first address behind the chunk. -/
def stop (c : Chunk) : Nat := c.base + c.size

/-- The address lies in the chunk. -/
def contains (c : Chunk) (a : Nat) : Bool := c.base ≤ a && a < c.stop

/-- All of the `len` bytes at an address of the chunk lie in it. -/
def hasBytes (c : Chunk) (a : Nat) (len : Nat) : Bool := (a - c.base) + len ≤ c.size

/-- The `len` bytes at an address, if all lie in the chunk. -/
def read? (c : Chunk) (a : Nat) (len : Nat) : Option ByteArray :=
  let i := a - c.base
  if c.hasBytes a len then some (Bytes.resize (c.bytes.extract i (i + len)) len) else none

/-- Replaces the bytes at an address, if all lie in the chunk. -/
def write (c : Chunk) (a : Nat) (bytes : ByteArray) : Chunk :=
  let i := a - c.base
  if c.hasBytes a bytes.size then
    { c with bytes := Bytes.overwrite (Bytes.grow c.bytes (i + bytes.size)) i bytes }
  else c

end Chunk

/-- How requests for an address range are answered. -/
inductive MappingPolicy where
  /-- With the requested range. -/
  | atRequested
  /-- With a range at a fixed address. -/
  | atFixed (base : Nat)
  /-- With a refusal. -/
  | unavailable
  deriving DecidableEq, Repr

/-- A heap of chunks. -/
structure Arena where
  /-- The chunks in address order. -/
  chunks : Array Chunk
  /-- Where the next chunk goes. -/
  nextBase : Nat
  /-- The least size of a chunk. -/
  chunkSize : Nat
  /-- Allocations after which a new chunk is started; zero for no such rule. -/
  splitEvery : Nat
  /-- Number of objects allocated. -/
  allocations : Nat
  /-- Number of bytes allocated. -/
  allocatedBytes : Nat
  /-- The most bytes that may be allocated; zero for no limit. -/
  maxBytes : Nat
  mapping : MappingPolicy
  /-- The ranges set aside for images. -/
  reservations : Array Extent
  /-- Extents of loaded objects that were handed over. -/
  loadedRegions : Array Extent
  /-- Regions of mapped images that were handed over. -/
  mappedRegions : Array Extent

namespace Arena

/-- Chunks start and end at multiples of this, and lie as far apart. -/
def pageSize : Nat := 4096

/-- An arena at 16 GiB with chunks of one mebibyte and no limit. -/
def standard : Arena where
  chunks := #[]
  nextBase := 0x400000000
  chunkSize := 1024 * 1024
  splitEvery := 0
  allocations := 0
  allocatedBytes := 0
  maxBytes := 0
  mapping := .atRequested
  reservations := #[]
  loadedRegions := #[]
  mappedRegions := #[]

instance : Inhabited Arena := ⟨standard⟩

/-! ### Settings -/

/-- Places the first chunk at an address or at the page boundary above it. -/
def withBase (h : Arena) (base : Nat) : Arena := { h with nextBase := alignUp base pageSize }

/-- Makes chunks at least this large, and at least a page. -/
def withChunkSize (h : Arena) (bytes : Nat) : Arena := { h with chunkSize := max bytes pageSize }

/-- Starts a new chunk after every `n` allocations. -/
def withSplitEvery (h : Arena) (n : Nat) : Arena := { h with splitEvery := n }

/-- Limits the number of allocated bytes. -/
def withMaxBytes (h : Arena) (bytes : Nat) : Arena := { h with maxBytes := bytes }

/-- Chooses how requests for an address range are answered. -/
def withMapping (h : Arena) (policy : MappingPolicy) : Arena := { h with mapping := policy }

/-! ### Memory -/

/-- The position of the chunk with an address, which is the last one that does not start behind it.
As chunks are in address order, those that do not are the first ones. -/
def chunkIndex? (h : Arena) (a : Nat) : Option Nat :=
  match (h.chunks.toList.takeWhile fun c => c.base ≤ a).length with
  | 0 => none
  | i + 1 => h.chunks[i]?.bind fun c => if a < c.stop then some i else none

/-- The chunk with an address. -/
def chunkOf? (h : Arena) (a : Nat) : Option Chunk := (h.chunkIndex? a).bind fun i => h.chunks[i]?

/-- The `len` bytes at an address, if one chunk has them all. -/
def read? (h : Arena) (a : Nat) (len : Nat) : Option ByteArray := do
  let c ← h.chunkOf? a
  c.read? a len

/-- One chunk has all of the `len` bytes at an address. -/
def canWrite (h : Arena) (a : Nat) (len : Nat) : Bool :=
  match h.chunkOf? a with
  | some c => c.hasBytes a len
  | none => false

/-- Replaces the bytes at an address. -/
def write (h : Arena) (a : Nat) (bytes : ByteArray) : Arena :=
  match h.chunkIndex? a with
  | some i => { h with chunks := h.chunks.modify i fun c => c.write a bytes }
  | none => h

/-- Number of bytes in all chunks. -/
def extent (h : Arena) : Nat := h.chunks.foldl (fun n c => n + c.size) 0

/-! ### Allocation -/

/-- Adds a chunk with room for `size` bytes. If no chunk can be as large, only its addresses are
used up. -/
def addChunk (h : Arena) (size : Nat) : Except AllocationError Unit × Arena :=
  let capacity := alignUp (max size h.chunkSize) pageSize
  let chunk : Chunk := ⟨h.nextBase, capacity, ByteArray.empty, 0⟩
  -- The page behind the chunk is never given to anyone.
  let h := { h with nextBase := h.nextBase + (capacity + pageSize) }
  if maxBuffer < capacity then (.error .tooLarge, h)
  else (.ok (), { h with chunks := h.chunks.push chunk })

/-- The next allocation starts a chunk because of the split rule. -/
def splitDue (h : Arena) : Bool :=
  h.splitEvery != 0 && h.allocations != 0 && h.allocations % h.splitEvery == 0

/-- The last chunk has room for `size` more bytes. -/
def hasRoom (h : Arena) (size : Nat) : Bool :=
  match h.chunks.back? with
  | some c => c.top + size ≤ c.size
  | none => false

/-- Takes `size` bytes from the last chunk. -/
def bump (h : Arena) (size : Nat) : Option Nat × Arena :=
  match h.chunks.back? with
  | none => (none, h)
  | some c =>
    let address := c.base + c.top
    (some address,
      { h with
        chunks := h.chunks.modify (h.chunks.size - 1) fun c => { c with top := c.top + size }
        allocations := h.allocations + 1
        allocatedBytes := h.allocatedBytes + size })

/-- Allocates memory for an object. -/
def allocate (h : Arena) (request : AllocationRequest) : Except AllocationError Nat × Arena :=
  let size := request.size
  -- The limit is on what objects take, not on the size of the chunks.
  if h.maxBytes ≠ 0 ∧ h.maxBytes < h.allocatedBytes + size then
    (.error (.heapExhausted size h.maxBytes), h)
  else
    -- The rest of the last chunk stays unused once a new chunk is started.
    let (added, h) := if h.splitDue || !h.hasRoom size then h.addChunk size else (.ok (), h)
    match added with
    | .error e => (.error e, h)
    | .ok () =>
      match h.bump size with
      | (some address, h) => (.ok address, h)
      | (none, h) => (.error (.unsupported "no chunk available"), h)

/-! ### Address ranges -/

/-- The range of `len` addresses from `base` on meets a chunk. -/
def overlapsChunks (h : Arena) (base : Nat) (len : Nat) : Bool :=
  h.chunks.any fun c => base < c.stop && c.base < base + len

/-- Where a request for an address range is granted, if it is. -/
def grant? (h : Arena) (requested : Nat) : Option Nat :=
  match h.mapping with
  | .atRequested => some requested
  | .atFixed base => some base
  | .unavailable => none

/-- Sets an address range aside that meets no chunk. -/
def reserve (h : Arena) (requested : Nat) (len : Nat) : Option Nat × Arena :=
  match h.grant? requested with
  | none => (none, h)
  | some base =>
    -- Ranges that were set aside earlier are not looked at.
    if h.overlapsChunks base len then (none, h)
    else (some base, { h with reservations := h.reservations.push ⟨base, base + len⟩ })

/-- Removes the element at a position and puts the last one in its place. -/
def swapRemove {α : Type} (xs : Array α) (i : Nat) : Array α :=
  match xs.back? with
  | some last => (xs.setIfInBounds i last).pop
  | none => xs

/-- Gives an address range back. -/
def release (h : Arena) (base : Nat) (len : Nat) : Arena :=
  match h.reservations.findIdx? fun r => r = ⟨base, base + len⟩ with
  | some i => { h with reservations := swapRemove h.reservations i }
  | none => h

instance : Memory Arena where
  read? := read?
  canWrite := canWrite
  write := write
  extent := extent

instance : Destination Arena where
  allocate := allocate
  completeLoaded h e := { h with loadedRegions := h.loadedRegions.push e }

instance : MappingHost Arena where
  reserve := reserve
  release := release
  completeMapped h e := { h with mappedRegions := h.mappedRegions.push e }

end Arena

end HeapImage
