import HeapImage.Checked.Basic
import HeapImage.Heap.Sums
import HeapImage.Load.Patch

/-!
# Checked mapping

A load that maps an image, with every access to it and every sum of addresses checked.

* `Checked.decode`: the address that a stored value stands for.
* `Checked.patchImage`: the image with all references and native pointers adjusted.
* `Checked.handOver`: the regions of an image, handed over to a host.
* `Checked.mapImage`: reserves a range, patches the image and hands its regions over.
-/

namespace HeapImage.Checked

/-! ### References -/

/-- The address that a stored value stands for. -/
def decode (space : AddressSpace) (e : ReferenceEncoding) (value : Nat) : Checked Nat :=
  match e with
  | .wide => .ok value
  | .narrow b s =>
    if value = 0 then .ok 0 else space.add b.toNat ((value <<< s.toNat) % 0x10000000000000000)

/-- The new value of a stored reference found by way of the address it stands for. -/
def general (space : AddressSpace) (m : Rebasing) (offset value : Nat) :
    Checked (Except ArchiveError Nat) := do
  let target ← decode space m.dump value
  if target < m.requested ∨ m.requested + m.length ≤ target then
    return .error (.undecodable offset value)
  else
    let a ← space.add m.actual (target - m.requested)
    match m.runtime.encode a with
    | .ok value => return .ok value
    | .error _ => return .error (.undecodable offset value)

/-- The new value of the stored reference in the slot at an offset. Only an assertion compares what
the constant gives with what the address gives. -/
def value (checks : Checks) (m : Rebasing) (offset value : Nat) :
    Checked (Except ArchiveError Nat) :=
  match m.constant? with
  | none => general checks.space m offset value
  | some c =>
    let shifted := m.shifted c value
    if checks.assertions then do
      let general := (← general checks.space m offset value).toOption
      if general = some shifted then return .ok shifted
      else throw (.assertion ⟨offset, shifted, general⟩)
    else return .ok shifted

/-- Both ends of the image can be referred to under the running heap's encoding. -/
def checkEdges (space : AddressSpace) (m : Rebasing) : Checked (Except ArchiveError Unit) := do
  space.check [m.actual + (m.length - wordSize)]
  return m.checkEdges

/-! ### Patching -/

/-- Adjusts the reference slots at some offsets. -/
def references (checks : Checks) (m : Rebasing) :
    List Nat → Patching → Checked (Except ArchiveError Patching)
  | [], p => .ok (.ok p)
  | offset :: rest, ⟨image, counts⟩ => do
    let old ← valueAt image offset m.slotSize
    if old = 0 then references checks m rest ⟨image, { counts with nulls := counts.nulls + 1 }⟩
    else
      match ← value checks m offset old with
      | .error e => return .error e
      | .ok new =>
        let image ← setValue image offset m.slotSize new
        references checks m rest ⟨image, { counts with references := counts.references + 1 }⟩

/-- Adds a distance to the heap words at some offsets. -/
def natives (delta : UInt64) : List Nat → Patching → Checked Patching
  | [], p => .ok p
  | offset :: rest, ⟨image, counts⟩ => do
    let old := UInt64.ofNat (← valueAt image offset wordSize)
    let image ← setWord image offset (old + delta)
    natives delta rest ⟨image, { counts with natives := counts.natives + 1 }⟩

/-- Adjusts one region that starts at an offset of the image. -/
def region (checks : Checks) (m : Rebasing) (delta : UInt64) (start : Nat) (maps : RegionMaps)
    (p : Patching) : Checked (Except ArchiveError Patching) := do
  let slots ← ones maps.references 0 maps.references.size
  match ← references checks m (slots.map fun bit => start + bit * m.slotSize) p with
  | .error e => return .error e
  | .ok p =>
    if delta = 0 then return .ok p
    else
      let words ← ones maps.natives 0 maps.natives.size
      return .ok (← natives delta (words.map fun bit => start + bit * wordSize) p)

/-- The image of an archive with its references adjusted to a new base and a distance added to its
native pointers. -/
def patchImage (checks : Checks) (a : Archive) (m : Rebasing) (delta : UInt64) :
    Checked (Except ArchiveError Patching) := do
  let g := a.header.regionAlignment.toNat
  if !isAligned m.actual g then return .error (.mapping (.misaligned m.actual g))
  match ← checkEdges checks.space m with
  | .error e => return .error e
  | .ok () =>
    match ← region checks m delta (a.header.range .opened).bottom a.opened ⟨a.image, .zero⟩ with
    | .error e => return .error e
    | .ok p => region checks m delta (a.header.range .closed).bottom a.closed p

/-- Hands the regions of an image that stands at an address over to its host, one by one. -/
def handOver {μ : Type} [MappingHost μ] (space : AddressSpace) (actual : Nat) :
    List Extent → μ → CheckedRun μ (List Extent × μ)
  | [], host => .ok ([], host)
  | e :: rest, host => do
    let bottom ← (space.add actual e.bottom).inState host
    let top ← (space.add actual e.top).inState host
    let (regions, host) ← handOver space actual rest (MappingHost.completeMapped host ⟨bottom, top⟩)
    return (⟨bottom, top⟩ :: regions, host)

/-- Puts an image to use in an address range granted by a host. The range is given back if the
image cannot be patched, but not if patching it comes to a fault. -/
def mapImage {μ : Type} [MappingHost μ] [HeapSums μ] (checks : Checks) (a : Archive)
    (host : μ) (runtime : ReferenceEncoding) (delta : UInt64) :
    CheckedRun μ (Except ArchiveError MappedImage × μ) :=
  match checkEncodings a.encoding runtime with
  | .error e => .ok (.error e, host)
  | .ok () => do
    let requested := a.header.requestedBase.toNat
    let length := a.image.size
    (checks.space.check (HeapSums.reservation host requested length)).inState host
    match MappingHost.reserve host requested length with
    | (none, host) => return (.error (.mapping (.refused length requested)), host)
    | (some actual, host) =>
      let m : Rebasing := ⟨a.encoding, runtime, requested, actual, length⟩
      match ← (patchImage checks a m delta).inState host with
      | .error e => return (.error e, MappingHost.release host actual length)
      | .ok p =>
        let ranges := (Region.all.map a.header.range).filter fun e => !e.isEmpty
        let (regions, host) ← handOver checks.space actual ranges host
        let root ← (checks.space.add actual a.header.rootOffset.toNat).inState host
        return (.ok {
          heap := ⟨actual, p.image⟩
          root := root
          types := a.types
          encoding := runtime
          regions := regions
          byConstant := m.constant?.isSome
          counts := p.counts }, host)

end HeapImage.Checked
