import HeapImage.Load.Patch
import HeapImage.Proofs.Steps

/-! # Steps of mapping an image

What mapping an image comes to once its checks have passed, for every keeper of address ranges.

* `patchImage_eq`, `of_patchImage`: patching is a pass over each region.
* `mapImage_eq`, `of_mapImage`: mapping is reserving a range and patching for it. -/

namespace HeapImage

/-- How the references of an archive move with its image to an address. -/
def Archive.rebasing (a : Archive) (runtime : ReferenceEncoding) (actual : Nat) : Rebasing :=
  ⟨a.encoding, runtime, a.header.requestedBase.toNat, actual, a.image.size⟩

variable {a : Archive} {m : Rebasing} {runtime : ReferenceEncoding} {delta : UInt64}

/-- An image whose base is aligned and whose edges can be stored is patched region by region. -/
theorem patchImage_eq (haligned : isAligned m.actual a.header.regionAlignment.toNat = true)
    (hedges : m.checkEdges = .ok ()) :
    patchImage a m delta =
      Patching.region m delta (a.header.range .opened).bottom a.opened ⟨a.image, .zero⟩ >>=
        Patching.region m delta (a.header.range .closed).bottom a.closed := by
  rw [patchImage, haligned, hedges]
  rfl

/-- An image with an edge that cannot be stored is not patched. -/
theorem patchImage_of_edges {e : ArchiveError} (delta : UInt64)
    (haligned : isAligned m.actual a.header.regionAlignment.toNat = true)
    (hedges : m.checkEdges = .error e) : patchImage a m delta = .error e := by
  rw [patchImage, haligned, hedges]
  rfl

/-- An image that is patched has edges that can be stored, and both regions have been patched. -/
theorem of_patchImage {p : Patching} (h : patchImage a m delta = .ok p) :
    m.checkEdges = .ok () ∧ ∃ q,
      Patching.region m delta (a.header.range .opened).bottom a.opened ⟨a.image, .zero⟩ = .ok q ∧
      Patching.region m delta (a.header.range .closed).bottom a.closed q = .ok p := by
  rw [patchImage, Except.guard_eq_ok] at h
  obtain ⟨-, h⟩ := h
  obtain ⟨⟨⟩, hedges, h⟩ := Except.bind_eq_ok.mp h
  obtain ⟨q, hopened, hclosed⟩ := Except.bind_eq_ok.mp h
  exact ⟨hedges, q, hopened, hclosed⟩

section

variable {μ : Type} [MappingHost μ] {host granted host' : μ} {actual : Nat}

variable (delta) in
/-- In a granted range the image is patched, and the range is given back if that fails. -/
theorem mapImage_eq (hcheck : checkEncodings a.encoding runtime = .ok ())
    (hreserve : MappingHost.reserve host a.header.requestedBase.toNat a.image.size =
      (some actual, granted)) :
    (∀ e, patchImage a (a.rebasing runtime actual) delta = .error e →
      mapImage a host runtime delta =
        (.error e, MappingHost.release granted actual a.image.size)) ∧
    ∀ p, patchImage a (a.rebasing runtime actual) delta = .ok p →
      ∃ image host', mapImage a host runtime delta = (.ok image, host') ∧
        image.heap = ⟨actual, p.image⟩ ∧ image.counts = p.counts ∧
        image.byConstant = (a.rebasing runtime actual).constant?.isSome := by
  rw [Archive.rebasing, mapImage, hcheck]
  dsimp only
  rw [hreserve]
  dsimp only
  constructor
  · intro e hpatch
    rw [hpatch]
  · intro p hpatch
    rw [hpatch]
    exact ⟨_, _, rfl, rfl, rfl, rfl⟩

/-- An image that has been mapped was patched for the base that was granted. -/
theorem of_mapImage {image : MappedImage}
    (hmap : mapImage a host runtime delta = (.ok image, host')) :
    checkEncodings a.encoding runtime = .ok () ∧ image.types = a.types ∧
      image.encoding = runtime ∧ image.root = image.heap.base + a.header.rootOffset.toNat ∧
      (∃ granted, MappingHost.reserve host a.header.requestedBase.toNat a.image.size =
          (some image.heap.base, granted) ∧
        host' = image.regions.foldl MappingHost.completeMapped granted) ∧
      ∃ p, patchImage a (a.rebasing runtime image.heap.base) delta = .ok p ∧
        image.heap.image = p.image ∧ image.counts = p.counts := by
  rw [mapImage] at hmap
  cases hcheck : checkEncodings a.encoding runtime with
  | error e =>
    rw [hcheck] at hmap
    cases hmap
  | ok u =>
    rw [hcheck] at hmap
    dsimp only at hmap
    split at hmap
    · cases hmap
    · rename_i actual k hreserve
      split at hmap
      · cases hmap
      · rename_i p hpatch
        cases hmap
        exact ⟨rfl, rfl, rfl, rfl, ⟨k, hreserve, rfl⟩, p, hpatch, rfl, rfl⟩

/-- Its regions are those of the archive that are not empty. -/
theorem regions_of_mapImage {image : MappedImage}
    (hmap : mapImage a host runtime delta = (.ok image, host')) :
    image.regions = ((Region.all.map a.header.range).filter fun e => !e.isEmpty).map
      fun e => e.shift image.heap.base := by
  rw [mapImage] at hmap
  split at hmap
  · cases hmap
  · dsimp only at hmap
    split at hmap
    · cases hmap
    · split at hmap
      · cases hmap
      · cases hmap
        rfl

end

end HeapImage
