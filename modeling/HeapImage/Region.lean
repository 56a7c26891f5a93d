/-!
# Regions

An archive keeps its objects in two regions: the open one, whose objects may change after loading,
and the closed one, whose objects are never written again.

* `Region`, `Region.all`: the two regions in the order in which they stand in an image.
-/

namespace HeapImage

/-- One of the two parts of an archived heap. -/
inductive Region where
  /-- Objects that may change after loading. -/
  | opened
  /-- Objects that stay as they are. -/
  | closed
  deriving DecidableEq, Repr

namespace Region

/-- The region's name in messages and listings. -/
def name : Region → String
  | opened => "open"
  | closed => "closed"

/-- Both regions, in image order. -/
def all : List Region := [opened, closed]

/-- The list of regions is complete. -/
theorem mem_all (region : Region) : region ∈ all := by
  cases region <;> decide

end Region

end HeapImage
