import HeapImage.Object.View
import Std.Data.TreeMap

/-!
# Snapshots

A snapshot is what can be reached from a root without regard to addresses: nodes are numbered in the
order in which a breadth-first walk finds them, and references become node numbers.

* `Snapshot`, `SnapshotNode`, `SnapshotValue`: nodes and what they hold.
* `Numbering`: the keys found so far and their numbers.
* `Snapshot.explore`: the walk, for any way of reading the node with a key.
* `Snapshot.ofGraph`: the snapshot of a graph under a root array.
* `Snapshot.ofHeap`: the snapshot of heap memory from a root address.
-/

namespace HeapImage

/-- What a field or element holds, without addresses. -/
inductive SnapshotValue where
  | scalar (value : UInt64)
  | native (value : UInt64)
  /-- A reference to the node with a number; null names no node. -/
  | reference (node : Option Nat)
  deriving DecidableEq, Repr

/-- An object without its address. -/
structure SnapshotNode where
  typeIndex : TypeIndex
  mark : UInt64
  /-- Fields or elements in order. -/
  values : Array SnapshotValue
  deriving DecidableEq, Repr

/-- The objects reachable from a root, numbered in breadth-first order; the root is number zero. -/
structure Snapshot where
  nodes : Array SnapshotNode
  deriving DecidableEq, Repr

/-! ### Numbering -/

/-- Keys in the order in which they were found. -/
structure Numbering where
  /-- The key of each number. -/
  keys : Array Nat
  /-- The number of each key. -/
  numbers : Std.TreeMap Nat Nat

namespace Numbering

/-- The numbering in which only the root has been found. -/
def start (root : Nat) : Numbering := ⟨#[root], (∅ : Std.TreeMap Nat Nat).insert root 0⟩

/-- The number of a key, which is found now if it was not before. -/
def number (n : Numbering) (key : Nat) : Nat × Numbering :=
  match n.numbers[key]? with
  | some i => (i, n)
  | none => (n.keys.size, ⟨n.keys.push key, n.numbers.insert key n.keys.size⟩)

/-- The number of a referent, null having none. -/
def numberOptional (n : Numbering) : Option Nat → Option Nat × Numbering
  | none => (none, n)
  | some key =>
    let (i, n) := n.number key
    (some i, n)

end Numbering

namespace Snapshot

/-- Number of nodes. -/
def size (s : Snapshot) : Nat := s.nodes.size

/-- Reads the nodes in the order of their numbers, until all that were found are read. `fuel` bounds
the number of nodes still to be read. -/
def explore {ε : Type} (read : Nat → Numbering → Except ε (SnapshotNode × Numbering)) :
    (fuel : Nat) → Numbering → Array SnapshotNode → Except ε (Array SnapshotNode)
  | 0, _, nodes => .ok nodes
  | fuel + 1, n, nodes =>
    -- The nodes read are those with the least numbers, so the queue needs no place of its own.
    match n.keys[nodes.size]? with
    | none => .ok nodes
    | some key =>
      match read key n with
      | .error e => .error e
      | .ok (node, n) => explore read fuel n (nodes.push node)

/-! ### Graphs -/

/-- The key of an object of a graph; zero is the key of the root array. -/
def objectKey (id : ObjectId) : Nat := id.key + 1

/-- Numbers the values of a list in order. -/
def numberValues (n : Numbering) (targets : List ViewValue) : Array SnapshotValue × Numbering :=
  targets.foldl
    (fun (values, n) v =>
      match v with
      | .scalar x => (values.push (.scalar x), n)
      | .native x => (values.push (.native x), n)
      | .reference target =>
        let (i, n) := n.numberOptional target
        (values.push (.reference i), n))
    (#[], n)

/-- The values of an object with keys for its references. -/
def payloadValues (native : UInt64 → UInt64) : Payload → List ViewValue
  | .fields values => values.map fun
    | .scalar x => .scalar x
    | .native x => .native (native x)
    | .reference target => .reference (target.map objectKey)
  | .scalars values => values.map .scalar
  | .references targets => targets.map fun target => .reference (target.map objectKey)

/-- The node with a key in a graph under a root array. -/
def readObject (g : ObjectGraph) (r : TypeRegistry) (roots : List ObjectId)
    (native : UInt64 → UInt64) (key : Nat) (n : Numbering) :
    Except ArchiveError (SnapshotNode × Numbering) :=
  if key = 0 then
    let (values, n) := numberValues n (roots.map fun id => .reference (some (objectKey id)))
    .ok (⟨TypeRegistry.rootIndex, 0, values⟩, n)
  else
    let id : ObjectId := ⟨UInt32.ofNat (key - 1)⟩
    match g.get? id with
    | none => .error (.graph (.noObject id))
    | some o =>
      match r.require o.typeIndex with
      | .error e => .error e
      | .ok _ =>
        let (values, n) := numberValues n (payloadValues native o.payload)
        .ok (⟨o.typeIndex, o.mark, values⟩, n)

/-- The snapshot of a graph under a root array that lists `roots`; `native` says what becomes of
native pointers. Every node read is the root array or an object of the graph. -/
def ofGraph (g : ObjectGraph) (r : TypeRegistry) (roots : List ObjectId)
    (native : UInt64 → UInt64) : Except ArchiveError Snapshot := do
  let nodes ← explore (readObject g r roots native) (g.size + 2) (.start 0) #[]
  return ⟨nodes⟩

/-! ### Heaps -/

/-- Reads and numbers the `n` values of an object from value `i` on. -/
def readValues {μ : Type} [Memory μ] (heap : μ) (encoding : ReferenceEncoding) (v : ObjectView) :
    (n i : Nat) → Array SnapshotValue → Numbering →
      Except ArchiveError (Array SnapshotValue × Numbering)
  | 0, _, values, keys => .ok (values, keys)
  | n + 1, i, values, keys =>
    match v.field heap encoding i with
    | .error e => .error e
    | .ok (.scalar x) => readValues heap encoding v n (i + 1) (values.push (.scalar x)) keys
    | .ok (.native x) => readValues heap encoding v n (i + 1) (values.push (.native x)) keys
    | .ok (.reference target) =>
      let (number, keys) := keys.numberOptional target
      readValues heap encoding v n (i + 1) (values.push (.reference number)) keys

/-- The node at an address of a heap. -/
def readAddress {μ : Type} [Memory μ] (heap : μ) (types : TypeRegistry)
    (encoding : ReferenceEncoding) (a : Nat) (keys : Numbering) :
    Except ArchiveError (SnapshotNode × Numbering) := do
  let v ← ObjectView.atAddress heap types a
  let (values, keys) ← readValues heap encoding v v.length 0 #[] keys
  return (⟨v.header.typeIndex, v.header.mark, values⟩, keys)

/-- The snapshot of what can be reached from an address of a heap. Every node read is at an address
with readable bytes, of which there are no more than the heap's extent. -/
def ofHeap {μ : Type} [Memory μ] (heap : μ) (types : TypeRegistry) (encoding : ReferenceEncoding)
    (root : Nat) : Except ArchiveError Snapshot := do
  let nodes ← explore (readAddress heap types encoding) (Memory.extent heap + 1) (.start root) #[]
  return ⟨nodes⟩

end Snapshot

end HeapImage
