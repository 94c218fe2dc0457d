import InMemoryTable.Layout
import InMemoryTable.Offset

/-! The primary key index: an array of buckets and a slot store of chained
nodes. A call that walks a chain returns an `Option`: `none` means that the
call does not return, because the walk does not end or because it reads a node
through the empty slice of a free slot. -/
namespace InMemoryTable

structure Node (K : Type) where
  key : K
  position : Nat
  next : Offset
  deriving DecidableEq, Repr

/-- How the compiler lays out `Node<K>` in memory cells of type `B`: nodes are
copied in and out of slots byte by byte. No type is larger than `isize::MAX`. -/
structure NodeLayout (K B : Type) where
  size : Nat
  size_lt : size < 2 ^ 63
  toBytes : Node K → List B
  ofBytes : List B → Option (Node K)
  length_toBytes : ∀ node, (toBytes node).length = size
  ofBytes_toBytes : ∀ node, ofBytes (toBytes node) = some node

/-- A layout with one memory cell for a whole node. -/
def NodeLayout.cell (K : Type) : NodeLayout K (Node K) where
  size := 1
  size_lt := by decide
  toBytes node := [node]
  ofBytes cells := cells.head?
  length_toBytes _ := rfl
  ofBytes_toBytes _ := rfl

/-- The stride of the slots for nodes does not wrap around. -/
theorem NodeLayout.small {K B : Type} (layout : NodeLayout K B) :
    Slots.slotMetadataSize + layout.size < usizeModulus := by
  have bound := layout.size_lt
  simp only [Slots.slotMetadataSize, usizeModulus]
  omega

/-- The contents of the index block. -/
structure IndexBlock (B : Type) where
  buckets : Nat → Offset
  slots : Slots B

/-- A handle of the index. `hasher` is the value of `DefaultHasher` on a key. -/
structure Index (K B : Type) where
  layout : NodeLayout K B
  hasher : K → Nat
  totalBuckets : Nat

namespace Index
variable {K B : Type} (self : Index K B) (block : IndexBlock B)

/-- The handle that `new` and `open` build for an index of `size` nodes. -/
def handle (layout : NodeLayout K B) (hasher : K → Nat) (size : Nat) : Index K B :=
  { layout, hasher, totalBuckets := InMemoryTable.totalBuckets size }

/-- The block that `new` sets up; `memory` is the contents of its slots before. -/
def newBlock (size : Nat) (memory : Nat → Slot B) : IndexBlock B :=
  { buckets := fun _ => ⟨0⟩, slots := .new memory size self.layout.size }

def readNode (position : Nat) : Option (Node K) :=
  self.layout.ofBytes (block.slots.get position)

def insertNode (node : Node K) : Except InMemoryTableError Nat × IndexBlock B :=
  let (result, slots) := block.slots.insert (self.layout.toBytes node)
  (result, { block with slots })

def updateNode (index : Nat) (node : Node K) : Except InMemoryTableError Unit × IndexBlock B :=
  let (result, slots) := block.slots.update index (self.layout.toBytes node)
  (result, { block with slots })

def removeNode (index : Nat) : IndexBlock B :=
  { block with slots := block.slots.remove index }

def setBucket (bucketIdx : Nat) (position : Offset) : IndexBlock B :=
  { block with buckets := Function.update block.buckets bucketIdx position }

def hash (key : K) : Nat := self.hasher key % self.totalBuckets

/-- The `while let` loop of `insert`: to the last node of the chain. -/
def walkToLast : Nat → Nat → Node K → Option (Nat × Node K)
  | 0, _, _ => none
  | fuel + 1, lastNodeIdx, lastNode =>
    match lastNode.next.get with
    | some next => do
      let node ← self.readNode block next
      walkToLast fuel next node
    | none => some (lastNodeIdx, lastNode)

def insert (key : K) (position : Nat) :
    Option (Except InMemoryTableError Unit × IndexBlock B) :=
  let bucketIdx := self.hash key
  let newNode : Node K := { key, position, next := Offset.none }
  match (block.buckets bucketIdx).get with
  | some first => do
    let firstNode ← self.readNode block first
    let (lastNodeIdx, lastNode) ←
      self.walkToLast block block.slots.header.capacity first firstNode
    match self.insertNode block newNode with
    | (.error e, block) => some (.error e, block)
    | (.ok nextNode, block) =>
      some (self.updateNode block lastNodeIdx { lastNode with next := Offset.some nextNode })
  | none =>
    match self.insertNode block newNode with
    | (.error e, block) => some (.error e, block)
    | (.ok nextNode, block) => some (.ok (), setBucket block bucketIdx (Offset.some nextNode))

section Search
variable [DecidableEq K]

/-- The `while` loop of `search`. -/
def walkToKey (key : K) : Nat → Nat → Node K → Option (Option (Nat × Node K))
  | 0, _, _ => none
  | fuel + 1, lastNodeIdx, lastNode =>
    if lastNode.key ≠ key then
      match lastNode.next.get with
      | some next => do
        let node ← self.readNode block next
        walkToKey key fuel next node
      | none => some none
    else
      some (some (lastNodeIdx, lastNode))

def search (key : K) : Option (Option (Nat × Node K)) :=
  match (block.buckets (self.hash key)).get with
  | some first => do
    let firstNode ← self.readNode block first
    self.walkToKey block key block.slots.header.capacity first firstNode
  | none => some none

def get (key : K) : Option (Option Nat) :=
  (self.search block key).map (Option.map (fun found => found.2.position))

/-- The `loop` of `remove`: to the predecessor of the node to be removed. -/
def walkToPredecessor (removingIdx : Nat) (removingNode : Node K) :
    Nat → Nat → Node K → Option (Except InMemoryTableError Unit × IndexBlock B)
  | 0, _, _ => none
  | fuel + 1, lastNodeIdx, lastNode =>
    match lastNode.next.get with
    | some next =>
      if next = removingIdx then
        match self.updateNode block lastNodeIdx { lastNode with next := removingNode.next } with
        | (.error e, block) => some (.error e, block)
        | (.ok (), block) => some (.ok (), removeNode block removingIdx)
      else do
        let node ← self.readNode block next
        walkToPredecessor removingIdx removingNode fuel next node
    | none => some (.ok (), block)

def remove (key : K) : Option (Except InMemoryTableError Unit × IndexBlock B) := do
  match ← self.search block key with
  | some (removingIdx, removingNode) =>
    let bucketIdx := self.hash key
    -- `unwrap` panics on an empty bucket
    let lastNodeIdx ← (block.buckets bucketIdx).get
    if lastNodeIdx = removingIdx then
      some (.ok (), removeNode (setBucket block bucketIdx removingNode.next) removingIdx)
    else
      let lastNode ← self.readNode block lastNodeIdx
      self.walkToPredecessor block removingIdx removingNode block.slots.header.capacity
        lastNodeIdx lastNode
  | none => some (.ok (), block)

end Search
end Index
end InMemoryTable
