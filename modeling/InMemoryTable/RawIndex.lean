import InMemoryTable.IndexInvariant
import InMemoryTable.MemoryArray
import InMemoryTable.RawSlotsRun

/-! The index on the bytes of its block: the buckets are words at the start, the
nodes are the data of the slots behind them. Addresses count from the start of
the mapping, which begins at a page. -/
namespace InMemoryTable
open ByteMemory

/-- `as_ptr` of the slice that `get` returns; the empty slice of a free slot
points nowhere. -/
def RawSlots.asPtr (layout : HeaderLayout) (self : RawSlots) (memory : ByteMemory) (index : Nat) :
    Option Nat :=
  let record := self.getRecordMetadata layout memory index
  if SlotMetadata.state memory record = .free then none else some (record + Slots.slotMetadataSize)

/-- How the compiler lays out `Node<K>`; a node is copied as its bytes. -/
structure NodeBytes (K : Type) where
  size : Nat
  toBytes : Node K → List UInt8
  ofBytes : List UInt8 → Option (Node K)
  length_toBytes : ∀ node, (toBytes node).length = size
  ofBytes_toBytes : ∀ node, node.position < usizeModulus → node.next.value < usizeModulus →
    ofBytes (toBytes node) = some node

/-- `repr(C)` with a key aligned to at most eight bytes: the key, padding, two words. -/
def NodeBytes.reprC {K : Type} (keySize : Nat) (toBytes : K → List UInt8)
    (ofBytes : List UInt8 → Option K) (length : ∀ key, (toBytes key).length = keySize)
    (roundTrip : ∀ key, ofBytes (toBytes key) = some key) : NodeBytes K where
  size := keySize + ((7 * keySize % 8) + (usizeSize + usizeSize))
  toBytes node := toBytes node.key ++ (List.replicate (7 * keySize % 8) 0 ++
    (LittleEndian.encode usizeSize node.position ++ LittleEndian.encode usizeSize node.next.value))
  ofBytes bytes := do
    let key ← ofBytes (bytes.take keySize)
    let words := (bytes.drop keySize).drop (7 * keySize % 8)
    some { key, position := LittleEndian.decode (words.take usizeSize),
           next := ⟨LittleEndian.decode (words.drop usizeSize)⟩ }
  length_toBytes node := by simp [length]
  ofBytes_toBytes node position next := by
    have first : LittleEndian.decode (LittleEndian.encode usizeSize node.position) = node.position :=
      (LittleEndian.decode_encode ..).trans (Nat.mod_eq_of_lt position)
    have second : LittleEndian.decode (LittleEndian.encode usizeSize node.next.value) =
        node.next.value := (LittleEndian.decode_encode ..).trans (Nat.mod_eq_of_lt next)
    simp [List.take_left' (length node.key), List.drop_left' (length node.key), roundTrip, first,
      second]

/-- The node of a key of one byte. -/
def NodeBytes.uint8 : NodeBytes UInt8 :=
  .reprC 1 (fun key => [key]) List.head? (fun _ => rfl) (fun _ => rfl)

/-- `Index`, a handle that holds addresses. -/
structure RawIndex (K : Type) where
  layout : NodeBytes K
  hasher : K → Nat
  totalBuckets : Nat
  buckets : MemoryArray Bucket.element
  slots : RawSlots

namespace RawIndex
variable {K : Type} (headers : HeaderLayout) (self : RawIndex K) (memory : ByteMemory)

/-- `Index::new` on the block that `Block::new` has filled with zeros. -/
def new (layout : NodeBytes K) (hasher : K → Nat) (size : Nat) :
    Except InMemoryTableError (RawIndex K) × ByteMemory :=
  let totalBuckets := InMemoryTable.totalBuckets size
  let memory := memory.write 0 (List.replicate (Index.totalSize size layout.size) 0)
  match Index.buckets 0 size with
  | .error e => (.error e, memory)
  | .ok buckets =>
    match RawSlots.new headers memory (Index.totalBucketsSize size) size layout.size with
    | (.error e, memory) => (.error e, memory)
    | (.ok slots, memory) => (.ok { layout, hasher, totalBuckets, buckets, slots }, memory)

/-- `Index::open` -/
def openExisting (layout : NodeBytes K) (hasher : K → Nat) (size : Nat) :
    Except InMemoryTableError (RawIndex K) := do
  let totalBuckets := InMemoryTable.totalBuckets size
  let buckets ← Index.buckets 0 size
  let slots ← RawSlots.openExisting (Index.totalBucketsSize size)
  pure { layout, hasher, totalBuckets, buckets, slots }

/-- `buckets[bucket_idx].node_position`; `none` means that the bounds check panics. -/
def readBucket (bucketIdx : Nat) : Option Offset :=
  (self.buckets.asMutSlice.getElement bucketIdx).map
    (fun address => ⟨memory.readWord address usizeSize⟩)

def writeBucket (bucketIdx : Nat) (position : Offset) : Option ByteMemory :=
  (self.buckets.asMutSlice.getElement bucketIdx).map
    (fun address => memory.writeWord address usizeSize position.value)

/-- `ptr::read` of a whole node, whatever the length of the slice. -/
def readNode (position : Nat) : Option (Node K) := do
  let ptr ← self.slots.asPtr headers memory position
  self.layout.ofBytes (memory.read ptr self.layout.size)

def insertNode (node : Node K) : Except InMemoryTableError Nat × ByteMemory :=
  self.slots.insert headers memory (self.layout.toBytes node)

def updateNode (index : Nat) (node : Node K) : Except InMemoryTableError Unit × ByteMemory :=
  self.slots.update headers memory index (self.layout.toBytes node)

def removeNode (index : Nat) : ByteMemory := self.slots.remove headers memory index

def hash (key : K) : Nat := self.hasher key % self.totalBuckets

/-- The `while let` loop of `insert`. -/
def walkToLast : Nat → Nat → Node K → Option (Nat × Node K)
  | 0, _, _ => none
  | fuel + 1, lastNodeIdx, lastNode =>
    match lastNode.next.get with
    | some next => do
      let node ← self.readNode headers memory next
      walkToLast fuel next node
    | none => some (lastNodeIdx, lastNode)

def insert (key : K) (position : Nat) : Option (Except InMemoryTableError Unit × ByteMemory) := do
  let bucketIdx := self.hash key
  let newNode : Node K := { key, position, next := Offset.none }
  match (← self.readBucket memory bucketIdx).get with
  | some first =>
    let firstNode ← self.readNode headers memory first
    let (lastNodeIdx, lastNode) ← self.walkToLast headers memory
      (self.slots.field headers memory .capacity) first firstNode
    match self.insertNode headers memory newNode with
    | (.error e, memory) => some (.error e, memory)
    | (.ok nextNode, memory) =>
      some (self.updateNode headers memory lastNodeIdx
        { lastNode with next := Offset.some nextNode })
  | none =>
    match self.insertNode headers memory newNode with
    | (.error e, memory) => some (.error e, memory)
    | (.ok nextNode, memory) => do
      let memory ← self.writeBucket memory bucketIdx (Offset.some nextNode)
      some (.ok (), memory)

section Search
variable [DecidableEq K]

/-- The `while` loop of `search`. -/
def walkToKey (key : K) : Nat → Nat → Node K → Option (Option (Nat × Node K))
  | 0, _, _ => none
  | fuel + 1, lastNodeIdx, lastNode =>
    if lastNode.key ≠ key then
      match lastNode.next.get with
      | some next => do
        let node ← self.readNode headers memory next
        walkToKey key fuel next node
      | none => some none
    else
      some (some (lastNodeIdx, lastNode))

def search (key : K) : Option (Option (Nat × Node K)) := do
  match (← self.readBucket memory (self.hash key)).get with
  | some first =>
    let firstNode ← self.readNode headers memory first
    self.walkToKey headers memory key (self.slots.field headers memory .capacity) first firstNode
  | none => some none

def get (key : K) : Option (Option Nat) :=
  (self.search headers memory key).map (Option.map (fun found => found.2.position))

/-- The `loop` of `remove`. -/
def walkToPredecessor (removingIdx : Nat) (removingNode : Node K) :
    Nat → Nat → Node K → Option (Except InMemoryTableError Unit × ByteMemory)
  | 0, _, _ => none
  | fuel + 1, lastNodeIdx, lastNode =>
    match lastNode.next.get with
    | some next =>
      if next = removingIdx then
        match self.updateNode headers memory lastNodeIdx
            { lastNode with next := removingNode.next } with
        | (.error e, memory) => some (.error e, memory)
        | (.ok (), memory) => some (.ok (), self.removeNode headers memory removingIdx)
      else do
        let node ← self.readNode headers memory next
        walkToPredecessor removingIdx removingNode fuel next node
    | none => some (.ok (), memory)

def remove (key : K) : Option (Except InMemoryTableError Unit × ByteMemory) := do
  match ← self.search headers memory key with
  | some (removingIdx, removingNode) =>
    let bucketIdx := self.hash key
    -- `unwrap` panics on an empty bucket
    let lastNodeIdx ← (← self.readBucket memory bucketIdx).get
    if lastNodeIdx = removingIdx then
      let memory ← self.writeBucket memory bucketIdx removingNode.next
      some (.ok (), self.removeNode headers memory removingIdx)
    else
      let lastNode ← self.readNode headers memory lastNodeIdx
      self.walkToPredecessor headers memory removingIdx removingNode
        (self.slots.field headers memory .capacity) lastNodeIdx lastNode
  | none => some (.ok (), memory)

end Search

/-! ### The block that the bytes show -/

end RawIndex

/-- A slot of bytes as a slot for a whole node. -/
def NodeBytes.cell {K : Type} (layout : NodeBytes K) (record : Slot UInt8) : Slot (Node K) where
  state := record.state
  size := if record.state = .free then record.size else (NodeLayout.cell K).size
  buffer := (layout.ofBytes record.buffer).toList

def Slots.cells {K : Type} (layout : NodeBytes K) (store : Slots UInt8) : Slots (Node K) where
  header := { store.header with slotSize := slotMetadataSize + (NodeLayout.cell K).size }
  slot i := layout.cell (store.slot i)

namespace RawIndex
variable {K : Type} (headers : HeaderLayout) (self : RawIndex K) (memory : ByteMemory)

/-- The handle without the addresses. -/
def shown : Index K (Node K) :=
  { layout := .cell K, hasher := self.hasher, totalBuckets := self.totalBuckets }

/-- The slots as they hold bytes. -/
def byteView : Slots UInt8 := self.slots.view headers memory self.layout.size

def view : IndexBlock (Node K) where
  buckets bucketIdx :=
    if bucketIdx < self.totalBuckets then ⟨memory.readWord (bucketIdx * bucketSize) usizeSize⟩
    else ⟨0⟩
  slots := (self.byteView headers memory).cells self.layout

end RawIndex
end InMemoryTable
