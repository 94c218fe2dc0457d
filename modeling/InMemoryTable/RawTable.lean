import InMemoryTable.RawIndex
import InMemoryTable.RegistryRun

/-! The table on the bytes of its two blocks. A block is an object of its own that
every handle maps, so addresses count from the start of a mapping. Each call reads
the fields that it needs from the bytes; a handle keeps none of them. -/
namespace InMemoryTable
open ByteMemory

/-- Where the compiler puts the two fields of `TableHeader`. -/
structure TableHeaderLayout where
  magic : Nat
  capacity : Nat
  apart : magic + TableHeader.MAGIC.length ≤ capacity ∨ capacity + usizeSize ≤ magic
  magicInside : magic + TableHeader.MAGIC.length ≤ tableHeaderSize
  capacityInside : capacity + usizeSize ≤ tableHeaderSize

/-- The aligned field first, as the compiler has it. -/
def TableHeaderLayout.alignedFirst : TableHeaderLayout where
  magic := 8
  capacity := 0
  apart := by decide
  magicInside := by decide
  capacityInside := by decide

namespace TableHeader
variable (layout : TableHeaderLayout) (memory : ByteMemory)

def ofBytes : TableHeader where
  magic := memory.read layout.magic MAGIC.length
  capacity := memory.readWord layout.capacity usizeSize

/-- `ptr::write` of a header. -/
def write (header : TableHeader) : ByteMemory :=
  (memory.write layout.magic header.magic).writeWord layout.capacity usizeSize header.capacity

end TableHeader

/-! ### Iterating over slots of bytes -/

namespace RawSlots
variable (layout : HeaderLayout) (self : RawSlots) (memory : ByteMemory)

/-- The `while` loop of `next`. -/
def skipFree : Nat → Nat → Option Nat
  | 0, _ => none
  | fuel + 1, current =>
    if self.isFree layout memory current then skipFree fuel (current + 1) else some current

/-- `SlotsIterator::next`: the slot whose slice it yields. -/
def next (fuel : Nat) (iterator : SlotsIterator) : Option (Option Nat × SlotsIterator) :=
  if iterator.found ≥ self.field layout memory .count then some (none, iterator)
  else
    (self.skipFree layout memory fuel iterator.current).map (fun current =>
      (some current, { current := current + 1, found := iterator.found + 1 }))

end RawSlots

/-- The contents of the two shared memory blocks of a table. -/
structure TableBytes where
  data : ByteMemory
  index : ByteMemory

structure RawTable (K : Type) where
  slots : RawSlots
  semaphores : SemaphoreSet
  primaryKeys : RawIndex K

namespace RawTable
variable {K T R : Type} (tableLayout : TableHeaderLayout) (headers : HeaderLayout)

/-- `create_with_size` on the two blocks that `Block::new` has filled with zeros. -/
def createWithSize (layout : NodeBytes K) (hasher : K → Nat) (semId capacity recordSize : Nat)
    (memory : TableBytes) : Except InMemoryTableError (RawTable K) × TableBytes :=
  let data := memory.data.write 0 (List.replicate (Table.calculateTotalSize capacity recordSize) 0)
  match checkAligned 0 headerAlignment with
  | .error e => (.error e, { memory with data })
  | .ok () =>
    let data := TableHeader.write tableLayout data (.new capacity)
    match RawSlots.new headers data (Header.data 0 tableHeaderSize) capacity recordSize with
    | (.error e, data) => (.error e, { memory with data })
    | (.ok slots, data) =>
      match RawIndex.new headers memory.index layout hasher capacity with
      | (.error e, index) => (.error e, { data, index })
      | (.ok primaryKeys, index) =>
        (.ok { slots, semaphores := .ofRecords semId capacity, primaryKeys }, { data, index })

/-- `open` -/
def openExisting (layout : NodeBytes K) (hasher : K → Nat) (semId : Nat) (memory : TableBytes) :
    Except InMemoryTableError (RawTable K) := do
  checkAligned 0 headerAlignment
  let header := TableHeader.ofBytes tableLayout memory.data
  if header.isValid then
    let slots ← RawSlots.openExisting (Header.data 0 tableHeaderSize)
    let primaryKeys ← RawIndex.openExisting layout hasher header.capacity
    pure { slots, semaphores := .ofRecords semId header.capacity, primaryKeys }
  else throw .notInitialized

variable (self : RawTable K) (codec : Bincode T) (semop : Nat → Except Errno Unit)
  (memory : TableBytes)

def capacity : Nat := (TableHeader.ofBytes tableLayout memory.data).capacity

def count : Nat := self.slots.field headers memory.data .count

/-- The private `get`. -/
def get (index : Nat) : Except InMemoryTableError (Option T) :=
  if index ≥ capacity tableLayout memory then
    .error (.invalidIndex index (capacity tableLayout memory))
  else (codec.decode (self.slots.get headers memory.data index)).map some

/-- The private `update`. -/
def update (index : Nat) (record : T) : Except InMemoryTableError Unit × TableBytes :=
  match codec.encode record with
  | .error e => (.error e, memory)
  | .ok serialized =>
    let (result, data) := self.slots.update headers memory.data index serialized
    (result, { memory with data })

/-- `TableIterator::next` -/
def nextRecord (fuel : Nat) (iterator : SlotsIterator) : Option (Option T × SlotsIterator) :=
  (self.slots.next headers memory.data fuel iterator).map (fun (item, iterator) =>
    match item with
    | none => (none, iterator)
    | some current =>
      ((codec.deserialize (self.slots.get headers memory.data current)).toOption, iterator))

/-- `IndexIterator::next` -/
def nextKey (fuel : Nat) (iterator : SlotsIterator) : Option (Option K × SlotsIterator) := do
  let (item, iterator) ← self.primaryKeys.slots.next headers memory.index fuel iterator
  match item with
  | none => some (none, iterator)
  | some current => do
    let node ← self.primaryKeys.readNode headers memory.index current
    some (some node.key, iterator)

/-- What `iter()` yields up to its first `None`. -/
def iter : Option (List T) :=
  let slots := self.slots.field headers memory.data .capacity
  Iteration.collect (self.nextRecord headers codec memory slots) (slots + 1) Slots.iter

/-- What `keys()` yields. -/
def keys : Option (List K) :=
  let slots := self.primaryKeys.slots.field headers memory.index .capacity
  Iteration.collect (self.nextKey headers memory slots) (slots + 1) Slots.iter

def query : Query → Option (Answer K T)
  | .count => some (.number (self.count headers memory))
  | .capacity => some (.number (capacity tableLayout memory))
  | .iter => (self.iter headers codec memory).map .records
  | .keys => (self.keys headers memory).map .keys

variable [DecidableEq K]

def updateWithLock (key : K) (f : T → R × T) :
    Option (Except InMemoryTableError (Option R) × TableBytes) := do
  match ← self.primaryKeys.get headers memory.index key with
  | none => some (.ok none, memory)
  | some index =>
    match self.semaphores.lockRecord semop index with
    | .error e => some (.error e, memory)
    | .ok () =>
      match self.get tableLayout headers codec memory index with
      | .error e => some (.error e, memory)
      | .ok none => some (.ok none, memory)
      | .ok (some record) =>
        let (result, record) := f record
        match self.update headers codec memory index record with
        | (.error e, memory) => some (.error e, memory)
        | (.ok (), memory) => some (.ok (some result), memory)

def insert [TableRecord T K] (record : T) :
    Option (Except InMemoryTableError Nat × TableBytes) := do
  match ← self.primaryKeys.get headers memory.index (TableRecord.key record) with
  | some _ => some (.error .recordDuplicated, memory)
  | none =>
    match self.semaphores.lockTable semop with
    | .error e => some (.error e, memory)
    | .ok () =>
      match codec.encode record with
      | .error e => some (.error e, memory)
      | .ok serialized =>
        match self.slots.insert headers memory.data serialized with
        | (.error e, data) => some (.error e, { memory with data })
        | (.ok index, data) =>
          match ← self.primaryKeys.insert headers memory.index (TableRecord.key record) index with
          | (.error e, block) => some (.error e, { data, index := block })
          | (.ok (), block) => some (.ok index, { data, index := block })

def find (key : K) : Option (Except InMemoryTableError (Option T)) := do
  match ← self.primaryKeys.get headers memory.index key with
  | some index => some (self.get tableLayout headers codec memory index)
  | none => some (.ok none)

def remove (key : K) : Option (Except InMemoryTableError Unit × TableBytes) := do
  match ← self.primaryKeys.get headers memory.index key with
  | none => some (.ok (), memory)
  | some index =>
    match self.semaphores.lockRecord semop index with
    | .error e => some (.error e, memory)
    | .ok () =>
      let data := self.slots.remove headers memory.data index
      let (result, block) ← self.primaryKeys.remove headers memory.index key
      some (result, { data, index := block })

/-- The loop of `update_many`. -/
def updateMany (updater : T → T) : TableBytes → List K → Nat →
    Option (Except InMemoryTableError Nat × TableBytes)
  | memory, [], found => some (.ok found, memory)
  | memory, key :: keys, found => do
    match ← self.primaryKeys.get headers memory.index key with
    | none => updateMany updater memory keys found
    | some index =>
      match self.semaphores.lockRecord semop index with
      | .error e => some (.error e, memory)
      | .ok () =>
        match self.get tableLayout headers codec memory index with
        | .error e => some (.error e, memory)
        | .ok none => updateMany updater memory keys found
        | .ok (some record) =>
          match self.update headers codec memory index (updater record) with
          | (.error e, memory) => some (.error e, memory)
          | (.ok (), memory) => updateMany updater memory keys (found + 1)

/-- One call of the public interface. -/
def run [TableRecord T K] : Operation K T R → Option (Reply T R × TableBytes)
  | .insert record =>
    (self.insert headers codec semop memory record).map
      (fun (result, after) => (.inserted result, after))
  | .find key =>
    (self.find tableLayout headers codec memory key).map (fun result => (.found result, memory))
  | .updateWithLock key f =>
    (self.updateWithLock tableLayout headers codec semop memory key f).map
      (fun (result, after) => (.updated result, after))
  | .remove key =>
    (self.remove headers semop memory key).map (fun (result, after) => (.removed result, after))
  | .updateMany keys updater =>
    (self.updateMany tableLayout headers codec semop updater memory keys 0).map
      (fun (result, after) => (.updatedMany result, after))

/-! ### The table that the bytes show -/

omit [DecidableEq K] in
def shown : Table K (Node K) :=
  { semaphores := self.semaphores, primaryKeys := self.primaryKeys.shown }

omit [DecidableEq K] in
def view (recordSize : Nat) : TableMemory (Node K) where
  header := TableHeader.ofBytes tableLayout memory.data
  slots := self.slots.view headers memory.data recordSize
  index := self.primaryKeys.view headers memory.index

end RawTable
end InMemoryTable
