import InMemoryTable.Index
import InMemoryTable.Record
import InMemoryTable.Semaphore

/-! The table: records in one slot store, the primary key index in another, and
a semaphore set. `semop` gives the outcome of each semaphore operation of a
call; `none` as the result of a call means that it does not return. -/
namespace InMemoryTable

structure TableHeader where
  magic : List UInt8
  capacity : Nat
  deriving DecidableEq, Repr

namespace TableHeader

/-- `b"INMEMT"` -/
def MAGIC : List UInt8 := [0x49, 0x4E, 0x4D, 0x45, 0x4D, 0x54]

def new (capacity : Nat) : TableHeader := { magic := MAGIC, capacity }

def isValid (self : TableHeader) : Bool := self.magic == MAGIC

end TableHeader

/-- The contents of the two shared memory blocks of a table. -/
structure TableMemory (B : Type) where
  header : TableHeader
  slots : Slots UInt8
  index : IndexBlock B

/-- What a handle keeps besides the addresses of the blocks. -/
structure Table (K B : Type) where
  semaphores : SemaphoreSet
  primaryKeys : Index K B

/-- The calls of a client program. -/
inductive Operation (K T R : Type) where
  | insert (record : T)
  | find (key : K)
  | updateWithLock (key : K) (f : T → R × T)
  | remove (key : K)
  | updateMany (keys : List K) (updater : T → T)

inductive Reply (T R : Type) where
  | inserted (result : Except InMemoryTableError Nat)
  | found (result : Except InMemoryTableError (Option T))
  | updated (result : Except InMemoryTableError (Option R))
  | removed (result : Except InMemoryTableError Unit)
  | updatedMany (result : Except InMemoryTableError Nat)
  deriving DecidableEq

namespace Table
variable {K T R B : Type}

/-- The fields of a handle on a table of `capacity` records. -/
def handle (layout : NodeLayout K B) (hasher : K → Nat) (semId capacity : Nat) : Table K B :=
  { semaphores := .ofRecords semId capacity, primaryKeys := .handle layout hasher capacity }

/-- `create_with_size`: `data` and `nodes` are what the two blocks held before. -/
def createWithSize (layout : NodeLayout K B) (hasher : K → Nat) (semId capacity recordSize : Nat)
    (data : Nat → Slot UInt8) (nodes : Nat → Slot B) : Table K B × TableMemory B :=
  let table := handle layout hasher semId capacity
  (table,
    { header := .new capacity
      slots := .new data capacity recordSize
      index := table.primaryKeys.newBlock capacity nodes })

/-- `open` -/
def openExisting (layout : NodeLayout K B) (hasher : K → Nat) (semId : Nat)
    (memory : TableMemory B) : Except InMemoryTableError (Table K B) :=
  if memory.header.isValid then .ok (handle layout hasher semId memory.header.capacity)
  else .error .notInitialized

variable (self : Table K B) (codec : Bincode T) (semop : Nat → Except Errno Unit)
  (memory : TableMemory B)

/-- The private `get`: the record in slot `index`. -/
def get (index : Nat) : Except InMemoryTableError (Option T) :=
  if index ≥ memory.header.capacity then .error (.invalidIndex index memory.header.capacity)
  else (codec.decode (memory.slots.get index)).map some

/-- The private `update`: the record of slot `index` is replaced. -/
def update (index : Nat) (record : T) : Except InMemoryTableError Unit × TableMemory B :=
  match codec.encode record with
  | .error e => (.error e, memory)
  | .ok serialized =>
    let (result, slots) := memory.slots.update index serialized
    (result, { memory with slots })

variable [DecidableEq K]

def updateWithLock (key : K) (f : T → R × T) :
    Option (Except InMemoryTableError (Option R) × TableMemory B) := do
  match ← self.primaryKeys.get memory.index key with
  | none => some (.ok none, memory)
  | some index =>
    match self.semaphores.lockRecord semop index with
    | .error e => some (.error e, memory)
    | .ok () =>
      match get codec memory index with
      | .error e => some (.error e, memory)
      | .ok none => some (.ok none, memory)
      | .ok (some record) =>
        let (result, record) := f record
        match update codec memory index record with
        | (.error e, memory) => some (.error e, memory)
        | (.ok (), memory) => some (.ok (some result), memory)

def insert [TableRecord T K] (record : T) :
    Option (Except InMemoryTableError Nat × TableMemory B) := do
  match ← self.primaryKeys.get memory.index (TableRecord.key record) with
  | some _ => some (.error .recordDuplicated, memory)
  | none =>
    match self.semaphores.lockTable semop with
    | .error e => some (.error e, memory)
    | .ok () =>
      match codec.encode record with
      | .error e => some (.error e, memory)
      | .ok serialized =>
        match memory.slots.insert serialized with
        | (.error e, slots) => some (.error e, { memory with slots })
        | (.ok index, slots) =>
          match ← self.primaryKeys.insert memory.index (TableRecord.key record) index with
          | (.error e, block) => some (.error e, { memory with slots, index := block })
          | (.ok (), block) => some (.ok index, { memory with slots, index := block })

def find (key : K) : Option (Except InMemoryTableError (Option T)) := do
  match ← self.primaryKeys.get memory.index key with
  | some index => some (get codec memory index)
  | none => some (.ok none)

def remove (key : K) : Option (Except InMemoryTableError Unit × TableMemory B) := do
  match ← self.primaryKeys.get memory.index key with
  | none => some (.ok (), memory)
  | some index =>
    match self.semaphores.lockRecord semop index with
    | .error e => some (.error e, memory)
    | .ok () =>
      let slots := memory.slots.remove index
      let (result, block) ← self.primaryKeys.remove memory.index key
      some (result, { memory with slots, index := block })

/-- The loop of `update_many`; the records updated before an error stay updated. -/
def updateMany (updater : T → T) : TableMemory B → List K → Nat →
    Option (Except InMemoryTableError Nat × TableMemory B)
  | memory, [], found => some (.ok found, memory)
  | memory, key :: keys, found => do
    match ← self.primaryKeys.get memory.index key with
    | none => updateMany updater memory keys found
    | some index =>
      match self.semaphores.lockRecord semop index with
      | .error e => some (.error e, memory)
      | .ok () =>
        match get codec memory index with
        | .error e => some (.error e, memory)
        | .ok none => updateMany updater memory keys found
        | .ok (some record) =>
          match update codec memory index (updater record) with
          | (.error e, memory) => some (.error e, memory)
          | (.ok (), memory) => updateMany updater memory keys (found + 1)

/-- One call of the public interface. -/
def run [TableRecord T K] : Operation K T R → Option (Reply T R × TableMemory B)
  | .insert record =>
    (self.insert codec semop memory record).map (fun (result, after) => (.inserted result, after))
  | .find key => (self.find codec memory key).map (fun result => (.found result, memory))
  | .updateWithLock key f =>
    (self.updateWithLock codec semop memory key f).map
      (fun (result, after) => (.updated result, after))
  | .remove key =>
    (self.remove semop memory key).map (fun (result, after) => (.removed result, after))
  | .updateMany keys updater =>
    (self.updateMany codec semop updater memory keys 0).map
      (fun (result, after) => (.updatedMany result, after))

/-- The memory after calls made one at a time, all semaphore operations succeeding. -/
def runAll [TableRecord T K] (memory : TableMemory B) (operations : List (Operation K T R)) :
    TableMemory B :=
  operations.foldl
    (fun memory operation =>
      match self.run codec (fun _ => .ok ()) memory operation with
      | some (_, after) => after
      | none => memory)
    memory

end Table
end InMemoryTable
