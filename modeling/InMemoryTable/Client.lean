import InMemoryTable.Library.Interleaving
import InMemoryTable.Table

/-! Concurrent clients of one table. A call is broken into its atomic steps: a
call of the index, a semaphore operation, entering and leaving a call that
changes the free list, reading and writing a record. -/
namespace InMemoryTable
open Interleaving

/-- What the clients share: the memory of the table and the semaphores. -/
structure Shared (B : Type) where
  memory : TableMemory B
  semaphores : Semaphores

/-- The update of one record, for `update_with_lock` or inside the loop of
`update_many`, where `rest` are the keys to come. -/
inductive Update (K T R : Type) where
  | withLock (key : K) (f : T → R × T)
  | many (key : K) (updater : T → T) (keys rest : List K) (found : Nat)

/-- The work that starts with a lookup in the index. -/
inductive Request (K T R : Type) where
  | insert (record : T)
  | find (key : K)
  | update (change : Update K T R)
  | remove (key : K)

/-- The work that is done under a semaphore. -/
inductive Task (K T R : Type) where
  | insert (record : T)
  | update (change : Update K T R) (index : Nat)
  | remove (key : K) (index : Nat)

/-- What follows the release of a semaphore. -/
inductive After (K T R : Type) where
  | reply (operation : Operation K T R) (answer : Reply T R)
  | many (updater : T → T) (keys rest : List K) (found : Nat)

/-- The next step of a client. -/
inductive Phase (K T R : Type) where
  | idle
  | lookup (request : Request K T R)
  | findRead (key : K) (index : Nat)
  | lock (task : Task K T R)
  | locked (task : Task K T R)
  | insertInside (record : T) (data : List UInt8)
  | insertIndex (record : T) (index : Nat)
  | updateWrite (change : Update K T R) (index : Nat) (record : T)
  | removeInside (key : K) (index : Nat)
  | removeIndex (key : K) (index : Nat)
  | unlock (semNum : Nat) (after : After K T R)
  | reply (operation : Operation K T R) (answer : Reply T R)

inductive Event (K T R : Type) where
  | called (operation : Operation K T R)
  | searched (key : K) (position : Option Nat)
  | read (key : K) (index : Nat)
  | locked (task : Task K T R)
  | failed (error : InMemoryTableError)
  | entered
  | left
  | applied (key : K) (record : T)
  | wrote (result : Except InMemoryTableError Unit)
  | linked (result : Except InMemoryTableError Unit)
  | unlinked (result : Except InMemoryTableError Unit)
  | unlocked (semNum : Nat)
  | replied (operation : Operation K T R) (answer : Reply T R)

/-- A client runs a program: it chooses each call by the replies so far. -/
structure Client (K T R : Type) where
  program : List (Reply T R) → Option (Operation K T R)
  replies : List (Reply T R)
  phase : Phase K T R

namespace Update
variable {K T R : Type}

def key : Update K T R → K
  | withLock key _ | many key _ _ _ _ => key

def operation : Update K T R → Operation K T R
  | withLock key f => .updateWithLock key f
  | many _ updater keys _ _ => .updateMany keys updater

/-- The effect of the closure on the record. -/
def apply : Update K T R → T → T
  | withLock _ f, record => (f record).2
  | many _ updater _ _ _, record => updater record

def skipped : Update K T R → After K T R
  | withLock key f => .reply (.updateWithLock key f) (.updated (.ok none))
  | many _ updater keys rest found => .many updater keys rest found

def completed : Update K T R → T → After K T R
  | withLock key f, record =>
    .reply (.updateWithLock key f) (.updated (.ok (some (f record).1)))
  | many _ updater keys rest found, _ => .many updater keys rest (found + 1)

def failed (e : InMemoryTableError) : Update K T R → After K T R
  | withLock key f => .reply (.updateWithLock key f) (.updated (.error e))
  | many _ updater keys _ _ => .reply (.updateMany keys updater) (.updatedMany (.error e))

end Update

namespace After
variable {K T R : Type}

def operation : After K T R → Operation K T R
  | reply operation _ => operation
  | many updater keys _ _ => .updateMany keys updater

def phase : After K T R → Phase K T R
  | reply operation answer => .reply operation answer
  | many updater keys [] found => .reply (.updateMany keys updater) (.updatedMany (.ok found))
  | many updater keys (key :: rest) found => .lookup (.update (.many key updater keys rest found))

end After

namespace Operation
variable {K T R : Type}

/-- The phase in which a call starts. -/
def start : Operation K T R → Phase K T R
  | insert record => .lookup (.insert record)
  | find key => .lookup (.find key)
  | updateWithLock key f => .lookup (.update (.withLock key f))
  | remove key => .lookup (.remove key)
  | updateMany keys updater => (After.many updater keys keys 0).phase

end Operation

namespace Request
variable {K T R : Type}

def operation : Request K T R → Operation K T R
  | insert record => .insert record
  | find key => .find key
  | update change => change.operation
  | remove key => .remove key

def key [TableRecord T K] : Request K T R → K
  | insert record => TableRecord.key record
  | find key | remove key => key
  | update change => change.key

/-- The phase that follows the answer of the index. -/
def found : Request K T R → Option Nat → Phase K T R
  | insert record, some _ => .reply (.insert record) (.inserted (.error .recordDuplicated))
  | insert record, none => .lock (.insert record)
  | find key, some index => .findRead key index
  | find key, none => .reply (.find key) (.found (.ok none))
  | update change, some index => .lock (.update change index)
  | update change, none => change.skipped.phase
  | remove key, some index => .lock (.remove key index)
  | remove key, none => .reply (.remove key) (.removed (.ok ()))

end Request

namespace Task
variable {K T R B : Type} (table : Table K B)

def operation : Task K T R → Operation K T R
  | insert record => .insert record
  | update change _ => change.operation
  | remove key _ => .remove key

/-- The number of the semaphore that the task takes. -/
def semaphore : Task K T R → Nat
  | insert _ => table.semaphores.tableNumber
  | update _ index | remove _ index => table.semaphores.recordNumber index

def tryLock (semop : Nat → Except Errno (Option Semaphores)) :
    Task K T R → Except InMemoryTableError (Option Semaphores)
  | insert _ => table.semaphores.lockTable semop
  | update _ index | remove _ index => table.semaphores.lockRecord semop index

def failed (e : InMemoryTableError) : Task K T R → After K T R
  | insert record => .reply (.insert record) (.inserted (.error e))
  | update change _ => change.failed e
  | remove key _ => .reply (.remove key) (.removed (.error e))

end Task

namespace Phase
variable {K T R B : Type} [DecidableEq K] [TableRecord T K] (table : Table K B)
  (codec : Bincode T) (shared : Shared B)

/-- The first step under the semaphore. -/
def work : Task K T R → Event K T R × Phase K T R
  | .insert record =>
    match codec.encode record with
    | .error e =>
      (.failed e, .unlock table.semaphores.tableNumber ((Task.insert record).failed e))
    | .ok data => (.entered, .insertInside record data)
  | .update change index =>
    match Table.get codec shared.memory index with
    | .error e => (.failed e, .unlock (table.semaphores.recordNumber index) (change.failed e))
    | .ok none =>
      (.read change.key index, .unlock (table.semaphores.recordNumber index) change.skipped)
    | .ok (some record) => (.applied change.key record, .updateWrite change index record)
  | .remove key index => (.entered, .removeInside key index)

/-- The call that the client is in. -/
def operation : Phase K T R → Option (Operation K T R)
  | .idle => none
  | .lookup request => some request.operation
  | .findRead key _ => some (.find key)
  | .lock task | .locked task => some task.operation
  | .insertInside record _ | .insertIndex record _ => some (.insert record)
  | .updateWrite change _ _ => some change.operation
  | .removeInside key _ | .removeIndex key _ => some (.remove key)
  | .unlock _ after => some after.operation
  | .reply operation _ => some operation

/-- Between two calls. -/
def isIdle : Phase K T R → Bool
  | .idle => true
  | _ => false

omit [DecidableEq K] [TableRecord T K] in
theorem isIdle_iff {phase : Phase K T R} : phase.isIdle = true ↔ phase = .idle := by
  cases phase <;> simp [isIdle]

/-- One atomic step of a client; `none` if it waits for a semaphore or has no
step inside its call. -/
def advance : Phase K T R → Option (Event K T R × Shared B × Phase K T R)
  | .idle | .reply _ _ => none
  | .lookup request => do
    let position ← table.primaryKeys.get shared.memory.index request.key
    some (.searched request.key position, shared, request.found position)
  | .findRead key index =>
    some (.read key index, shared,
      .reply (.find key) (.found (Table.get codec shared.memory index)))
  | .lock task =>
    match task.tryLock table (Semaphores.lock table.semaphores.stripes shared.semaphores) with
    | .error e => some (.failed e, shared, (task.failed e).phase)
    | .ok none => none
    | .ok (some semaphores) => some (.locked task, { shared with semaphores }, .locked task)
  | .locked task =>
    let (event, phase) := work table codec shared task
    some (event, shared, phase)
  | .insertInside record data =>
    match shared.memory.slots.insert data with
    | (.error e, slots) =>
      some (.left, { shared with memory := { shared.memory with slots } },
        .unlock table.semaphores.tableNumber ((Task.insert record).failed e))
    | (.ok index, slots) =>
      some (.left, { shared with memory := { shared.memory with slots } },
        .insertIndex record index)
  | .insertIndex record index => do
    let (result, block) ←
      table.primaryKeys.insert shared.memory.index (TableRecord.key record) index
    some (.linked result, { shared with memory := { shared.memory with index := block } },
      .unlock table.semaphores.tableNumber
        (.reply (.insert record) (.inserted (result.map (fun _ => index)))))
  | .updateWrite change index record =>
    match Table.update codec shared.memory index (change.apply record) with
    | (.error e, memory) =>
      some (.wrote (.error e), { shared with memory },
        .unlock (table.semaphores.recordNumber index) (change.failed e))
    | (.ok (), memory) =>
      some (.wrote (.ok ()), { shared with memory },
        .unlock (table.semaphores.recordNumber index) (change.completed record))
  | .removeInside key index =>
    some (.left,
      { shared with memory := { shared.memory with slots := shared.memory.slots.remove index } },
      .removeIndex key index)
  | .removeIndex key index => do
    let (result, block) ← table.primaryKeys.remove shared.memory.index key
    some (.unlinked result, { shared with memory := { shared.memory with index := block } },
      .unlock (table.semaphores.recordNumber index) (.reply (.remove key) (.removed result)))
  | .unlock semNum after =>
    some (.unlocked semNum,
      { shared with semaphores := shared.semaphores.unlock semNum }, after.phase)

end Phase

namespace Client
variable {K T R B : Type} [DecidableEq K] [TableRecord T K] (table : Table K B)
  (codec : Bincode T)

/-- One step: the next call of the program, a step of the current call, or its
return. -/
def next (shared : Shared B) (client : Client K T R) :
    Option (Event K T R × Shared B × Client K T R) :=
  match client.phase with
  | .idle =>
    (client.program client.replies).map
      (fun operation => (.called operation, shared, { client with phase := operation.start }))
  | .reply operation answer =>
    some (.replied operation answer, shared,
      { client with replies := client.replies ++ [answer], phase := .idle })
  | phase =>
    (phase.advance table codec shared).map
      (fun (event, shared, phase) => (event, shared, { client with phase }))

/-- A client that makes the given calls one after the other. -/
def ofCalls (program : List (Operation K T R)) : Client K T R :=
  { program := fun replies => program[replies.length]?, replies := [], phase := .idle }

/-- The interleavings of clients on one table. -/
abbrev Steps {ι : Type} [DecidableEq ι] :
    Config ι (Shared B) (Client K T R) → ι × Event K T R →
      Config ι (Shared B) (Client K T R) → Prop :=
  Step (Computes (next table codec))

end Client

/-- What the invariants speak of: the shared state and the phases of the clients. -/
abbrev Phases (ι K T R B : Type) := Config ι (Shared B) (Phase K T R)

abbrev phases {ι K T R B : Type} (config : Config ι (Shared B) (Client K T R)) : Phases ι K T R B :=
  config.map Client.phase

end InMemoryTable
