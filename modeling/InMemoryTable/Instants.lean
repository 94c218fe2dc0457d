import InMemoryTable.Client
import InMemoryTable.Library.Linearization
import InMemoryTable.Records

/-! The table as an object with atomic calls: every call takes effect on the map
at one instant, and `update_many` at one instant for each of its keys. -/
namespace InMemoryTable
open Linearization

variable {K T R B : Type}

/-- What is left of a call. -/
abbrev CallPlace (K T R : Type) := Place (Request K T R) (Operation K T R) (Reply T R)

namespace After

def place : After K T R → CallPlace K T R
  | reply operation answer => .returning operation answer
  | many updater keys [] found => .returning (.updateMany keys updater) (.updatedMany (.ok found))
  | many updater keys (key :: rest) found => .running (.update (.many key updater keys rest found))

end After

namespace Operation

def place : Operation K T R → CallPlace K T R
  | insert record => .running (.insert record)
  | find key => .running (.find key)
  | updateWithLock key f => .running (.update (.withLock key f))
  | remove key => .running (.remove key)
  | updateMany keys updater => (After.many updater keys keys 0).place

end Operation

/-- The instant at which a call, or `update_many` for one key, takes effect. -/
inductive Records.Instant [DecidableEq K] [TableRecord T K] (codec : Bincode T)
    (capacity recordSize : Nat) (records : Records K T) :
    Request K T R → Records K T → After K T R → Prop where
  | insert {record : T} {answer : Reply T R} {later : Records K T} :
      Answers codec capacity recordSize records (.insert record) answer later →
      Instant codec capacity recordSize records (.insert record) later
        (.reply (.insert record) answer)
  | find {key : K} {answer : Reply T R} {later : Records K T} :
      Answers codec capacity recordSize records (.find key) answer later →
      Instant codec capacity recordSize records (.find key) later (.reply (.find key) answer)
  | remove {key : K} {answer : Reply T R} {later : Records K T} :
      Answers codec capacity recordSize records (.remove key) answer later →
      Instant codec capacity recordSize records (.remove key) later (.reply (.remove key) answer)
  | skip {change : Update K T R} : change.key ∉ records →
      Instant codec capacity recordSize records (.update change) records change.skipped
  | refuse {change : Update K T R} {index : Nat} {record : T} {e : InMemoryTableError} :
      records.lookup change.key = some (index, record) →
      accept codec recordSize (change.apply record) = .error e →
      Instant codec capacity recordSize records (.update change) records (change.failed e)
  | update {change : Update K T R} {index : Nat} {record : T} :
      records.lookup change.key = some (index, record) →
      accept codec recordSize (change.apply record) = .ok () →
      Instant codec capacity recordSize records (.update change)
        (records.insert change.key (index, change.apply record)) (change.completed record)

/-- The bounded map as an object that clients share. -/
def Records.object [DecidableEq K] [TableRecord T K] (codec : Bincode T)
    (capacity recordSize : Nat) :
    Object (Records K T) (Request K T R) (Operation K T R) (Reply T R) where
  start := Operation.place
  effect records request later place :=
    ∃ after, Instant codec capacity recordSize records request later after ∧ place = after.place

/-! ### Where the clients of a table are -/

namespace Task

/-- The call, or the part of `update_many`, that the task belongs to. -/
def request : Task K T R → Request K T R
  | insert record => .insert record
  | update change _ => .update change
  | remove key _ => .remove key

end Task

namespace Phase

/-- What the call of the client has still to do. After the instant only the
semaphore is given back. -/
def place : Phase K T R → CallPlace K T R
  | idle => .idle
  | lookup request => .running request
  | findRead key _ => .running (.find key)
  | lock task | locked task => .running task.request
  | insertInside record _ | insertIndex record _ => .running (.insert record)
  | updateWrite change _ _ => .running (.update change)
  | removeInside key _ | removeIndex key _ => .running (.remove key)
  | unlock _ after => after.place
  | reply operation answer => .returning operation answer

@[simp] theorem place_after (after : After K T R) : after.phase.place = after.place := by
  cases after with
  | reply operation answer => rfl
  | many updater keys rest found => cases rest <;> rfl

@[simp] theorem place_start (operation : Operation K T R) :
    operation.start.place = operation.place := by
  cases operation with
  | updateMany keys updater => exact place_after _
  | _ => rfl

end Phase

/-- The calls and the replies of a run. -/
def Event.shown : Event K T R → Option (Operation K T R × Option (Reply T R))
  | .called operation => some (operation, none)
  | .replied operation answer => some (operation, some answer)
  | _ => none

end InMemoryTable
