import InMemoryTable.Effect
import InMemoryTable.TableInvariant

/-! Where concurrent runs start: a table that holds some map, all semaphores
free, and every client between two calls. -/
namespace InMemoryTable
open Interleaving Transition

variable {K T R B ι : Type} [DecidableEq K]

structure Started (table : Table K B) (codec : Bincode T) (capacity recordSize : Nat)
    (config : Phases ι K T R B) (records : Records K T) : Prop extends Quiet table config where
  holds : table.Holds codec capacity recordSize config.shared.memory records

/-- Clients that make the calls of a list each. -/
def starting (memory : TableMemory B) (programs : ι → List (Operation K T R)) :
    Config ι (Shared B) (Client K T R) :=
  { shared := { memory, semaphores := fun _ => 1 }
    client := fun c => .ofCalls (programs c) }

omit [DecidableEq K] in
theorem starting_quiet (table : Table K B) (memory : TableMemory B)
    (programs : ι → List (Operation K T R)) : Quiet table (phases (starting memory programs)) where
  free _ _ := rfl
  idle _ := rfl

theorem Table.Holds.started {table : Table K B} {codec : Bincode T} {capacity recordSize : Nat}
    {memory : TableMemory B} {records : Records K T}
    (holds : table.Holds codec capacity recordSize memory records)
    (programs : ι → List (Operation K T R)) :
    Started table codec capacity recordSize (phases (starting memory programs)) records where
  toQuiet := starting_quiet table memory programs
  holds := holds

omit [DecidableEq K] in
theorem Client.ofCalls_calls {calls : Operation K T R → Prop} {program : List (Operation K T R)}
    (all : ∀ operation ∈ program, calls operation) : (Client.ofCalls program).Calls calls :=
  fun _ _ chosen => all _ (List.mem_of_getElem? chosen)

omit [DecidableEq K] in
/-- The semaphore of a record is never refused. -/
theorem Table.Serves.record_ne_error {table : Table K B} {capacity : Nat}
    (serves : table.Serves capacity) {index : Nat} (bound : index < capacity) {values : Semaphores}
    {e : InMemoryTableError} :
    table.semaphores.lockRecord (Semaphores.lock table.semaphores.stripes values) index ≠
      .error e := by
  obtain ⟨semId, same⟩ := serves.semaphores
  obtain ⟨locked, done⟩ := Semaphores.lock_ok_of_lt values
    (@SemaphoreSet.recordNumber_lt semId _ _ bound)
  rw [same, SemaphoreSet.lockRecord_ok _ bound done]
  intro failed
  cases failed

/-! ### A table of two records of two bytes -/

def twoRecords : Table UInt8 (Node UInt8) := .handle (.cell UInt8) UInt8.toNat 0 2

/-- The memory of a new table after the insertion of the records. -/
def twoRecordsAfter (records : List (UInt8 × UInt8)) : TableMemory (Node UInt8) :=
  twoRecords.runAll .twoBytes
    (Table.createWithSize (.cell UInt8) UInt8.toNat 0 2 2 (fun _ => ⟨.free, 0, []⟩)
      (fun _ => ⟨.free, 0, []⟩)).2
    (records.map (Operation.insert : _ → Operation UInt8 (UInt8 × UInt8) Unit))

theorem twoRecords_serves : twoRecords.Serves 2 :=
  Table.handle_serves _ _ 0 (by decide)

theorem twoRecordsAfter_holds (inserted : List (UInt8 × UInt8)) :
    ∃ records : Records UInt8 (UInt8 × UInt8),
      twoRecords.Holds .twoBytes 2 2 (twoRecordsAfter inserted) records ∧ records.Keyed := by
  have narrow : Slots.slotMetadataSize + 2 < usizeModulus := by decide
  apply (Table.Holds.of_create (.cell UInt8) UInt8.toNat 0 _ _ narrow).runAll
    twoRecords_serves nofun _
  intro operation member
  obtain ⟨record, _, rfl⟩ := List.mem_map.mp member
  trivial

end InMemoryTable
