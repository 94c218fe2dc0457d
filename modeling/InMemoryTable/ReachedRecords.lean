import InMemoryTable.TableIteration
import InMemoryTable.UpdateEach

/-! The map that a table holds after any sequence of calls. A lock that fails leaves
the memory alone; with the lock a call does what it does when all locks succeed. -/
namespace InMemoryTable
open Transition

namespace Table
variable {K T R B : Type} [DecidableEq K] {table : Table K B} {codec : Bincode T}
  {capacity recordSize : Nat} {memory : TableMemory B} {records : Records K T}

namespace Holds
variable (holds : Holds table codec capacity recordSize memory records)
  (serves : table.Serves capacity) (semop : Nat → Except Errno Unit)

include holds serves

theorem updateWithLock_locked (key : K) (f : T → R × T) :
    (∃ e, table.updateWithLock codec semop memory key f = some (.error e, memory)) ∨
      table.updateWithLock codec semop memory key f =
        table.updateWithLock codec (fun _ => .ok ()) memory key f := by
  cases found : records.lookup key with
  | none =>
    right
    simp [Table.updateWithLock, holds.lookup_eq serves.buckets, found]
  | some entry =>
    have position := holds.lookup_eq serves.buckets key
    rw [found, Option.map_some] at position
    cases locked : table.semaphores.lockRecord semop entry.1 with
    | error e => exact .inl ⟨e, by simp [Table.updateWithLock, position, locked]⟩
    | ok =>
      right
      simp [Table.updateWithLock, position, locked, holds.lockRecord serves found]

theorem remove_locked (key : K) :
    (∃ e, table.remove semop memory key = some (.error e, memory)) ∨
      table.remove semop memory key = table.remove (fun _ => .ok ()) memory key := by
  cases found : records.lookup key with
  | none =>
    right
    simp [Table.remove, holds.lookup_eq serves.buckets, found]
  | some entry =>
    have position := holds.lookup_eq serves.buckets key
    rw [found, Option.map_some] at position
    cases locked : table.semaphores.lockRecord semop entry.1 with
    | error e => exact .inl ⟨e, by simp [Table.remove, position, locked]⟩
    | ok =>
      right
      simp [Table.remove, position, locked, holds.lockRecord serves found]

theorem insert_locked [TableRecord T K] (record : T) :
    (∃ e, table.insert codec semop memory record = some (.error e, memory)) ∨
      table.insert codec semop memory record =
        table.insert codec (fun _ => .ok ()) memory record := by
  have position := holds.lookup_eq serves.buckets (TableRecord.key record)
  cases found : records.lookup (TableRecord.key record) with
  | some entry =>
    right
    simp [Table.insert, position, found]
  | none =>
    cases locked : table.semaphores.lockTable semop with
    | error e => exact .inl ⟨e, by simp [Table.insert, position, found, locked]⟩
    | ok =>
      right
      simp [Table.insert, position, found, locked,
        table.semaphores.lockTable_ok (fun _ => .ok ()) rfl]

variable [TableRecord T K]

theorem updateWithLock_keeps (key : K) (f : T → R × T) :
    ∃ result after records', table.updateWithLock codec semop memory key f = some (result, after) ∧
      Holds table codec capacity recordSize after records' := by
  obtain ⟨e, refused⟩ | same := holds.updateWithLock_locked serves semop key f
  · exact ⟨.error e, memory, records, refused, holds⟩
  · obtain ⟨result, after, records', returned, _, held⟩ := holds.updateWithLock serves key f
    exact ⟨result, after, records', same.trans returned, held⟩

theorem updateMany_keeps (updater : T → T) (keys : List K) (found : Nat) :
    ∃ result after records',
      table.updateMany codec semop updater memory keys found = some (result, after) ∧
      Holds table codec capacity recordSize after records' := by
  simp only [updateMany_eq_updateEach]
  induction keys generalizing memory records found with
  | nil => exact ⟨_, memory, records, rfl, holds⟩
  | cons key keys ih =>
    obtain ⟨result, after, records', returned, held⟩ :=
      holds.updateWithLock_keeps serves semop key (fun record => ((), updater record))
    simp only [updateEach, returned, bind, Option.bind_some]
    cases result with
    | error e => exact ⟨_, after, records', rfl, held⟩
    | ok reply =>
      cases reply with
      | none => exact ih held found
      | some _ => exact ih held (found + 1)

/-- Every call, with locks that may fail, leaves the table with a map. -/
theorem run_keeps (operation : Operation K T R) :
    ∃ reply after records', table.run codec semop memory operation = some (reply, after) ∧
      Holds table codec capacity recordSize after records' := by
  cases operation with
  | insert record =>
    obtain ⟨e, refused⟩ | same := holds.insert_locked serves semop record
    · exact ⟨_, memory, records, by simp only [Table.run, refused]; rfl, holds⟩
    · obtain ⟨result, after, records', returned, _, held⟩ :=
        holds.insert (R := R) serves record
      exact ⟨_, after, records', by simp only [Table.run, same, returned]; rfl, held⟩
  | find key =>
    exact ⟨_, memory, records, by simp only [Table.run, holds.find serves key]; rfl, holds⟩
  | updateWithLock key f =>
    obtain ⟨result, after, records', returned, held⟩ :=
      holds.updateWithLock_keeps serves semop key f
    exact ⟨_, after, records', by simp only [Table.run, returned]; rfl, held⟩
  | remove key =>
    obtain ⟨e, refused⟩ | same := holds.remove_locked serves semop key
    · exact ⟨_, memory, records, by simp only [Table.run, refused]; rfl, holds⟩
    · obtain ⟨after, returned, held⟩ := holds.remove serves key
      exact ⟨_, after, _, by simp only [Table.run, same, returned]; rfl, held⟩
  | updateMany keys updater =>
    obtain ⟨result, after, records', returned, held⟩ :=
      holds.updateMany_keeps serves semop updater keys 0
    exact ⟨_, after, records', by simp only [Table.run, returned]; rfl, held⟩

end Holds
end Table

section Runs
variable {K T R B : Type} [DecidableEq K] [Inhabited K] [TableRecord T K] {layout : NodeLayout K B}
  {hasher : K → Nat} {semId : Nat} {codec : Bincode T} {capacity recordSize : Nat}
  {data : Nat → Slot UInt8} {nodes : Nat → Slot B} {calls : List (Operation K T R × Reply T R)}
  {memory : TableMemory B}

/-- After any sequence of calls on a table with slots the memory holds a map. -/
theorem Table.Holds.of_run (positive : 1 ≤ capacity)
    (small : Slots.slotMetadataSize + recordSize < usizeModulus)
    (run : Run (CallStep (Table.handle layout hasher semId capacity) codec)
      (Table.createWithSize layout hasher semId capacity recordSize data nodes).2 calls memory) :
    ∃ records : Records K T,
      (Table.handle layout hasher semId capacity).Holds codec capacity recordSize memory records := by
  have serves := Table.handle_serves layout hasher semId positive
  refine run.invariant (P := fun memory => ∃ records : Records K T,
    (Table.handle layout hasher semId capacity).Holds codec capacity recordSize memory records) ?_
    ⟨∅, .of_create layout hasher semId data nodes small⟩
  rintro before _ after ⟨records, holds⟩ ⟨semop, called⟩
  obtain ⟨_, _, records', returned, held⟩ := holds.run_keeps serves semop _
  cases called.symm.trans returned
  exact ⟨records', held⟩

/-- After any sequence of calls on any table the memory holds a map, and `find`
answers from it. -/
theorem Table.Holds.found_of_run
    (small : Slots.slotMetadataSize + recordSize < usizeModulus)
    (run : Run (CallStep (Table.handle layout hasher semId capacity) codec)
      (Table.createWithSize layout hasher semId capacity recordSize data nodes).2 calls memory) :
    ∃ records : Records K T,
      (Table.handle layout hasher semId capacity).Holds codec capacity recordSize memory records ∧
      ∀ key, (Table.handle layout hasher semId capacity).find codec memory key =
        some (.ok ((records.lookup key).map Prod.snd)) := by
  rcases Nat.eq_zero_or_pos capacity with rfl | positive
  · obtain ⟨_, positive | ⟨_, created⟩⟩ := Kept.of_run small run
    · contradiction
    refine ⟨∅, ?_, fun key => ?_⟩
    · rw [created]
      exact .of_create layout hasher semId data nodes small
    · simp only [Table.find, (Kept.of_run small run).absent, bind, Option.bind_some]
      rfl
  · obtain ⟨records, holds⟩ := Table.Holds.of_run positive small run
    exact ⟨records, holds, holds.find (Table.handle_serves layout hasher semId positive)⟩

end Runs
end InMemoryTable
